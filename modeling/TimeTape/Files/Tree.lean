/-
Files in memory.

A tree gives each of its files a list of names that lead to it from the root.  Every name on
the way is a directory, and so is every path listed as one.  Paths are followed part by part:
`..` leads from a directory to the one that holds it.  A name has at most 255 bytes, a whole
path at most 4095, and no path has the character with the number zero in it.
-/
import TimeTape.Files

namespace TimeTape

/-- A tree of files with a working directory. -/
structure FileTree where
  files : List (List String × Bytes) := []
  directories : List (List String) := []
  workingDirectory : List String := []
  deriving Repr, Inhabited

namespace FileTree

/-- Whether a list of names leads to a directory. -/
def isDirectory (t : FileTree) (names : List String) : Bool :=
  names.isEmpty || t.directories.any names.isPrefixOf ||
    t.files.any fun f => names.isPrefixOf f.1 && names.length < f.1.length

/-- The contents of the file that a list of names leads to. -/
def file? (t : FileTree) (names : List String) : Option Bytes :=
  t.files.lookup names

/-- The number of bytes that a name may have. -/
def longestName : Nat := 255

/-- The number of bytes that a path may have. -/
def longestPath : Nat := 4095

/-- Follows the parts of a path from a place, given as the names that lead there. -/
def follow (t : FileTree) (place : List String) : List String → Except FileProblem (List String)
  | [] => .ok place
  | part :: rest =>
    if !t.isDirectory place then .error .notDirectory
    else if part = "" || part = "." then t.follow place rest
    else if part = ".." then t.follow place.dropLast rest
    else if longestName < part.utf8ByteSize then .error (.other "file name too long")
    else
      let next := place ++ [part]
      if t.isDirectory next || (t.file? next).isSome then t.follow next rest
      else .error .missing

/-- The place that a path leads to.  There is nothing at the empty path. -/
def resolve (t : FileTree) (path : String) : Except FileProblem (List String) :=
  if path = "" then .error .missing
  else if path.toList.contains (Char.ofNat 0) then .error (.other "invalid argument")
  else if longestPath < path.utf8ByteSize then .error (.other "file name too long")
  else t.follow (if path.startsWith "/" then [] else t.workingDirectory) (path.splitOn "/")

/-- The contents of the file at a path. -/
def read (t : FileTree) (path : String) : Except FileProblem Bytes := do
  let place ← t.resolve path
  match t.file? place with
  | some contents => .ok contents
  | none => .error .isDirectory

/-- Access to the files of a tree. -/
def access (t : FileTree) : Files Id where
  workingDirectory := "/" ++ "/".intercalate t.workingDirectory
  isPresent path := (t.resolve path).toBool
  read path := (t.read path).mapError fun problem => { path, problem }

end FileTree

end TimeTape
