/-
Paths of files.

A path is cleaned by dropping empty and `.` parts and letting `..` take away the part before
it.  The directories above a clean absolute path are found by dropping parts from its end.

A path is a text.  A system may also have names that are no texts, byte strings which are not
UTF-8; there is no path for these, and nothing is said about them.
-/
namespace TimeTape.Path

/-- Whether a path starts at the root. -/
def isAbsolute (path : String) : Bool :=
  path.startsWith "/"

/-- The parts of a path that are neither empty nor `.`. -/
def parts (path : String) : List String :=
  ((path.toList.splitOn '/').map String.ofList).filter fun p => p ≠ "" && p ≠ "."

/--
Takes one more part into a clean list of parts, which has the last part first.  Above the root
there is nothing, and in front of a relative path `..` stays.
-/
def push (absolute : Bool) (clean : List String) (part : String) : List String :=
  if part ≠ ".." then part :: clean
  else match clean with
    | [] => if absolute then [] else [".."]
    | last :: rest => if last = ".." then ".." :: clean else rest

/-- The path with the given parts. -/
def render (absolute : Bool) (parts : List String) : String :=
  if absolute then "/" ++ "/".intercalate parts
  else if parts.isEmpty then "."
  else "/".intercalate parts

/-- The parts of the shortest path to the same place. -/
def cleanParts (path : String) : List String :=
  ((parts path).foldl (push (isAbsolute path)) []).reverse

/-- The shortest path to the same place. -/
def clean (path : String) : String :=
  render (isAbsolute path) (cleanParts path)

/-- The clean path of `name` inside `dir`; an empty `dir` stands for none. -/
def join (dir name : String) : String :=
  if dir ≠ "" then clean (dir ++ "/" ++ name)
  else if name ≠ "" then clean name
  else ""

/-- The clean absolute path that a path stands for in a working directory. -/
def absolute (workingDirectory path : String) : String :=
  if isAbsolute path then clean path else join workingDirectory path

/-- The directory that the parts, the last one first, lead to, and those above it. -/
def upward : List String → List String
  | [] => [render true []]
  | part :: rest => render true (part :: rest).reverse :: upward rest

/-- A clean absolute path and the directories above it, from the inside out. -/
def ancestors (path : String) : List String :=
  upward (cleanParts path).reverse

end TimeTape.Path
