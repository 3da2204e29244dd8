/-
Access to files.

What the program needs of a file system is a record of three actions.  The actions may be
carried out in any monad, so the same code runs on the files of a computer and on a tree of
files in memory.
-/
import TimeTape.Text.Utf8

namespace TimeTape

/-- Why a file cannot be read. -/
inductive FileProblem where
  | missing
  | isDirectory
  /-- Something on the way to the file is not a directory. -/
  | notDirectory
  | other (reason : String)
  deriving DecidableEq, Repr, Inhabited

/-- A file that cannot be read. -/
structure FileError where
  path : String
  problem : FileProblem
  deriving DecidableEq, Repr, Inhabited

/-- The error in one line.  A directory can be opened, but not read. -/
def FileError.message (e : FileError) : String :=
  match e.problem with
  | .missing => s!"open {e.path}: no such file or directory"
  | .isDirectory => s!"read {e.path}: is a directory"
  | .notDirectory => s!"open {e.path}: not a directory"
  | .other reason => s!"open {e.path}: {reason}"

/-- Access to files. -/
structure Files (m : Type → Type) where
  /-- The directory that relative paths start from. -/
  workingDirectory : m String
  /-- Whether there is a file or a directory at a path. -/
  isPresent : String → m Bool
  /-- The contents of the file at a path. -/
  read : String → m (Except FileError Bytes)

end TimeTape
