/-
Finding the manifest of a project.

The manifest that counts is the one in the working directory or, failing that, in the nearest
directory above it that has one.  How the text of a manifest is understood plays no part in which
one that is, so it is left to a decoder.
-/
import TimeTape.Files
import TimeTape.Manifest

namespace TimeTape

/-- Why the manifest at a path could not be loaded. -/
inductive ProjectError where
  | unreadable (path : String) (error : FileError)
  | rejected (path : String) (error : ManifestError)
  deriving DecidableEq, Repr, Inhabited

/-- The error in one line. -/
def ProjectError.message : ProjectError → String
  | .unreadable path error => s!"cannot read {path}: {error.message}"
  | .rejected path error => s!"parse error in {path}: {error.message}"

namespace Project

variable {m : Type → Type} [Monad m]

/-- Understands the text of a manifest, all but where it stands. -/
abbrev Decoder := Bytes → Except ManifestError Manifest

/-- Loads the manifest in a directory. -/
def load (files : Files m) (dir : String) (decode : Decoder := Manifest.parse) :
    m (Except ProjectError Manifest) := do
  let path := Path.join dir Manifest.fileName
  match ← files.read path with
  | .error error => return .error (.unreadable path error)
  | .ok text =>
    match decode text with
    | .error error => return .error (.rejected path error)
    | .ok manifest =>
      return .ok { manifest with dir := Path.absolute (← files.workingDirectory) dir }

/-- Loads the manifest in the first of some directories that has one. -/
def loadFirst (files : Files m) (decode : Decoder) :
    List String → m (Except ProjectError (Option Manifest))
  | [] => return .ok none
  | dir :: more => do
    if ← files.isPresent (Path.join dir Manifest.fileName) then
      return (← load files dir decode).map some
    else loadFirst files decode more

/-- Loads the nearest manifest, if there is one. -/
def find (files : Files m) (start : String) (decode : Decoder := Manifest.parse) :
    m (Except ProjectError (Option Manifest)) := do
  loadFirst files decode (Path.ancestors (Path.absolute (← files.workingDirectory) start))

end Project

end TimeTape
