/-
The settings of a project.

A project has a file `chrono.toml` that names its program and sets the options of a run.
Keys are compared without regard to letter case.  A key that is not a setting is refused, but
only if the text is right otherwise.
-/
import TimeTape.Files.Path
import TimeTape.Text.Folding
import TimeTape.Toml.Grammar
import TimeTape.Toml.Table

namespace TimeTape

/-- The settings of a project. -/
structure Manifest where
  name : String := ""
  /-- The file that holds the program. -/
  entry : String := ""
  verbose : Bool := false
  repeatOnNonZero : Bool := false
  eraseMovesPointer : Bool := false
  maxSteps : UInt64 := 0
  /-- Whether the tape is shown after a run, if that is set. -/
  showTape : Option Bool := none
  profile : Bool := false
  /-- The directory that holds the manifest. -/
  dir : String := ""
  deriving DecidableEq, Repr, Inhabited

/-- Why a text is not a manifest. -/
inductive ManifestError where
  /-- It is not TOML, or a setting is given a value of the wrong kind. -/
  | malformed
  /-- It has a key that is not a setting. -/
  | unknownKey (path : Toml.Path)
  deriving DecidableEq, Repr, Inhabited

/-- A part of a dotted key, in quotation marks unless it can do without. -/
def Toml.renderPart (part : String) : String :=
  if part ≠ "" && part.toList.all Toml.isBare then part
  else
    let escape := fun (c : Char) =>
      if c = Text.quotationMark || c = '\\' then String.ofList ['\\', c]
      else match c.toNat with
        | 0x08 => "\\b"
        | 0x09 => "\\t"
        | 0x0A => "\\n"
        | 0x0C => "\\f"
        | 0x0D => "\\r"
        | n => if n < 0x20 || n = 0x7F then "\\u" ++ Text.hex 4 n else String.singleton c
    String.singleton Text.quotationMark ++ String.join (part.toList.map escape) ++
      String.singleton Text.quotationMark

/-- A dotted key as it is written. -/
def Toml.Path.render (path : Toml.Path) : String :=
  ".".intercalate (path.map Toml.renderPart)

/-- What is wrong with a text.  Nothing is said about the details of a malformed one. -/
def ManifestError.message : ManifestError → String
  | .malformed => ""
  | .unknownKey path => "unknown key " ++ Text.quoteString (Toml.Path.render path)

namespace Manifest

/-- The name of the file. -/
def fileName : String := "chrono.toml"

/-- Takes the value of a setting, provided it is of the right kind. -/
abbrev Setter := Toml.Node → Manifest → Option Manifest

/-- A setting that is a string. -/
def text (set : String → Manifest → Manifest) : Setter
  | .string s, m => some (set s m)
  | _, _ => none

/-- A setting that is either on or off. -/
def switch (set : Bool → Manifest → Manifest) : Setter
  | .boolean b, m => some (set b m)
  | _, _ => none

/-- A setting that is a count.  A negative number stands for the one it is congruent to. -/
def count (set : UInt64 → Manifest → Manifest) : Setter
  | .integer n, m => some (set (UInt64.ofInt n) m)
  | _, _ => none

/-- The settings, by table and key. -/
def settings : List (String × List (String × Setter)) :=
  [("program",
      [("name", text fun s m => { m with name := s }),
       ("entry", text fun s m => { m with entry := s })]),
   ("options",
      [("verbose", switch fun b m => { m with verbose := b }),
       ("non-zero-jump-on-end", switch fun b m => { m with repeatOnNonZero := b }),
       ("erase-allows-jumps", switch fun b m => { m with eraseMovesPointer := b }),
       ("max-steps", count fun n m => { m with maxSteps := n })]),
   ("output",
      [("dump-tape", switch fun b m => { m with showTape := some b }),
       ("profile", switch fun b m => { m with profile := b })])]

/-- What is filed under a name that a key is equal to up to letter case. -/
def named? {α : Type} (entries : List (String × α)) (key : String) : Option α :=
  (entries.find? fun e => Text.sameFolded e.1 key).map Prod.snd

/-- Takes over the settings of one table. -/
def applyTable (setters : List (String × Setter)) (m : Manifest) (t : Toml.Table) :
    Option Manifest :=
  t.foldlM (fun m (key, node) =>
    match named? setters key with
    | some set => set node m
    | none => some m) m

/-- Takes over all settings. -/
def applyRoot (root : Toml.Table) : Option Manifest :=
  root.foldlM (fun m (key, node) =>
    match named? settings key, node with
    | some setters, .table t => applyTable setters m t
    | some _, _ => none
    | none, _ => some m) {}

/-- Whether a key is a setting, or a table of settings, that has been taken over. -/
def isKnown (root : Toml.Table) : Toml.Path → Bool
  | [table] => (named? settings table).isSome && (root.get? table).isSome
  | [table, key] =>
    ((named? settings table).bind (named? · key)).isSome &&
      ((Toml.Table.find? [table] root).bind (·.get? key)).isSome
  | _ => false

/-- Reads a manifest.  The directory is left empty. -/
def parse (text : Bytes) : Except ManifestError Manifest :=
  match (Toml.parse? text).bind (Toml.Builder.statements? {} []) with
  | none => .error .malformed
  | some tables =>
    match applyRoot tables.root with
    | none => .error .malformed
    | some m =>
      match tables.order.reverse.find? fun path => !isKnown tables.root path with
      | some path => .error (.unknownKey path)
      | none => .ok m

/-- The path of the program, or nothing if none is named. -/
def programPath (m : Manifest) : String :=
  if m.entry = "" then ""
  else if Path.isAbsolute m.entry then m.entry
  else Path.join m.dir m.entry

/-- Whether the tape is shown after a run, which it is unless that is turned off. -/
def showsTape (m : Manifest) : Bool :=
  m.showTape.getD true

end Manifest

end TimeTape
