/-
The arguments of the command.

A flag is written with one dash or two.  Its value follows an equals sign or, unless the flag
is a switch, is the next argument.  Flags end at the first argument that is not one, and what
comes after that is not looked at.  Of a flag that is given several times the last one counts.
-/
import TimeTape.Config

namespace TimeTape

/-- What the command is asked to do. -/
structure Arguments where
  flags : Flags := {}
  /-- Do not look for a manifest. -/
  noManifest : Bool := false
  /-- Serve an editor instead of running a program. -/
  serve : Bool := false
  deriving DecidableEq, Repr, Inhabited

/-- What kind of value a flag takes, and what is done with it. -/
inductive FlagValue where
  | switch (set : Bool → Arguments → Arguments)
  | text (set : String → Arguments → Arguments)
  | count (set : UInt64 → Arguments → Arguments)

/-- The word for a value in the list of flags. -/
def FlagValue.placeholder : FlagValue → String
  | .switch _ => ""
  | .text _ => " string"
  | .count _ => " uint"

/-- A flag that is understood. -/
structure Flag where
  name : String
  value : FlagValue
  help : String

/-- The change of the settings of a run that a flag makes. -/
def Arguments.onFlags (f : Flags → Flags) (a : Arguments) : Arguments :=
  { a with flags := f a.flags }

/-- The change of the options of a run that a flag makes. -/
def Arguments.onOptions (f : Options → Options) (a : Arguments) : Arguments :=
  a.onFlags fun flags => { flags with options := f flags.options }

/-- The flags, in alphabetical order. -/
def Flag.all : List Flag :=
  [{ name := "break"
     value := .text fun s => Arguments.onFlags fun f => { f with breaks := Bytes.ofString s }
     help := "Comma-separated instruction indices; print engine state on arrival" },
   { name := "eaj"
     value := .switch fun b => Arguments.onOptions fun o => { o with eraseMovesPointer := b }
     help := "Keep instruction pointer jumps made while E erases ticks" },
   { name := "f"
     value := .text fun s => Arguments.onFlags fun f => { f with file := s }
     help := "Read the program from a file (line breaks are stripped)" },
   { name := "lsp"
     value := .switch fun b a => { a with serve := b }
     help := "Start the language server on stdio" },
   { name := "max-steps"
     value := .count fun n => Arguments.onFlags fun f => { f with maxSteps := n }
     help := "Stop after this many steps (0 = no limit)" },
   { name := "no-manifest"
     value := .switch fun b a => { a with noManifest := b }
     help := "Skip loading chrono.toml" },
   { name := "nzr"
     value := .switch fun b => Arguments.onOptions fun o => { o with repeatOnNonZero := b }
     help := "Make \x7d jump back when the cell is nonzero instead of zero" },
   { name := "profile"
     value := .switch fun b => Arguments.onOptions fun o => { o with profile := b }
     help := "Print the most executed instructions after the run" },
   { name := "v"
     value := .switch fun b => Arguments.onOptions fun o => { o with verbose := b }
     help := "Verbose output: jump tables and a trace of every step" }]

/-- Why the arguments are not taken. -/
inductive ArgumentError where
  /-- It is asked how the command is used. -/
  | help
  | badSyntax (argument : String)
  | undefined (name : String)
  | needsValue (name : String)
  | badSwitch (name value : String)
  | badCount (name value : String) (error : Text.NumberError)
  deriving DecidableEq, Repr

/-- What is wrong with a number. -/
def Text.NumberError.message : Text.NumberError → String
  | .malformed => "parse error"
  | .outOfRange => "value out of range"

/-- What is wrong with the arguments, if anything is. -/
def ArgumentError.message? : ArgumentError → Option String
  | .help => none
  | .badSyntax argument => some s!"bad flag syntax: {argument}"
  | .undefined name => some s!"flag provided but not defined: -{name}"
  | .needsValue name => some s!"flag needs an argument: -{name}"
  | .badSwitch name value =>
    some s!"invalid boolean value {Text.quoteString value} for -{name}: parse error"
  | .badCount name value error =>
    some s!"invalid value {Text.quoteString value} for flag -{name}: {error.message}"

/-- The number that says why the command gave up. -/
def ArgumentError.exitCode : ArgumentError → Nat
  | .help => 0
  | _ => 2

namespace Arguments

/-- The value of a switch. -/
def switch? (s : String) : Option Bool :=
  if ["1", "t", "T", "true", "TRUE", "True"].contains s then some true
  else if ["0", "f", "F", "false", "FALSE", "False"].contains s then some false
  else none

/-- A flag without its dashes, cut at the first equals sign. -/
def cut (flag : String) : String × Option String :=
  match flag.toList.span (· ≠ '=') with
  | (name, []) => (String.ofList name, none)
  | (name, _ :: value) => (String.ofList name, some (String.ofList value))

/-- What an argument is. -/
inductive Kind where
  /-- There are no more flags. -/
  | stop
  | malformed
  | flag (name : String) (value : Option String)

/-- What a flag is, given what follows its dashes. -/
def classifyFlag (flag : List Char) : Kind :=
  if flag.head?.any fun c => c = '-' || c = '=' then .malformed
  else
    let (name, value) := cut (String.ofList flag)
    .flag name value

/-- Takes the dashes off an argument.  Dashes alone are not a flag. -/
def classify (argument : String) : Kind :=
  match argument.toList with
  | '-' :: '-' :: [] => .stop
  | '-' :: '-' :: flag => classifyFlag flag
  | '-' :: [] => .stop
  | '-' :: flag => classifyFlag flag
  | _ => .stop

/-- Takes the value of a flag. -/
def setValue (flag : Flag) (value : String) (a : Arguments) : Except ArgumentError Arguments :=
  match flag.value with
  | .text set => .ok (set value a)
  | .count set =>
    match Text.unsigned (Bytes.ofString value) with
    | .ok n => .ok (set n a)
    | .error e => .error (.badCount flag.name value e)
  | .switch set =>
    match switch? value with
    | some b => .ok (set b a)
    | none => .error (.badSwitch flag.name value)

/-- Whether a flag is a switch, which needs no value. -/
def isSwitch (flag : Flag) : Bool :=
  match flag.value with
  | .switch _ => true
  | _ => false

/--
Takes one argument, where `next` is the one after it.  Gives whether that one was used as a
value; `none` if there are no more flags.
-/
def take? (a : Arguments) (argument : String) (next : Option String) :
    Except ArgumentError (Option (Arguments × Bool)) :=
  match classify argument with
  | .stop => .ok none
  | .malformed => .error (.badSyntax argument)
  | .flag name value =>
    match Flag.all.find? fun f => f.name = name with
    | none => .error (if name = "help" || name = "h" then .help else .undefined name)
    | some flag =>
      match value with
      | some value => (setValue flag value a).map fun a => some (a, false)
      | none =>
        if isSwitch flag then (setValue flag "true" a).map fun a => some (a, false)
        else match next with
          | some value => (setValue flag value a).map fun a => some (a, true)
          | none => .error (.needsValue name)

/-- Takes arguments up to the end of the flags; `skip` if the first has been used already. -/
def parseFrom (a : Arguments) (skip : Bool) : List String → Except ArgumentError Arguments
  | [] => .ok a
  | argument :: rest =>
    if skip then parseFrom a false rest
    else match a.take? argument rest.head? with
      | .error e => .error e
      | .ok none => .ok a
      | .ok (some (a, used)) => parseFrom a used rest

/-- Takes arguments up to the end of the flags. -/
def parse (arguments : List String) : Except ArgumentError Arguments :=
  parseFrom {} false arguments

end Arguments

end TimeTape
