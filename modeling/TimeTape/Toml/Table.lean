/-
The tables that a TOML text describes.

Statements are carried out one by one on a tree of tables.  A key can be given only once, but
a table that came into being only because something inside it was named may still be given a
header of its own; such tables are called implied.  An array takes the place of an implied
table, and a dotted key may in turn go through an array, which then gives way to a table.

The pairs of an inline table are carried out in place, in the tree, and besides on a table of
their own.  There a key cannot go through anything but a table.
-/
import TimeTape.Toml.Value

namespace TimeTape.Toml

/-- What a key stands for. -/
inductive Node where
  | string (s : String)
  | integer (n : Int)
  | boolean (b : Bool)
  /-- A value that is neither of these nor a table. -/
  | other
  | table (entries : List (String × Node))
  /-- An array of tables that were given by headers, the latest first. -/
  | tables (elements : List (List (String × Node)))
  deriving Inhabited

/-- The keys of a table and what they stand for, in no particular order. -/
abbrev Table := List (String × Node)

namespace Table

/-- What a key stands for. -/
def get? (t : Table) (key : String) : Option Node :=
  List.lookup key t

/-- The table in which a key stands for a node. -/
def insert (t : Table) (key : String) (node : Node) : Table :=
  (key, node) :: t.filter fun e => e.1 ≠ key

/--
Changes the table that a path leads to.  In an array of tables the path goes on in the latest
one.  Fails if something on the way is not a table.
-/
def change? (f : Table → Option Table) : Path → Table → Option Table
  | [], t => f t
  | key :: path, t =>
    match t.get? key with
    | some (.table inner) => (change? f path inner).map fun inner => t.insert key (.table inner)
    | some (.tables (latest :: earlier)) =>
      (change? f path latest).map fun latest => t.insert key (.tables (latest :: earlier))
    | _ => none

/--
Gives a dotted key a value; the tables that its front parts name are made where they are
missing.  Fails if one of these parts stands for something else.
-/
def put? (node : Node) : Path → Table → Option Table
  | [], _ => none
  | [key], t => some (t.insert key node)
  | key :: path, t =>
    match t.get? key with
    | none => (put? node path []).map fun inner => t.insert key (.table inner)
    | some (.table inner) => (put? node path inner).map fun inner => t.insert key (.table inner)
    | some _ => none

/-- The table that a path leads to. -/
def find? : Path → Table → Option Table
  | [], t => some t
  | key :: path, t =>
    match t.get? key with
    | some (.table inner) => find? path inner
    | some (.tables (latest :: _)) => find? path latest
    | _ => none

end Table

/-- The tables as far as they have been described. -/
structure Builder where
  root : Table := []
  /-- The tables that are implied. -/
  implied : List Path := []
  /-- The keys whose latest value is an array. -/
  arrays : List Path := []
  /-- The keys in the order in which they were given, the latest first. -/
  order : List Path := []
  deriving Inhabited

namespace Builder

/-- Marks a table as implied. -/
def imply (b : Builder) (path : Path) : Builder :=
  { b with implied := path :: b.implied.filter (· ≠ path) }

/-- Takes the mark off a table. -/
def confirm (b : Builder) (path : Path) : Builder :=
  { b with implied := b.implied.filter (· ≠ path) }

/--
The path under which it is kept whether a key holds an array.  An empty key shares that of its
table.
-/
def kindPath (context : Path) (key : String) : Path :=
  if key.isEmpty then if context.isEmpty then [""] else context
  else context ++ [key]

/-- Notes whether the latest value of a key is an array. -/
def setKind (b : Builder) (path : Path) (isArray : Bool) : Builder :=
  let others := b.arrays.filter (· ≠ path)
  { b with arrays := if isArray then path :: others else others }

/-- Notes that a key has been given. -/
def mention (b : Builder) (path : Path) : Builder :=
  { b with order := path :: b.order }

/--
Gives a key of the table `context` a value.  A key that has one already is refused, unless it
is marked as implied.  It loses the mark then, and keeps what it has, except that the new value
counts where the old or the new one is an array.
-/
def set? (b : Builder) (context : Path) (key : String) (node : Node) : Option Builder := do
  let path := context ++ [key]
  let table ← b.root.find? context
  let store := fun (b : Builder) =>
    (b.root.change? (fun t => some (t.insert key node)) context).map fun root => { b with root }
  match table.get? key with
  | none => store b
  | some _ =>
    if !b.implied.contains path then none
    else if b.arrays.contains path then store (b.confirm path)
    else some (b.confirm path)

/-- Makes sure that every part of `path` below `context` is a table. -/
def ensure? (b : Builder) (context : Path) : Path → Option Builder
  | [] => some b
  | key :: path => do
    let here := context ++ [key]
    let table ← b.root.find? context
    let b ← match table.get? key with
      | none =>
        (b.root.change? (fun t => some (t.insert key (.table []))) context).map fun root =>
          { b.imply here with root }
      | some (.table _) => some b
      | some (.tables _) => some b
      | some _ => none
    ensure? b here path

/-- Adds one more table to the array of tables under a key. -/
def append? (b : Builder) (context : Path) (key : String) : Option Builder :=
  (b.root.change? (fun t =>
    match t.get? key with
    | none => some (t.insert key (.tables [[]]))
    | some (.tables elements) => some (t.insert key (.tables ([] :: elements)))
    | some _ => none) context).map fun root => { b with root }

/-- Opens the table at `path`, or one more table in the array there. -/
def open? (b : Builder) (path : Path) (inArray : Bool) : Option Builder := do
  let key ← path.getLast?
  let context := path.dropLast
  let b ← b.ensure? [] context
  if inArray then b.append? context key else b.set? context key (.table [])

/-- Opens the tables that the front parts of a dotted key name, one inside the other. -/
def openDotted? (b : Builder) (context : Path) : Path → Option Builder
  | [] => some b
  | key :: path => do
    let here := context ++ [key]
    let b ← (b.imply here).open? here false
    openDotted? b here path

/--
Gives a dotted key of the table `context` a value, which is carried out by `evaluate` once the
tables around it are open.  Gives what the key stands for besides.
-/
def assignBy? (b : Builder) (context path : Path) (isArray : Bool)
    (evaluate : Builder → Path → String → Option (Builder × Node)) :
    Option (Builder × Node) := do
  let key ← path.getLast?
  let inner := context ++ path.dropLast
  let b ← b.openDotted? context path.dropLast
  let (b, node) ← evaluate (b.mention (inner ++ [key])) inner key
  let b ← b.set? inner key node
  some (b.setKind (kindPath inner key) isArray, node)

mutual

/--
Carries out the value of a key, and gives what the key stands for.  The tables inside it are
built in place as well.
-/
def value? (b : Builder) (context : Path) (key : String) (inArray : Bool) :
    Value → Option (Builder × Node)
  | .string s => some (b, .string s)
  | .integer n => some (b, .integer n)
  | .boolean v => some (b, .boolean v)
  | .float => some (b, .other)
  | .datetime => some (b, .other)
  | .array items => do
    let b ← items? (b.setKind (kindPath context key) true) context key items
    some (b, .other)
  | .inline pairs => do
    let here := context ++ [key]
    let b ← (b.imply here).open? here inArray
    let (b, own) ← pairs? b here [] pairs
    some (b, .table own)

/-- Carries out the items of an array. -/
def items? (b : Builder) (context : Path) (key : String) : List Value → Option Builder
  | [] => some b
  | item :: more => do
    let (b, _) ← value? b context key true item
    items? b context key more

/-- Carries out the pairs of an inline table, in the tree and on a table of their own. -/
def pairs? (b : Builder) (context : Path) (own : Table) :
    List (Path × Value) → Option (Builder × Table)
  | [] => some (b, own)
  | (path, value) :: more => do
    let (b, node) ← b.assignBy? context path value.isArray fun b inner key =>
      value? b inner key false value
    pairs? b context (← own.put? node path) more

end

/-- Gives a dotted key of the table `context` a value. -/
def assign? (b : Builder) (context path : Path) (value : Value) : Option Builder :=
  (b.assignBy? context path value.isArray fun b inner key =>
    value? b inner key false value).map Prod.fst

/-- Carries out a statement.  Gives the table that the following keys belong to. -/
def statement? (b : Builder) (context : Path) : Statement → Option (Builder × Path)
  | .table path => do
    let b ← b.open? path false
    some ((b.setKind path false).mention path, path)
  | .arrayTable path => do
    let b ← b.open? path true
    some ((b.setKind path false).mention path, path)
  | .assign path value => do
    let b ← b.assign? context path value
    some (b, context)

/-- Carries out a list of statements. -/
def statements? (b : Builder) (context : Path) : List Statement → Option Builder
  | [] => some b
  | s :: more => do
    let (b, context) ← b.statement? context s
    statements? b context more

end Builder

end TimeTape.Toml
