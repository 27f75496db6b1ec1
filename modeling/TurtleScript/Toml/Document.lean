import TurtleScript.Json.Value

/-!
# Tables of a configuration document

A document is a tree of tables that its statements fill one after another. How a table
came about decides who may still add to it. A header opens a table that nothing has
made or that only the header of a table inside it has implied. A dotted key passes
through every table that no header has opened, but the table it adds to has to be one
that dotted keys made. Nothing is assigned twice.
-/
namespace TurtleScript.Toml

/-- How a table came about. -/
inductive Origin where
  /-- By a header of its own. -/
  | header
  /-- By a dotted key. -/
  | dotted
  /-- By the header of a table inside it. -/
  | implied
deriving DecidableEq, Repr

inductive Item where
  | value (j : Json)
  | table (origin : Origin) (members : List (String × Item))
  /-- An array of tables. Only the last of them can still be added to. -/
  | tables (earlier : List Json) (last : List (String × Item))

abbrev Members := List (String × Item)

mutual

def Item.toJson : Item → Json
  | .value j => j
  | .table _ members => .object (membersToJson members)
  | .tables earlier last => .array (earlier ++ [.object (membersToJson last)])
termination_by structural i => i

def membersToJson : List (String × Item) → List (String × Json)
  | [] => []
  | (key, i) :: ms => (key, i.toJson) :: membersToJson ms
termination_by structural ms => ms

end

namespace Members

/-- Gives a key its item, in place if it has one. -/
def set (key : String) (item : Item) : Members → Members
  | [] => [(key, item)]
  | (k, i) :: ms => if k = key then (k, item) :: ms else (k, i) :: set key item ms

/-- Changes the table at a path, which starts in a table of the given origin; tables on
the way are made as parts of a header or of a dotted key. -/
def change (dotted : Bool) (f : Origin → Members → Option Members) (origin : Origin)
    (path : List String) (ms : Members) : Option Members :=
  match path with
  | [] => f origin ms
  | key :: path =>
    match ms.lookup key with
    | none => do
      let made := if dotted then .dotted else .implied
      return set key (.table made (← change dotted f made path [])) ms
    | some (.value _) => none
    | some (.table origin inner) =>
      if dotted && origin = .header then none
      else do return set key (.table origin (← change dotted f origin path inner)) ms
    | some (.tables earlier last) => do
      return set key (.tables earlier (← change dotted f .header path last)) ms
termination_by structural path

/-- Opens the table `key` by its header. -/
def openHere (key : String) (ms : Members) : Option Members :=
  match ms.lookup key with
  | none => some (set key (.table .header []) ms)
  | some (.table .implied inner) => some (set key (.table .header inner) ms)
  | some _ => none

/-- Opens one more table of the array `key`. -/
def extendHere (key : String) (ms : Members) : Option Members :=
  match ms.lookup key with
  | none => some (set key (.tables [] []) ms)
  | some (.tables earlier last) =>
    some (set key (.tables (earlier ++ [.object (membersToJson last)]) []) ms)
  | some _ => none

/-- Does something with the last key of a path, in the table the others lead to. -/
def atLast (dotted : Bool) (f : String → Origin → Members → Option Members)
    (path : List String) (ms : Members) : Option Members := do
  change dotted (f (← path.getLast?)) .header path.dropLast ms

/-- Opens a table by its header. -/
def openTable (path : List String) (ms : Members) : Option Members :=
  atLast false (fun key _ ms => openHere key ms) path ms

/-- Opens one more table of an array by its header. -/
def extendTables (path : List String) (ms : Members) : Option Members :=
  atLast false (fun key _ ms => extendHere key ms) path ms

/-- Gives the key at `path` in the table at hand its value. -/
def assignHere (path : List String) (value : Json) (ms : Members) : Option Members :=
  atLast true (fun key origin ms =>
    if (path.length = 1 || origin = .dotted) && (ms.lookup key).isNone then
      some (ms ++ [(key, .value value)])
    else none) path ms

/-- Gives the key at `path` in the table at `base` its value. -/
def assign (base path : List String) (value : Json) (ms : Members) : Option Members :=
  change false (fun _ ms => assignHere path value ms) .header base ms

end Members

end TurtleScript.Toml
