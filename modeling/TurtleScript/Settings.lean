import TurtleScript.Host
import TurtleScript.Options
import TurtleScript.Text.Blank
import TurtleScript.Toml.Reader

/-!
# Settings

What the command line tool can be told: the options of a compilation and the budget of
a run. They come from a configuration document, from the environment and from single
values given by name; names nobody knows are ignored.
-/
namespace TurtleScript

structure Settings where
  options : Options := {}
  /-- The number of steps a run may take. -/
  maxSteps : UInt64 := 10000000
deriving DecidableEq, Repr

inductive SettingsProblem where
  | addressing (value : String)
  | versionParts (value : String)
  | versionNumber (value : String)
  | maxSteps (value : String)
deriving DecidableEq, Repr

def SettingsProblem.message : SettingsProblem → String
  | .addressing value =>
    "Configuration error: addressing must be 'fixed' or 'relative', not '" ++ value ++ "'"
  | .versionParts value => "Configuration error: version '" ++ value ++ "' has too many parts"
  | .versionNumber value => "Configuration error: version '" ++ value ++ "' is not numeric"
  | .maxSteps value => "Configuration error: max-steps: '" ++ value ++ "' is not a count"

namespace Settings

/-- A number below `limit` in decimal, with a plus in front or not. -/
def count? (limit : Nat) (cs : List Char) : Option Nat :=
  let digits := match cs with
    | '+' :: rest => rest
    | cs => cs
  if !digits.isEmpty && digits.all Char.isDigit then
    let n := Json.Reader.digitsValue digits
    if n < limit then some n else none
  else none

/-- The text between the points. -/
def splitParts (cs : List Char) : List (List Char) :=
  cs.foldr (fun c parts =>
    if c = '.' then [] :: parts
    else
      match parts with
      | part :: rest => (c :: part) :: rest
      | [] => [[c]]) [[]]

/-- Up to four numbers with points between them; missing ones are zero. -/
def parseVersion (value : String) : Except SettingsProblem Version :=
  let parts := splitParts value.toList
  if 4 < parts.length then .error (.versionParts value)
  else
    match parts.mapM fun part => count? UInt16.size (Text.trim part) with
    | none => .error (.versionNumber value)
    | some ns =>
      let part (n : Nat) : UInt16 := UInt16.ofNat ((ns[n]?).getD 0)
      .ok ⟨part 0, part 1, part 2, part 3⟩

/-- The case of ASCII letters does not count. -/
def parseAddressing (value : String) : Except SettingsProblem Addressing :=
  let folded := foldName value
  match Addressing.ofName? folded with
  | some a => .ok a
  | none => .error (.addressing folded)

/-- Gives the setting `key` a value. -/
def set (s : Settings) (key value : String) : Except SettingsProblem Settings := do
  match key with
  | "module-name" => return { s with options := { s.options with moduleName := value } }
  | "vendor" => return { s with options := { s.options with vendor := value } }
  | "version" => return { s with options := { s.options with version := ← parseVersion value } }
  | "addressing" =>
    return { s with options := { s.options with addressing := ← parseAddressing value } }
  | "max-steps" =>
    match count? UInt64.size value.toList with
    | some n => return { s with maxSteps := UInt64.ofNat n }
    | none => .error (.maxSteps value)
  | _ => return s

/-- What every name of a variable that counts starts with. -/
def environmentMark : String := "TERRAPIN_"

/-- The setting that a variable of the environment stands for. -/
def settingName? (name : String) : Option String :=
  if name.startsWith environmentMark then
    let rest := name.toList.drop environmentMark.length
    some (String.ofList (rest.map fun c => if c = '_' then '-' else c.toLower))
  else none

/-- Applies the variables in order. A problem stops it; what was set before stays. -/
def applyEnvironment (s : Settings) : List (String × String) → Settings × Option SettingsProblem
  | [] => (s, none)
  | (name, value) :: rest =>
    match settingName? name with
    | none => s.applyEnvironment rest
    | some key =>
      match s.set key value with
      | .ok s => s.applyEnvironment rest
      | .error p => (s, some p)

/-- The first items of an array. A configuration may have more than are read. -/
def shortened (count : Nat) : Json → Json
  | .array items => .array (items.take count)
  | j => j

/-- A name may be written as a table with nothing but an empty member of that name. -/
def nameOf : Json → Json
  | .object [(name, .object [])] | .object [(name, .array [])] => .string name
  | j => j

/-- The `compiler` table, or an array of its members in their order. -/
def optionsOf? (j : Json) : Option Options :=
  let ofMembers? (moduleName vendor version addressing : Option Json) : Option Options :=
    Options.ofMembers? moduleName vendor (version.map (shortened 4)) (addressing.map nameOf)
  match j with
  | .object ms =>
    ofMembers? (ms.lookup "module_name") (ms.lookup "vendor") (ms.lookup "version")
      (ms.lookup "addressing")
  | .array items => ofMembers? items[0]? items[1]? items[2]? items[3]?
  | _ => none

/-- The budget in the `vm` table, or in an array. -/
def budgetOf? (j : Json) : Option UInt64 := do
  let budget ← match j with
    | .object ms => some (ms.lookup "max_steps")
    | .array items => some items.head?
    | _ => none
  match budget with
  | some n => return UInt64.ofNat (← n.natural?)
  | none => return ({} : Settings).maxSteps

/-- The settings of a configuration document; what it does not say has its default. -/
def ofToml? (text : String) : Option Settings := do
  let .object ms ← Toml.parse? text | none
  let options ← (ms.lookup "compiler").elim (some {}) optionsOf?
  let maxSteps ← (ms.lookup "vm").elim (some ({} : Settings).maxSteps) budgetOf?
  return { options, maxSteps }

end Settings

end TurtleScript
