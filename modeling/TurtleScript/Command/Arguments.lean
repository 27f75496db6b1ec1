import TurtleScript.Bytecode.Module
import TurtleScript.Settings

/-!
# Arguments of the command line

Options may stand before or after the command. A long option takes its value after an
equals sign or from the next argument, a short one also right behind its letter, and
short flags may be written together. After `--` everything is an input.
-/
namespace TurtleScript

/-- What is to be done. -/
inductive Action where
  | check (input : String)
  | compile (input : String) (output : Option String) (addressing : Option Addressing)
      (moduleName : Option String) (listing : Bool)
  | disasm (input : String)
  | run (input : String) (maxSteps : Option UInt64)
deriving DecidableEq, Repr

structure Invocation where
  verbose : Bool
  quiet : Bool
  /-- The configuration document to use instead of the usual ones. -/
  config : Option String
  action : Action
deriving DecidableEq, Repr

/-- What a command line comes to if it asks for no action. -/
inductive Aside where
  | version (program : String)
  | help
  | usage
deriving DecidableEq, Repr

namespace Arguments

/-- What the value of an option has to be. -/
inductive Form where
  | text | path | addressing | steps
deriving DecidableEq, Repr

def addressing? (value : String) : Option Addressing := Addressing.ofName? value

def steps? (value : String) : Option UInt64 :=
  (Settings.count? UInt64.size value.toList).map UInt64.ofNat

def Form.accepts : Form → String → Bool
  | .text, _ => true
  | .path, value => value ≠ ""
  | .addressing, value => (addressing? value).isSome
  | .steps, value => (steps? value).isSome

inductive Effect where
  | flag | value (form : Form) | help | version
deriving DecidableEq, Repr

structure OptionSpec where
  name : String
  short : Option Char
  effect : Effect
deriving DecidableEq, Repr

/-- The options every command has. -/
def common : List OptionSpec :=
  [⟨"verbose", some 'v', .flag⟩, ⟨"quiet", some 'q', .flag⟩, ⟨"config", none, .value .path⟩,
    ⟨"help", some 'h', .help⟩, ⟨"version", some 'V', .version⟩]

inductive Verb where
  | check | compile | disasm | run
deriving DecidableEq, Repr

namespace Verb

def name : Verb → String
  | .check => "check"
  | .compile => "compile"
  | .disasm => "disasm"
  | .run => "run"

def ofWord? (word : String) : Option Verb :=
  if word = "check" then some .check
  else if word = "compile" || word = "c" then some .compile
  else if word = "disasm" || word = "dis" then some .disasm
  else if word = "run" then some .run
  else none

def options : Verb → List OptionSpec
  | .compile =>
    [⟨"output", some 'o', .value .path⟩, ⟨"addressing", none, .value .addressing⟩,
      ⟨"module-name", none, .value .text⟩, ⟨"disasm", none, .flag⟩]
  | .run => [⟨"max-steps", none, .value .steps⟩]
  | _ => []

end Verb

/-- An option that was given. -/
structure Given where
  name : String
  value : Option String := none
deriving DecidableEq, Repr

/-- What stands before a command, or after it. -/
structure Level where
  given : List Given := []
  input : Option String := none
  /-- What was not looked at. -/
  rest : List String := []
deriving DecidableEq, Repr

namespace Level

def value? (l : Level) (name : String) : Option String :=
  (l.given.find? (·.name = name)).bind (·.value)

def has (l : Level) (name : String) : Bool := l.given.any (·.name = name)

/-- Adds an option. None may be given twice. -/
def give (l : Level) (g : Given) : Except Aside Level :=
  if l.has g.name then .error .usage else .ok { l with given := g :: l.given }

/-- Adds an option with a value of the right form. -/
def giveValue (l : Level) (name : String) (form : Form) (value : String) : Except Aside Level :=
  if form.accepts value then l.give ⟨name, some value⟩ else .error .usage

/-- Adds the input. There is only one, and it is a path. -/
def setInput (l : Level) (path : String) : Except Aside Level :=
  if l.input.isNone && Form.path.accepts path then .ok { l with input := some path }
  else .error .usage

end Level

/-- Whether an argument can be the value of an option before it. -/
def isValue (arg : String) : Bool := arg = "-" || !arg.startsWith "-"

/-- The text before the first equals sign and the text after it. -/
def splitEquals (cs : List Char) : String × Option String :=
  (String.ofList (cs.takeWhile (· ≠ '=')),
    match cs.dropWhile (· ≠ '=') with
    | [] => none
    | _ :: value => some (String.ofList value))

/-- Short options written together. An option at the end that still needs a value is
given apart, with the form of the value. -/
def cluster (program : String) (specs : List OptionSpec) (l : Level) :
    List Char → Except Aside (Level × Option (String × Form))
  | [] => .ok (l, none)
  | c :: cs =>
    match specs.find? (·.short = some c) with
    | none => .error .usage
    | some spec =>
      match spec.effect with
      | .help => .error .help
      | .version => .error (.version program)
      | .flag => do cluster program specs (← l.give { name := spec.name }) cs
      | .value form =>
        match cs with
        | [] => .ok (l, some (spec.name, form))
        | '=' :: value | value => do
          return (← l.giveValue spec.name form (String.ofList value), none)

/-- Goes through arguments; with `first` it stops at the first that is no option. -/
def scan (program : String) (specs : List OptionSpec) (first : Bool) (l : Level) :
    List String → Except Aside Level
  | [] => .ok l
  | arg :: args =>
    match arg.toList with
    | ['-', '-'] => if first then .error .usage else args.foldlM Level.setInput l
    | '-' :: '-' :: cs =>
      let (name, value) := splitEquals cs
      match specs.find? (·.name = name) with
      | none => .error .usage
      | some spec =>
        match spec.effect, value with
        | .help, none => .error .help
        | .version, none => .error (.version program)
        | .flag, none => do scan program specs first (← l.give { name }) args
        | .value form, some value => do
          scan program specs first (← l.giveValue name form value) args
        | .value form, none =>
          match args with
          | [] => .error .usage
          | value :: args =>
            if isValue value then do
              scan program specs first (← l.giveValue name form value) args
            else .error .usage
        | _, some _ => .error .usage
    | '-' :: c :: cs => do
      match ← cluster program specs l (c :: cs) with
      | (l, none) => scan program specs first l args
      | (l, some (name, form)) =>
        match args with
        | [] => .error .usage
        | value :: args =>
          if isValue value then
            scan program specs first (← l.giveValue name form value) args
          else .error .usage
    | _ =>
      if first then .ok { l with rest := arg :: args }
      else do scan program specs first (← l.setInput arg) args

def action (verb : Verb) (l : Level) : Except Aside Action := do
  let some input := l.input | .error .usage
  match verb with
  | .check => return .check input
  | .disasm => return .disasm input
  | .compile =>
    return .compile input (l.value? "output") ((l.value? "addressing").bind addressing?)
      (l.value? "module-name") (l.has "disasm")
  | .run => return .run input ((l.value? "max-steps").bind steps?)

def programName : String := "terrapin"

/-- The configuration of a level. Where it names none, `preset` does. -/
def configOf (preset : Option String) (l : Level) : Except Aside (Option String) :=
  let config := (l.value? "config").or preset
  if config.all Form.path.accepts then .ok config else .error .usage

/-- Reads a command line. What stands after the command wins over what stands before
it. -/
def parse (preset : Option String) (args : List String) : Except Aside Invocation := do
  let top ← scan programName common true {} args
  let word :: rest := top.rest | .error .usage
  if word = "help" then
    if rest.all fun w => (Verb.ofWord? w).isSome then .error .help else .error .usage
  let some verb := Verb.ofWord? word | .error .usage
  let level ← scan (programName ++ "-" ++ verb.name) (common ++ verb.options) false {} rest
  let inner ← configOf preset level
  let outer ← configOf preset top
  return {
    verbose := top.has "verbose" || level.has "verbose"
    quiet := top.has "quiet" || level.has "quiet"
    config := ((level.value? "config").or outer).or inner
    action := ← action verb level }

end Arguments

end TurtleScript
