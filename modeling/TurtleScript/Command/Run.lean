import TurtleScript.Bytecode.Listing
import TurtleScript.Command.Arguments
import TurtleScript.Command.Files
import TurtleScript.Compile
import TurtleScript.Image.Reader
import TurtleScript.Image.Writer
import TurtleScript.Tree.Document
import TurtleScript.Turtle

/-!
# Commands

What a command prints, which file it writes and how it ends, given the files it can
read. Settings come from the configuration document, then from the environment, then
from the options of the command.
-/
namespace TurtleScript.Command

/-- Why a command failed. -/
inductive Failure where
  | file (path : String) (problem : FileProblem)
  /-- The file is no program document. -/
  | program (path : String)
  /-- The file is no configuration document. -/
  | configuration (path : String)
  | settings (problem : SettingsProblem)
  | diagnostic (path : String) (d : Diagnostic)
  | runtime (fault : Fault)
  /-- The machine gave up. -/
  | crash
deriving DecidableEq, Repr

namespace Failure

def exitCode : Failure → UInt8
  | .diagnostic _ _ => 1
  | .runtime _ => 3
  | _ => 2

/-- What was wrong, without the failure it led to. -/
def source? : Failure → Option String
  | .file _ problem => some problem.message
  | .program _ => some "the document cannot be read"
  | .configuration _ => some "the document cannot be read"
  | .runtime fault => some fault.message
  | _ => none

def message : Failure → String
  | .file path problem => path ++ ": " ++ problem.message
  | .program path => path ++ ": invalid program: the document cannot be read"
  | .configuration path => path ++ ": invalid configuration: the document cannot be read"
  | .settings problem => problem.message
  | .diagnostic path d => path ++ ": " ++ d.text
  | .runtime fault => "Runtime error: " ++ fault.message
  | .crash => "Task failed: the machine gave up"

/-- The message, and behind it once more its source. -/
def text (f : Failure) : String := f.message ++ f.source?.elim "" (": " ++ ·)

end Failure

/-- What a finished command leaves. -/
structure Report where
  exit : UInt8 := 0
  stdout : String := ""
  stderr : String := ""
deriving DecidableEq, Repr

/-- A command is done, or it still has a file to write and ends by how that goes. -/
inductive Outcome where
  | done (r : Report)
  | writing (path : String) (bytes : List UInt8) (after : Option FileProblem → Report)

def styled (start stop s : String) : String := start ++ s ++ stop

def boldGreen : String → String := styled "\x1b[1m\x1b[32m" "\x1b[39m\x1b[0m"

def boldRed : String → String := styled "\x1b[1m\x1b[31m" "\x1b[39m\x1b[0m"

def cyan : String → String := styled "\x1b[36m" "\x1b[39m"

def dim : String → String := styled "\x1b[2m" "\x1b[0m"

/-- The end of a command that failed after printing `stdout`. -/
def failed (f : Failure) (stdout : String) : Report where
  exit := f.exitCode
  stdout := stdout
  stderr := boldRed "Error" ++ ": " ++ f.text ++ "\n"

/-- Where a command runs. -/
structure Surroundings where
  directory : String
  /-- The variables of the environment, in order. -/
  environment : List (String × String)
  files : FileView

/-- The user's directory for configuration documents. -/
def userConfig? (w : Surroundings) : Option String :=
  match (w.environment.lookup "XDG_CONFIG_HOME").filter (·.startsWith "/") with
  | some dir => some dir
  | none => ((w.environment.lookup "HOME").filter (· ≠ "")).map (joinPath · ".config")

/-- The configuration documents that are looked for, the first wins. -/
def configPaths (w : Surroundings) : List String :=
  joinPath w.directory "terrapin.toml" ::
    ((userConfig? w).map (joinPath · "terrapin/terrapin.toml")).toList

def readFile {α : Type} (path : String) (read : String → Except FileProblem α) : Except Failure α :=
  match read path with
  | .ok a => .ok a
  | .error problem => .error (.file path problem)

def settingsOf (w : Surroundings) (path : String) : Except Failure Settings := do
  match Settings.ofToml? (← readFile path w.files.readText) with
  | some s => .ok s
  | none => .error (.configuration path)

def loadSettings (w : Surroundings) (config : Option String) : Except Failure Settings := do
  let s ← match config.or ((configPaths w).find? w.files.isFile) with
    | some path => settingsOf w path
    | none => .ok {}
  match s.applyEnvironment w.environment with
  | (s, none) => .ok s
  | (_, some problem) => .error (.settings problem)

def orDiagnostic {α : Type} (path : String) : Except Diagnostic α → Except Failure α
  | .ok a => .ok a
  | .error d => .error (.diagnostic path d)

/-- Compiles the program document at `path` for a turtle. -/
def compileFile (w : Surroundings) (o : Options) (path : String) : Except Failure Compiled := do
  match Program.read? (← readFile path w.files.readText) with
  | some p => orDiagnostic path (p.compile .turtle o false)
  | none => .error (.program path)

/-- The module in a binary file, or that of a program document. -/
def moduleFrom (w : Surroundings) (o : Options) (path : String) : Except Failure Module := do
  let bytes ← readFile path w.files.read
  if Image.magic.isPrefixOf bytes then orDiagnostic path (Module.ofBytes bytes)
  else return (← compileFile w o path).module

def check (w : Surroundings) (s : Settings) (quiet : Bool) (input : String) :
    Except Failure Report := do
  let c ← compileFile w s.options input
  let line := boldGreen "ok" ++ " " ++ input ++ " " ++ dim ("(" ++ c.programType.text ++ ")") ++ "\n"
  return { stdout := if quiet then "" else line }

def disasm (w : Surroundings) (s : Settings) (input : String) : Except Failure Report := do
  return { stdout := (← moduleFrom w s.options input).listing }

/-- The last name of a path without its extension, and what stands before it; `none` if
the path ends with no name. -/
def stem? (path : String) : Option (List Char × List Char) :=
  let rec trimEnd : List Char → List Char
    | '/' :: rest => trimEnd rest
    | '.' :: '/' :: rest => trimEnd rest
    | rest => rest
  let reversed := trimEnd path.toList.reverse
  let name := (reversed.takeWhile (· ≠ '/')).reverse
  let front := (reversed.dropWhile (· ≠ '/')).reverse
  if name = [] || name = ['.'] || name = ['.', '.'] then none
  else
    let before := (name.reverse.dropWhile (· ≠ '.')).drop 1
    -- a leading point is part of the name
    some (front, if before = [] then name else before.reverse)

/-- Where a module goes if nobody says: beside the input, with its own extension. -/
def defaultOutput (input : String) : String :=
  match stem? input with
  | some (front, stem) => String.ofList (front ++ stem) ++ ".tbc"
  | none => input

def compile (w : Surroundings) (o : Options) (quiet : Bool) (input : String)
    (output : Option String) (listing : Bool) : Except Failure Outcome := do
  let c ← compileFile w o input
  let bytes ← orDiagnostic input (c.module.toBytes o.addressing)
  let path := output.getD (defaultOutput input)
  let summary := s!"({bytes.length} bytes, {c.module.functions.size} functions)"
  let line := boldGreen "Compiled" ++ " " ++ cyan path ++ " " ++ dim summary ++ "\n"
  return .writing path bytes fun
    | some problem => failed (.file path problem) ""
    | none =>
      { stdout := (if listing then c.module.listing else "") ++ (if quiet then "" else line) }

/-- The closing line of a run. -/
def doneLine (t : Turtle) (steps : Nat) : String :=
  boldGreen "Done" ++ s!" {t.segments.size} segments, length " ++ t.distance.fixedText 2 ++
    ", turtle at (" ++ t.x.fixedText 2 ++ ", " ++ t.y.fixedText 2 ++ ") " ++
    dim s!"[{steps} steps]" ++ "\n"

/-- Lines, each with its end. -/
def lines (ls : List String) : String := String.join (ls.map (· ++ "\n"))

def run (w : Surroundings) (s : Settings) (quiet : Bool) (input : String) :
    Except Failure Report := do
  let m ← moduleFrom w s.options input
  let (globals, heap) := Turtle.startGlobals .turtle {}
  let machine : Machine Turtle := { module := m, natives := Turtle.natives.toArray }
  let (ending, last) := machine.run s.maxSteps.toNat globals heap {}
  let echo := if quiet then "" else lines last.host.printed.toList
  match ending with
  | .stopped (.fault f) => return failed (.runtime f) echo
  | .stopped .crash => return failed .crash echo
  | .finished steps value =>
    let shown := value.map fun v => (last.heap.text? v).getD ""
    return {
      stdout := echo ++ lines shown.toList
      stderr := if quiet then "" else doneLine last.host steps }

/-- The options of a compilation after those of the command line. -/
def overridden (o : Options) (addressing : Option Addressing) (moduleName : Option String) :
    Options :=
  { o with
    addressing := addressing.getD o.addressing
    moduleName := moduleName.getD o.moduleName }

def performAction (w : Surroundings) (i : Invocation) : Except Failure Outcome := do
  let s ← loadSettings w i.config
  match i.action with
  | .check input => return .done (← check w s i.quiet input)
  | .disasm input => return .done (← disasm w s input)
  | .compile input output addressing moduleName listing =>
    compile w (overridden s.options addressing moduleName) i.quiet input output listing
  | .run input maxSteps =>
    let s := { s with maxSteps := maxSteps.getD s.maxSteps }
    return .done (← run w s i.quiet input)

def banner : String := "\x1b[1m\x1b[96mterrapin\x1b[39m\x1b[0m " ++ dim "v0.1.0" ++ "\n"

/-- Puts the banner before what is written about an action. -/
def Report.withBanner (verbose : Bool) (r : Report) : Report :=
  if verbose then { r with stderr := banner ++ r.stderr } else r

def perform (w : Surroundings) (i : Invocation) : Outcome :=
  match performAction w i with
  | .ok (.done r) => .done (r.withBanner i.verbose)
  | .ok (.writing path bytes after) =>
    .writing path bytes fun problem => (after problem).withBanner i.verbose
  | .error f => .done ((failed f "").withBanner i.verbose)

def usageText : String :=
  lines ["Usage: terrapin [OPTIONS] <COMMAND>", "", "Commands:",
    "  check    Type-check a program without writing anything",
    "  compile  Compile a program to a binary module",
    "  disasm   Print a binary module in readable form",
    "  run      Run a program or a binary module with the turtle host"]

/-- What is printed when no action was asked for. -/
def aside : Aside → Report
  | .version program => { stdout := program ++ " 0.1.0\n" }
  | .help => { stdout := usageText }
  | .usage => { exit := 2, stderr := usageText }

end TurtleScript.Command
