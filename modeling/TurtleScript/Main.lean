import TurtleScript.Command.Run

/-!
# The command line tool
-/
namespace TurtleScript.Main

/-- The variables of the environment, from the block the system keeps of it. -/
def environment : IO (List (String × String)) := do
  let block ← try IO.FS.readBinFile "/proc/self/environ" catch _ => pure ByteArray.empty
  let text := (String.fromUTF8? block).getD ""
  return (text.splitOn "\x00").filterMap fun entry =>
    match entry.splitOn "=" with
    | name :: value :: more => some (name, "=".intercalate (value :: more))
    | _ => none

/-- The kind of a failure that the system reports; its number may come negated. -/
def problemOf : IO.Error → FileProblem
  | .inappropriateType _ number _ =>
    if number = 20 || number = 0 - 20 then .notDirectory else .isDirectory
  | .permissionDenied .. => .denied
  | .invalidArgument .. => .nameTooLong
  | _ => .missing

/-- What can be read at a path. -/
def readPath (path : String) : IO (Except FileProblem (List UInt8)) := do
  try
    return .ok (← IO.FS.readBinFile path).toList
  catch e => return .error (problemOf e)

def inputOf : Action → String
  | .check input | .compile input _ _ _ _ | .disasm input | .run input _ => input

def finish (r : Command.Report) : IO UInt32 := do
  IO.print r.stdout
  IO.eprint r.stderr
  return r.exit.toUInt32

/-- Reads every file the command may ask for, decides, and does what was decided. -/
def start (args : List String) : IO UInt32 := do
  let env ← environment
  match Arguments.parse (env.lookup "TERRAPIN_CONFIG") args with
  | .error a => finish (Command.aside a)
  | .ok i =>
    let directory := (← IO.currentDir).toString
    let blind : FileView := { read := fun _ => .error .missing, isFile := fun _ => false }
    let here : Command.Surroundings := { directory, environment := env, files := blind }
    let paths := inputOf i.action :: (i.config.toList ++ Command.configPaths here)
    let found ← paths.mapM fun path => return (path, ← readPath path)
    let read (path : String) : Except FileProblem (List UInt8) :=
      (found.lookup path).getD (.error .missing)
    let isFile (path : String) : Bool := (read path).toBool
    match Command.perform { here with files := { read, isFile } } i with
    | .done r => finish r
    | .writing path bytes after =>
      try
        IO.FS.writeBinFile path ⟨bytes.toArray⟩
        finish (after none)
      catch e => finish (after (some (problemOf e)))

end TurtleScript.Main

def main (args : List String) : IO UInt32 := TurtleScript.Main.start args
