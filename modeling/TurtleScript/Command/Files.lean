import TurtleScript.Text.Utf8

/-!
# Files

What a command can learn about a file, and a small tree of files that can stand in for
those of the system: the files and folders it has, each with the names that lead to it
from the root, and the directory that relative paths start from. Whatever leads to one
of them is a directory, and the root is its own parent.
-/
namespace TurtleScript

/-- Why a file cannot be read or written. -/
inductive FileProblem where
  | missing | denied | notDirectory | isDirectory | nameTooLong | notText
deriving DecidableEq, Repr

def FileProblem.message : FileProblem → String
  | .missing => "No such file or directory (os error 2)"
  | .denied => "Permission denied (os error 13)"
  | .notDirectory => "Not a directory (os error 20)"
  | .isDirectory => "Is a directory (os error 21)"
  | .nameTooLong => "File name too long (os error 36)"
  | .notText => "stream did not contain valid UTF-8"

/-- The longest name in a directory, in bytes. -/
def maxNameLength : Nat := 255

/-- The longest path, in bytes. -/
def maxPathLength : Nat := 4095

/-- The names of a path between its slashes. -/
def pathNames (path : String) : List String :=
  (path.toList.foldr (fun c names =>
    if c = '/' then [] :: names
    else
      match names with
      | name :: rest => (c :: name) :: rest
      | [] => [[c]]) [[]]).map String.ofList

/-- The files a command sees. -/
structure FileView where
  read : String → Except FileProblem (List UInt8)
  isFile : String → Bool

/-- The text of a file. -/
def FileView.readText (v : FileView) (path : String) : Except FileProblem String := do
  match Text.Utf8.decode (← v.read path) with
  | .ok text => .ok text
  | .error _ => .error .notText

/-- The path of `name` in a directory. -/
def joinPath (directory name : String) : String :=
  if directory.endsWith "/" then directory ++ name else directory ++ "/" ++ name

structure FileTree where
  /-- The names that lead from the root to the directory that relative paths start from. -/
  directory : List String
  files : List (List String × List UInt8)
  /-- Directories that need not lead to any file. -/
  folders : List (List String) := []

namespace FileTree

/-- What stands at some names from the root on. -/
inductive Node where
  | file (bytes : List UInt8)
  | directory

def node? (t : FileTree) (names : List String) : Option Node :=
  match t.files.lookup names with
  | some bytes => some (.file bytes)
  | none =>
    let leads := t.files.any (names.isPrefixOf ·.1) ||
      (t.directory :: t.folders).any names.isPrefixOf
    if leads then some .directory else none

/-- Follows names from `here`; a name is only looked up in a directory. -/
def walk (t : FileTree) (here : List String) : List String → Except FileProblem (List String)
  | [] => .ok here
  | name :: rest =>
    match t.node? here with
    | none => .error .missing
    | some (.file _) => .error .notDirectory
    | some .directory =>
      if name = "" || name = "." then t.walk here rest
      else if name = ".." then t.walk here.dropLast rest
      else if maxNameLength < name.utf8ByteSize then .error .nameTooLong
      else t.walk (here ++ [name]) rest

/-- Where a path starts. -/
def origin (t : FileTree) (path : String) : Except FileProblem (List String) :=
  if path = "" then .error .missing
  else if maxPathLength < path.utf8ByteSize then .error .nameTooLong
  else .ok (if path.startsWith "/" then [] else t.directory)

/-- The names at which a path arrives. -/
def locate (t : FileTree) (path : String) : Except FileProblem (List String) := do
  t.walk (← t.origin path) (pathNames path)

def read (t : FileTree) (path : String) : Except FileProblem (List UInt8) := do
  match t.node? (← t.locate path) with
  | some (.file bytes) => .ok bytes
  | some .directory => .error .isDirectory
  | none => .error .missing

def isFile (t : FileTree) (path : String) : Bool :=
  match t.read path with
  | .ok _ => true
  | .error _ => false

def view (t : FileTree) : FileView := { read := t.read, isFile := t.isFile }

/-- The names under which a file that is written to `path` is found. A path that ends
with a slash can only be a directory. -/
def writePlace (t : FileTree) (path : String) : Except FileProblem (List String) := do
  let names := ((pathNames path).reverse.dropWhile (· = "")).reverse
  let parent ← t.walk (← t.origin path) names.dropLast
  match t.node? parent with
  | none => .error .missing
  | some (.file _) => .error .notDirectory
  | some .directory =>
    if path.endsWith "/" then .error .isDirectory
    else
      let place ← t.walk parent names.getLast?.toList
      match t.node? place with
      | some .directory => .error .isDirectory
      | _ => .ok place

end FileTree

end TurtleScript
