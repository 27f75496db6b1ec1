import TurtleScript.Json.Reader
import TurtleScript.Tree.Program

/-!
# Program documents

A program is stored as a JSON document: an object whose `body` is the root node. A
node is an object with its `kind`, its `span` and the members of its kind, in any
order; members nobody asked for are ignored, members asked for may not be repeated.
`Expr.toJson` writes a node, `Expr.ofJson?` reads one, and `Program.read?` reads the
text of a document, which may nest 127 levels deep.
-/
namespace TurtleScript

namespace Expr

/-- How deep a document may nest. -/
def nestingLimit : Nat := 127

namespace Document

def spanJson (s : Span) : Json :=
  .object [("start", .number (.natural (UInt64.ofNat s.start))),
    ("end", .number (.natural (UInt64.ofNat s.stop)))]

/-- A number that is not finite has no form of its own. -/
def literalJson : Literal → Json
  | .boolean b => .bool b
  | .number d => if d.isFinite then .number (.double d) else .null
  | .string s => .string s

/-- A node from its kind, its label and the members of its kind. -/
def nodeJson (kind : String) (l : Label) (members : List (String × Json)) : Json :=
  .object (("kind", .string kind) :: ("span", spanJson l.span) :: members)

/-- A value as each of the things a member may hold. -/
structure Reading where
  value : Json
  node : Option Expr := none
  nodes : Option (List Expr) := none

abbrev Members := List (String × Reading)

/-- The reading of a key: `some none` if it is missing, `none` if it is repeated. -/
def find? (members : Members) (key : String) : Option (Option Reading) :=
  match members.filter (·.1 = key) with
  | [] => some none
  | [(_, r)] => some (some r)
  | _ => none

def required? (members : Members) (key : String) : Option Reading := do (← find? members key)

def node? (members : Members) (key : String) : Option Expr := do (← required? members key).node

def nodes? (members : Members) (key : String) : Option (List Expr) := do
  (← required? members key).nodes

def name? (members : Members) : Option String := do (← required? members "name").value.string?

/-- A member that may be missing or `null`. -/
def optional? (members : Members) (key : String) : Option (Option Expr) := do
  match ← find? members key with
  | none | some { value := .null, .. } => return none
  | some r => return some (← r.node)

/-- A span is an object with both ends, or the two ends in an array. -/
def spanOf? : Json → Option Span
  | .object members => do
    return ⟨← (← (← Json.member? "start" members)).natural?,
      ← (← (← Json.member? "end" members)).natural?⟩
  | .array [a, b] => do return ⟨← a.natural?, ← b.natural?⟩
  | _ => none

def literalOf? : Json → Option Literal
  | .bool b => some (.boolean b)
  | .number n => some (.number n.toDouble)
  | .string s => some (.string s)
  | _ => none

/-- One of a few names: the name itself, or an object with that one key and nothing
in it. -/
def nameOf? : Json → Option String
  | .string s => some s
  | .object [(s, .null)] | .object [(s, .object [])] => some s
  | _ => none

def kinds : List String :=
  ["Constant", "Binary", "Variable", "FunctionDeclaration", "Scope", "If", "For", "ForTo",
    "ForIn", "While", "Repeat", "Invocation", "Return", "Parenthesized", "ElementAccess",
    "ArrayInitialization"]

/-- A kind's name, or its place in the list of kinds. -/
def kindOf? : Json → Option String
  | .string s => some s
  | .number (.natural n) => kinds[n.toNat]?
  | _ => none

def labelOf? (members : Members) : Option Label := do
  match ← find? members "span" with
  | none => return {}
  | some r => return { span := ← spanOf? r.value }

/-- A node from the readings of its members. -/
def nodeOf? (ms : Members) : Option Expr := do
  let l ← labelOf? ms
  match ← kindOf? (← required? ms "kind").value with
  | "Constant" => return constant l (← literalOf? (← required? ms "value").value)
  | "Binary" =>
    let op ← BinaryOp.ofName? (← nameOf? (← required? ms "op").value)
    return binary l op (← node? ms "left") (← node? ms "right")
  | "Variable" => return var l (← name? ms) (← optional? ms "declaration")
  | "FunctionDeclaration" =>
    return function l (← name? ms) (← nodes? ms "params") (← node? ms "body")
  | "Scope" => return block l (← nodes? ms "body")
  | "If" =>
    return cond l (← node? ms "condition") (← node? ms "then_branch")
      (← optional? ms "else_branch")
  | "For" =>
    return forLoop l (← optional? ms "init") (← optional? ms "condition")
      (← optional? ms "step") (← node? ms "body")
  | "ForTo" =>
    let direction ← Direction.ofName? (← nameOf? (← required? ms "direction").value)
    return forTo l (← node? ms "variable") (← node? ms "from") (← node? ms "to") direction
      (← node? ms "body")
  | "ForIn" =>
    return forIn l (← node? ms "variable") (← node? ms "iterable") (← node? ms "body")
  | "While" => return whileLoop l (← node? ms "condition") (← node? ms "body")
  | "Repeat" => return repeatUntil l (← node? ms "body") (← node? ms "condition")
  | "Invocation" => return call l (← name? ms) (← nodes? ms "args")
  | "Return" => return ret l (← optional? ms "value")
  | "Parenthesized" => return paren l (← node? ms "inner")
  | "ElementAccess" => return element l (← node? ms "target") (← optional? ms "index")
  | "ArrayInitialization" => return array l (← nodes? ms "elements")
  | _ => none

mutual

def read : Json → Reading
  | .object members => { value := .object members, node := nodeOf? (readMembers members) }
  | .array items => { value := .array items, nodes := (readItems items).mapM (·.node) }
  | .null => { value := .null }
  | .bool b => { value := .bool b }
  | .number n => { value := .number n }
  | .string s => { value := .string s }
  | .unreadable => { value := .unreadable }
termination_by structural j => j

def readItems : List Json → List Reading
  | [] => []
  | j :: js => read j :: readItems js
termination_by structural js => js

def readMembers : List (String × Json) → Members
  | [] => []
  | (key, j) :: ms => (key, read j) :: readMembers ms
termination_by structural ms => ms

end

end Document

open Document in
mutual

/-- The document form of a node. Absent options are left out. -/
def toJson : Expr → Json
  | constant l v => nodeJson "Constant" l [("value", literalJson v)]
  | binary l op a b =>
    nodeJson "Binary" l [("op", .string op.name), ("left", toJson a), ("right", toJson b)]
  | var l name d =>
    nodeJson "Variable" l (("name", .string name) :: toJsonOption "declaration" d)
  | function l name ps b =>
    nodeJson "FunctionDeclaration" l
      [("name", .string name), ("params", .array (toJsonList ps)), ("body", toJson b)]
  | block l b => nodeJson "Scope" l [("body", .array (toJsonList b))]
  | cond l c t e =>
    nodeJson "If" l
      (("condition", toJson c) :: ("then_branch", toJson t) :: toJsonOption "else_branch" e)
  | forLoop l i c s b =>
    nodeJson "For" l
      (toJsonOption "init" i ++ toJsonOption "condition" c ++ toJsonOption "step" s ++
        [("body", toJson b)])
  | forTo l v s t d b =>
    nodeJson "ForTo" l
      [("variable", toJson v), ("from", toJson s), ("to", toJson t),
        ("direction", .string d.name), ("body", toJson b)]
  | forIn l v it b =>
    nodeJson "ForIn" l [("variable", toJson v), ("iterable", toJson it), ("body", toJson b)]
  | whileLoop l c b => nodeJson "While" l [("condition", toJson c), ("body", toJson b)]
  | repeatUntil l b c => nodeJson "Repeat" l [("body", toJson b), ("condition", toJson c)]
  | call l name as =>
    nodeJson "Invocation" l [("name", .string name), ("args", .array (toJsonList as))]
  | ret l v => nodeJson "Return" l (toJsonOption "value" v)
  | paren l e => nodeJson "Parenthesized" l [("inner", toJson e)]
  | element l t i => nodeJson "ElementAccess" l (("target", toJson t) :: toJsonOption "index" i)
  | array l es => nodeJson "ArrayInitialization" l [("elements", .array (toJsonList es))]
termination_by structural e => e

def toJsonList : List Expr → List Json
  | [] => []
  | e :: es => toJson e :: toJsonList es
termination_by structural es => es

def toJsonOption (key : String) : Option Expr → List (String × Json)
  | none => []
  | some e => [(key, toJson e)]
termination_by structural e => e

end

/-- Reads a node; its numbers are all zero. -/
def ofJson? (j : Json) : Option Expr := (Document.read j).node

end Expr

namespace Program

def toJson (p : Program) : Json := .object [("body", p.body.toJson)]

/-- The root node of a document: the one `body` of an object, or the one item of an
array. -/
def bodyOf? : Json → Option Json
  | .object members => do (← Json.member? "body" members)
  | .array [body] => some body
  | _ => none

/-- Whether a root node can be read at all. Two levels are taken by the document and
the root; ignored members of the root's own span are skipped unread. -/
def isReadableBody : Json → Bool
  | .object members =>
    members.all fun (key, value) => key = "span" || value.isReadable (Expr.nestingLimit - 2)
  | _ => false

def ofJson? (j : Json) : Option Program := do
  return .ofExpr (← Expr.ofJson? (← bodyOf? j))

/-- Reads the text of a program document. -/
def read? (text : String) : Option Program := do
  let j ← Json.parse? text
  guard (isReadableBody (← bodyOf? j))
  ofJson? j

end Program

end TurtleScript
