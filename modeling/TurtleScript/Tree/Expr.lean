import TurtleScript.Numeral.Double
import TurtleScript.Span

/-!
# Expressions

A program is a tree of sixteen kinds of node. Statements are expressions too: a
block evaluates to its last member. Each node carries its number and its source
range; later passes key what they learn by the number.
-/
namespace TurtleScript

/-- What every node carries. -/
structure Label where
  id : Nat := 0
  span : Span := {}
deriving DecidableEq, Repr, Inhabited

inductive Literal where
  | boolean (b : Bool)
  | number (d : Double)
  | string (s : String)
deriving DecidableEq, Repr

/-- Assignment is one of the operators. -/
inductive BinaryOp where
  | add | sub | mul | div | mod
  | less | greater | lessEqual | greaterEqual | equal
  | and | or | assign
deriving DecidableEq, Repr

namespace BinaryOp

def all : List BinaryOp :=
  [.add, .sub, .mul, .div, .mod, .less, .greater, .lessEqual, .greaterEqual, .equal, .and, .or,
    .assign]

def symbol : BinaryOp → String
  | .add => "+"
  | .sub => "-"
  | .mul => "*"
  | .div => "/"
  | .mod => "%"
  | .less => "<"
  | .greater => ">"
  | .lessEqual => "<="
  | .greaterEqual => ">="
  | .equal => "=="
  | .and => "and"
  | .or => "or"
  | .assign => "="

/-- The operator's name in a program document. -/
def name : BinaryOp → String
  | .add => "Add"
  | .sub => "Sub"
  | .mul => "Mul"
  | .div => "Div"
  | .mod => "Mod"
  | .less => "Less"
  | .greater => "Greater"
  | .lessEqual => "LessEqual"
  | .greaterEqual => "GreaterEqual"
  | .equal => "Equal"
  | .and => "And"
  | .or => "Or"
  | .assign => "Assign"

def ofName? (name : String) : Option BinaryOp := all.find? (·.name = name)

end BinaryOp

/-- Which way a counted loop goes. -/
inductive Direction where
  | up | down
deriving DecidableEq, Repr

namespace Direction

def name : Direction → String
  | .up => "Up"
  | .down => "Down"

def ofName? (name : String) : Option Direction := [up, down].find? (·.name = name)

end Direction

inductive Expr where
  | constant (label : Label) (value : Literal)
  | binary (label : Label) (op : BinaryOp) (left right : Expr)
  /-- A reference, or a declaration if there is a type after the name. -/
  | var (label : Label) (name : String) (declaration : Option Expr)
  | function (label : Label) (name : String) (params : List Expr) (body : Expr)
  | block (label : Label) (body : List Expr)
  | cond (label : Label) (condition thenBranch : Expr) (elseBranch : Option Expr)
  /-- `for (init; condition; step) body`; without a condition it goes on forever. -/
  | forLoop (label : Label) (init condition step : Option Expr) (body : Expr)
  /-- `for counter = start to bound body`, the bound included. -/
  | forTo (label : Label) (counter start bound : Expr) (direction : Direction) (body : Expr)
  | forIn (label : Label) (item iterable body : Expr)
  | whileLoop (label : Label) (condition body : Expr)
  | repeatUntil (label : Label) (body condition : Expr)
  | call (label : Label) (name : String) (args : List Expr)
  | ret (label : Label) (value : Option Expr)
  | paren (label : Label) (inner : Expr)
  /-- `target[index]`; the index is absent only where an array type is written. -/
  | element (label : Label) (target : Expr) (index : Option Expr)
  | array (label : Label) (elements : List Expr)
deriving Repr, Inhabited

namespace Expr

def label : Expr → Label
  | constant l _ | binary l _ _ _ | var l _ _ | function l _ _ _ | block l _ | cond l _ _ _
  | forLoop l _ _ _ _ | forTo l _ _ _ _ _ | forIn l _ _ _ | whileLoop l _ _
  | repeatUntil l _ _ | call l _ _ | ret l _ | paren l _ | element l _ _ | array l _ => l

def id (e : Expr) : Nat := e.label.id

def span (e : Expr) : Span := e.label.span

/-- Replaces the label of the root. -/
def withLabel (l : Label) : Expr → Expr
  | constant _ v => constant l v
  | binary _ op a b => binary l op a b
  | var _ n d => var l n d
  | function _ n ps b => function l n ps b
  | block _ b => block l b
  | cond _ c t e => cond l c t e
  | forLoop _ i c s b => forLoop l i c s b
  | forTo _ v s t d b => forTo l v s t d b
  | forIn _ v it b => forIn l v it b
  | whileLoop _ c b => whileLoop l c b
  | repeatUntil _ b c => repeatUntil l b c
  | call _ n as => call l n as
  | ret _ v => ret l v
  | paren _ e => paren l e
  | element _ t i => element l t i
  | array _ es => array l es

/-- Moves the root to another source range. -/
def spanning (e : Expr) (span : Span) : Expr := e.withLabel { e.label with span }

/-- The name of the node's kind, as documents and messages write it. -/
def kindName : Expr → String
  | constant .. => "Constant"
  | binary .. => "Binary"
  | var .. => "Variable"
  | function .. => "FunctionDeclaration"
  | block .. => "Scope"
  | cond .. => "If"
  | forLoop .. => "For"
  | forTo .. => "ForTo"
  | forIn .. => "ForIn"
  | whileLoop .. => "While"
  | repeatUntil .. => "Repeat"
  | call .. => "Invocation"
  | ret .. => "Return"
  | paren .. => "Parenthesized"
  | element .. => "ElementAccess"
  | array .. => "ArrayInitialization"

def isFunction : Expr → Bool
  | function .. => true
  | _ => false

/-- The direct children, in the order in which nodes are numbered. It is the order of evaluation,
but for the step of a `forLoop`, which stands before the body. -/
@[simp] def children : Expr → List Expr
  | constant .. => []
  | binary _ _ a b => [a, b]
  | var _ _ d => d.toList
  | function _ _ ps b => ps ++ [b]
  | block _ b => b
  | cond _ c t e => [c, t] ++ e.toList
  | forLoop _ i c s b => i.toList ++ c.toList ++ s.toList ++ [b]
  | forTo _ v s t _ b => [v, s, t, b]
  | forIn _ v it b => [v, it, b]
  | whileLoop _ c b => [c, b]
  | repeatUntil _ b c => [b, c]
  | call _ _ as => as
  | ret _ v => v.toList
  | paren _ e => [e]
  | element _ t i => t :: i.toList
  | array _ es => es

mutual

/-- The nodes of the tree in pre-order, each with its depth. -/
def walk (depth : Nat) : Expr → List (Nat × Expr)
  | e@(constant ..) => [(depth, e)]
  | e@(binary _ _ a b) => (depth, e) :: walk (depth + 1) a ++ walk (depth + 1) b
  | e@(var _ _ d) => (depth, e) :: walkOption (depth + 1) d
  | e@(function _ _ ps b) => (depth, e) :: walkList (depth + 1) ps ++ walk (depth + 1) b
  | e@(block _ b) => (depth, e) :: walkList (depth + 1) b
  | e@(cond _ c t f) =>
    (depth, e) :: walk (depth + 1) c ++ walk (depth + 1) t ++ walkOption (depth + 1) f
  | e@(forLoop _ i c s b) =>
    (depth, e) :: walkOption (depth + 1) i ++ walkOption (depth + 1) c ++
      walkOption (depth + 1) s ++ walk (depth + 1) b
  | e@(forTo _ v s t _ b) =>
    (depth, e) :: walk (depth + 1) v ++ walk (depth + 1) s ++ walk (depth + 1) t ++
      walk (depth + 1) b
  | e@(forIn _ v it b) =>
    (depth, e) :: walk (depth + 1) v ++ walk (depth + 1) it ++ walk (depth + 1) b
  | e@(whileLoop _ c b) => (depth, e) :: walk (depth + 1) c ++ walk (depth + 1) b
  | e@(repeatUntil _ b c) => (depth, e) :: walk (depth + 1) b ++ walk (depth + 1) c
  | e@(call _ _ as) => (depth, e) :: walkList (depth + 1) as
  | e@(ret _ v) => (depth, e) :: walkOption (depth + 1) v
  | e@(paren _ inner) => (depth, e) :: walk (depth + 1) inner
  | e@(element _ t i) => (depth, e) :: walk (depth + 1) t ++ walkOption (depth + 1) i
  | e@(array _ es) => (depth, e) :: walkList (depth + 1) es
termination_by structural e => e

def walkList (depth : Nat) : List Expr → List (Nat × Expr)
  | [] => []
  | e :: es => walk depth e ++ walkList depth es
termination_by structural es => es

def walkOption (depth : Nat) : Option Expr → List (Nat × Expr)
  | none => []
  | some e => walk depth e
termination_by structural e => e

end

end Expr

end TurtleScript
