import TurtleScript.Scope.Tree
import TurtleScript.Text.Identifier
import TurtleScript.Tree.Program

/-!
# Building the scope tree

One walk over the program declares what the host brings, opens a scope for every
block, function and loop, and gives every local a slot. All problems are collected;
a declaration that is refused leaves the tree as it was.
-/
namespace TurtleScript

/-- The tree so far and the problems found, in order. -/
structure Building where
  tree : ScopeTree := {}
  problems : List Diagnostic := []
deriving DecidableEq, Repr

/-- The type a declaration names, if it is well formed: a keyword, or a keyword with
empty brackets. -/
def declaredType? : Expr → Option Ty
  | .var _ name none => Ty.ofKeyword? name
  | .element _ (.var _ name none) none => (Ty.ofKeyword? name).map .array
  | _ => none

/-- A parameter that is as it should be. -/
structure Parameter where
  name : String
  type : Ty
  span : Span

namespace Building

def report (b : Building) (p : ScopeProblem) (span : Span) : Building :=
  { b with problems := b.problems ++ [⟨.scope p, span⟩] }

/-- Takes over a changed tree, or reports why there is none. -/
def accept (b : Building) (span : Span) : Except ScopeProblem ScopeTree → Building
  | .ok tree => { b with tree }
  | .error p => b.report p span

def declareLocal (b : Building) (scope function : Nat) (name : String) (type : Option Ty)
    (span : Span) : Building :=
  b.accept span (Prod.snd <$> b.tree.declareLocal scope function name type span)

def declareHost (b : Building) (h : Host) : Building :=
  let b := h.globals.zipIdx.foldl (fun b (v, index) =>
    b.accept {} (Prod.snd <$> b.tree.declareVariable ScopeTree.root
      { name := v.name, type := some v.type, storage := .global index, span := {} })) b
  h.natives.zipIdx.foldl (fun b (n, index) =>
    b.accept {} (b.tree.declareOverload ScopeTree.root
      { name := n.name, params := n.params, callee := .native index })) b

/-- Opens the scope of a node. -/
def openScope (b : Building) (parent function node : Nat) : Nat × Building :=
  let (id, tree) := b.tree.pushScope parent function
  (id, { b with tree := tree.bindNode node id })

/-- A declaration with its type. -/
def declare (b : Building) (scope function : Nat) (name : String) (type : Expr) (span : Span) :
    Building :=
  if !Text.isIdentifier name then b.report (.invalidName .ofVariable name) span
  else
    match declaredType? type with
    | none => b.report (.malformedDeclaration name) type.span
    | some ty => b.declareLocal scope function name (some ty) span

/-- The variable of a loop: a declaration, a variable that is already there, or a
new local whose type is fixed later. -/
def declareLoopVariable (b : Building) (scope function : Nat) : Expr → Building
  | .var l name (some type) => b.declare scope function name type l.span
  | .var l name none =>
    if (b.tree.lookupVariable? scope name).isSome then b
    else if !Text.isIdentifier name then b.report (.invalidName .ofVariable name) l.span
    else b.declareLocal scope function name none l.span
  | e => b.report (.loopVariable e.kindName) e.span

/-- The hidden locals that hold the array of a loop and the position in it. -/
def declareLoopSlots (b : Building) (scope function : Nat) (l : Label) : Building :=
  let array := b.tree.declareLocal scope function s!"$array{l.id}" none l.span
  let tree := array.toOption.elim b.tree Prod.snd
  let index := tree.declareLocal scope function s!"$index{l.id}" (some .double) l.span
  let tree := index.toOption.elim tree Prod.snd
  match array, index with
  | .ok (array, _), .ok (index, _) =>
    { b with tree := tree.addLoop l.id ⟨array, index⟩ }
  | array, index =>
    ({ b with tree }.accept l.span (array.map fun _ => tree)).accept l.span
      (index.map fun _ => tree)

/-- What is wrong with a parameter of `function`, or what it declares. -/
def checkParameter (function : String) (position : Nat) :
    Expr → Except Diagnostic Parameter
  | .var l name (some type) =>
    match declaredType? type with
    | none => .error ⟨.scope (.malformedParameter name), type.span⟩
    | some ty =>
      if Text.isIdentifier name then .ok ⟨name, ty, l.span⟩
      else .error ⟨.scope (.invalidName .ofParameter name), l.span⟩
  | e => .error ⟨.scope (.untypedParameter position function), e.span⟩

/-- The parameters if all are good, otherwise every problem. -/
def checkParameters (function : String) (params : List Expr) :
    Except (List Diagnostic) (List Parameter) :=
  let checked := params.zipIdx.map fun (p, position) => checkParameter function position p
  match checked.filterMap fun | .error d => some d | .ok _ => none with
  | [] => .ok (checked.filterMap Except.toOption)
  | problems => .error problems

/-- Declares a function with its parameters and opens its scope, in which the body
is to be visited. Nothing is declared if the name or a parameter is bad. -/
def openFunction (b : Building) (scope : Nat) (l : Label) (name : String) (params : List Expr) :
    Option (Nat × Nat) × Building :=
  if !Text.isIdentifier name then (none, b.report (.invalidName .ofFunction name) l.span)
  else
    match checkParameters name params with
    | .error problems => (none, { b with problems := b.problems ++ problems })
    | .ok params =>
      let (id, tree) := b.tree.pushFunction name l.span
      let b := { b with tree := tree.addFunctionNode l.id id }
      let b := b.accept l.span (b.tree.declareOverload scope
        { name, params := params.map (·.type), callee := .script id })
      let (inner, b) := b.openScope scope id l.id
      let b := params.foldl (fun b p => b.declareLocal inner id p.name (some p.type) p.span) b
      (some (inner, id), { b with tree := b.tree.setParams id params.length })

mutual

/-- Declares everything below a node that stands in `scope` of `function`. -/
def visit (scope function : Nat) : Expr → Building → Building
  | .constant .., b => b
  | .var l name (some type), b => b.declare scope function name type l.span
  | .var _ _ none, b => b
  | .binary _ _ x y, b => visit scope function y (visit scope function x b)
  | .function l name params body, b =>
    match b.openFunction scope l name params with
    | (none, b) => b
    | (some (inner, id), b) => visit inner id body b
  | .block l body, b =>
    let (inner, b) := b.openScope scope function l.id
    visitList inner function body b
  | .cond _ c t e, b =>
    visitOption scope function e (visit scope function t (visit scope function c b))
  | .forLoop l init condition step body, b =>
    let (inner, b) := b.openScope scope function l.id
    let b := visitOption inner function init b
    let b := visitOption inner function condition b
    let b := visitOption inner function step b
    visit inner function body b
  | .forTo l counter start bound _ body, b =>
    let (inner, b) := b.openScope scope function l.id
    let b := b.declareLoopVariable inner function counter
    visit inner function body (visit inner function bound (visit inner function start b))
  | .forIn l item iterable body, b =>
    let (inner, b) := b.openScope scope function l.id
    let b := b.declareLoopVariable inner function item
    let b := b.declareLoopSlots inner function l
    visit inner function body (visit inner function iterable b)
  | .whileLoop _ c body, b => visit scope function body (visit scope function c b)
  | .repeatUntil _ body c, b => visit scope function c (visit scope function body b)
  | .call _ _ args, b => visitList scope function args b
  | .ret _ value, b => visitOption scope function value b
  | .paren _ inner, b => visit scope function inner b
  | .element _ target index, b =>
    visitOption scope function index (visit scope function target b)
  | .array _ elements, b => visitList scope function elements b
termination_by structural e => e

def visitList (scope function : Nat) : List Expr → Building → Building
  | [], b => b
  | e :: es, b => visitList scope function es (visit scope function e b)
termination_by structural es => es

def visitOption (scope function : Nat) : Option Expr → Building → Building
  | none, b => b
  | some e, b => visit scope function e b
termination_by structural e => e

end

end Building

namespace ScopeTree

/-- The tree of a program with the host's names at its root. A block at the top is
the program's scope itself and not one inside it. -/
def build (p : Program) (h : Host) : Building :=
  let b := ({} : Building).declareHost h
  let (main, tree) := b.tree.pushFunction "main" p.body.span
  let (program, tree) := (tree.setReturnType main .empty).pushScope root main
  let b := { b with tree := { tree with program } }
  match p.body with
  | .block l body =>
    Building.visitList program main body { b with tree := b.tree.bindNode l.id program }
  | body => Building.visit program main body b

end ScopeTree

end TurtleScript
