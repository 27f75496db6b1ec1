import TurtleScript.Tree.Expr

/-!
# Numbered programs

The nodes of a program are numbered from zero in pre-order, whatever numbers they
had before, so that a number names one node.
-/
namespace TurtleScript

namespace Expr

mutual

/-- Numbers the nodes from `next` on and gives the first number not used. -/
def renumber (next : Nat) : Expr → Expr × Nat
  | constant l v => (constant { l with id := next } v, next + 1)
  | binary l op a b =>
    let (a, n) := renumber (next + 1) a
    let (b, n) := renumber n b
    (binary { l with id := next } op a b, n)
  | var l name d =>
    let (d, n) := renumberOption (next + 1) d
    (var { l with id := next } name d, n)
  | function l name ps b =>
    let (ps, n) := renumberList (next + 1) ps
    let (b, n) := renumber n b
    (function { l with id := next } name ps b, n)
  | block l b =>
    let (b, n) := renumberList (next + 1) b
    (block { l with id := next } b, n)
  | cond l c t e =>
    let (c, n) := renumber (next + 1) c
    let (t, n) := renumber n t
    let (e, n) := renumberOption n e
    (cond { l with id := next } c t e, n)
  | forLoop l i c s b =>
    let (i, n) := renumberOption (next + 1) i
    let (c, n) := renumberOption n c
    let (s, n) := renumberOption n s
    let (b, n) := renumber n b
    (forLoop { l with id := next } i c s b, n)
  | forTo l v s t d b =>
    let (v, n) := renumber (next + 1) v
    let (s, n) := renumber n s
    let (t, n) := renumber n t
    let (b, n) := renumber n b
    (forTo { l with id := next } v s t d b, n)
  | forIn l v it b =>
    let (v, n) := renumber (next + 1) v
    let (it, n) := renumber n it
    let (b, n) := renumber n b
    (forIn { l with id := next } v it b, n)
  | whileLoop l c b =>
    let (c, n) := renumber (next + 1) c
    let (b, n) := renumber n b
    (whileLoop { l with id := next } c b, n)
  | repeatUntil l b c =>
    let (b, n) := renumber (next + 1) b
    let (c, n) := renumber n c
    (repeatUntil { l with id := next } b c, n)
  | call l name as =>
    let (as, n) := renumberList (next + 1) as
    (call { l with id := next } name as, n)
  | ret l v =>
    let (v, n) := renumberOption (next + 1) v
    (ret { l with id := next } v, n)
  | paren l e =>
    let (e, n) := renumber (next + 1) e
    (paren { l with id := next } e, n)
  | element l t i =>
    let (t, n) := renumber (next + 1) t
    let (i, n) := renumberOption n i
    (element { l with id := next } t i, n)
  | array l es =>
    let (es, n) := renumberList (next + 1) es
    (array { l with id := next } es, n)
termination_by structural e => e

def renumberList (next : Nat) : List Expr → List Expr × Nat
  | [] => ([], next)
  | e :: es =>
    let (e, n) := renumber next e
    let (es, n) := renumberList n es
    (e :: es, n)
termination_by structural es => es

def renumberOption (next : Nat) : Option Expr → Option Expr × Nat
  | none => (none, next)
  | some e =>
    let (e, n) := renumber next e
    (some e, n)
termination_by structural e => e

end

end Expr

/-- A tree whose nodes are numbered. -/
structure Program where
  body : Expr
  nodeCount : Nat
deriving Repr

/-- Numbers the nodes of `body`. -/
def Program.ofExpr (body : Expr) : Program :=
  let (body, nodeCount) := body.renumber 0
  { body, nodeCount }

end TurtleScript
