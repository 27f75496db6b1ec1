import TurtleScript.Proofs.Text.Identifier
import TurtleScript.Tree.Program

/-!
# Trees without case

A tree is folded by folding the names of its variables, functions and calls. What names a type
is not a name in this sense, so the types of declarations stay as they are written.
-/
namespace TurtleScript

namespace Expr

mutual

/-- The tree with the names of variables, functions and calls folded. -/
def folded : Expr → Expr
  | constant l v => constant l v
  | binary l op a b => binary l op (folded a) (folded b)
  | var l name d => var l (foldName name) d
  | function l name ps b => function l (foldName name) (foldedList ps) (folded b)
  | block l b => block l (foldedList b)
  | cond l c t e => cond l (folded c) (folded t) (foldedOption e)
  | forLoop l i c s b =>
    forLoop l (foldedOption i) (foldedOption c) (foldedOption s) (folded b)
  | forTo l v s t d b => forTo l (folded v) (folded s) (folded t) d (folded b)
  | forIn l v it b => forIn l (folded v) (folded it) (folded b)
  | whileLoop l c b => whileLoop l (folded c) (folded b)
  | repeatUntil l b c => repeatUntil l (folded b) (folded c)
  | call l name as => call l (foldName name) (foldedList as)
  | ret l v => ret l (foldedOption v)
  | paren l e => paren l (folded e)
  | element l t i => element l (folded t) (foldedOption i)
  | array l es => array l (foldedList es)
termination_by structural e => e

def foldedList : List Expr → List Expr
  | [] => []
  | e :: es => folded e :: foldedList es
termination_by structural es => es

def foldedOption : Option Expr → Option Expr
  | none => none
  | some e => some (folded e)
termination_by structural e => e

end

variable (e : Expr)

@[simp] theorem label_folded : e.folded.label = e.label := by cases e <;> rfl

@[simp] theorem id_folded : e.folded.id = e.id := congrArg Label.id (label_folded e)

@[simp] theorem span_folded : e.folded.span = e.span := congrArg Label.span (label_folded e)

@[simp] theorem kindName_folded : e.folded.kindName = e.kindName := by cases e <;> rfl

@[simp] theorem isFunction_folded : e.folded.isFunction = e.isFunction := by cases e <;> rfl

theorem foldedList_eq (es : List Expr) : foldedList es = es.map folded := by
  induction es with
  | nil => rfl
  | cons e es ih => rw [foldedList, ih, List.map_cons]

theorem length_foldedList (es : List Expr) : (foldedList es).length = es.length := by
  rw [foldedList_eq, List.length_map]

end Expr

/-- The program with its names folded. -/
def Program.folded (p : Program) : Program := { p with body := p.body.folded }

end TurtleScript
