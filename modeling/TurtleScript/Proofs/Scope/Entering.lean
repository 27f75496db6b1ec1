import TurtleScript.Proofs.Scope.Building

/-!
# The builder at a node

At every node the builder first enters it: it declares what the node itself declares and opens
the scope in which the nodes below stand. Then it goes on to the children that may declare
something more. Whatever entering a node keeps, with or without problems, is kept by the whole
walk.
-/
namespace TurtleScript

/-- The children that the builder goes on to. Types, parameters and the variables of loops are
read where they stand. -/
def Expr.visited : Expr → List Expr
  | .var .. => []
  | .function _ _ _ body => [body]
  | .forTo _ _ start bound _ body => [start, bound, body]
  | .forIn _ _ iterable body => [iterable, body]
  | e => e.children

theorem Expr.visited_subset {e : Expr} : e.visited ⊆ e.children := by
  intro x hx
  cases e with
  | var => cases hx
  | function | forTo | forIn => simp_all [visited, children]
  | _ => exact hx

namespace Building

variable {scope function : Nat} {b : Building} {e : Expr} {es : List Expr}

/-- Declares what a node declares, without the nodes below. Gives the scope and the function in
which these stand, or nothing if they are left out. -/
def enter (scope function : Nat) (b : Building) : Expr → Option (Nat × Nat) × Building
  | .var l name (some type) => (some (scope, function), b.declare scope function name type l.span)
  | .function l name params _ => b.openFunction scope l name params
  | .block l _ =>
    let (inner, b) := b.openScope scope function l.id
    (some (inner, function), b)
  | .forLoop l .. =>
    let (inner, b) := b.openScope scope function l.id
    (some (inner, function), b)
  | .forTo l counter .. =>
    let (inner, b) := b.openScope scope function l.id
    (some (inner, function), b.declareLoopVariable inner function counter)
  | .forIn l item .. =>
    let (inner, b) := b.openScope scope function l.id
    let b := b.declareLoopVariable inner function item
    (some (inner, function), b.declareLoopSlots inner function l)
  | _ => (some (scope, function), b)

/-- The walk below a node that has been entered. -/
def visitBelow (es : List Expr) : Option (Nat × Nat) × Building → Building
  | (none, b) => b
  | (some (inner, id), b) => visitList inner id es b

/-- The builder enters a node and then goes on to the nodes below. -/
theorem visit_eq (scope function : Nat) (e : Expr) (b : Building) :
    visit scope function e b = visitBelow e.visited (b.enter scope function e) := by
  cases e with
  | var l name type => cases type <;> rfl
  | function l name params body =>
    simp only [visit, enter, Expr.visited]
    cases b.openFunction scope l name params with
    | mk opened b => cases opened <;> rfl
  | cond l c t e =>
    simp only [visit, enter, Expr.visited, Expr.children, visitBelow, visitList_append,
      visitOption_eq]
    rfl
  | forLoop l init condition step body =>
    simp only [visit, enter, Expr.visited, Expr.children, visitBelow, visitList_append,
      visitOption_eq]
    rfl
  | element l target index =>
    simp only [visit, enter, Expr.visited, Expr.children, visitBelow, visitList, visitOption_eq]
  | ret l value => simp only [visit, enter, Expr.visited, Expr.children, visitBelow, visitOption_eq]
  | _ => rfl

section Preserves

variable {P : Building → Prop}

theorem visitList_preserves (h : ∀ e ∈ es, ∀ b, P b → P (visit scope function e b)) (hb : P b) :
    P (visitList scope function es b) := by
  induction es generalizing b with
  | nil => exact hb
  | cons e es ih =>
    obtain ⟨he, hes⟩ := List.forall_mem_cons.mp h
    exact ih hes (he b hb)

/-- What entering a node keeps is kept by the walk over a tree. -/
theorem visit_preserves (henter : ∀ scope function e b, P b → P (enter scope function b e).2)
    (e : Expr) (scope function : Nat) (hb : P b) : P (visit scope function e b) := by
  induction e using Expr.children_induction generalizing scope function b with
  | step e ih =>
    rw [visit_eq]
    have hentered := henter scope function e b hb
    cases hopened : enter scope function b e with
    | mk opened b' =>
      rw [hopened] at hentered
      cases opened with
      | none => exact hentered
      | some place =>
        exact visitList_preserves
          (fun x hx b hb => ih x (Expr.visited_subset hx) place.1 place.2 hb) hentered

end Preserves

end Building

end TurtleScript
