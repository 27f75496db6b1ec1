import Mathlib.Algebra.Group.Nat.Defs
import TurtleScript.Proofs.Tree.Preorder
import TurtleScript.Tree.Document

/-!
# Programs through their documents

A document holds everything of a tree but its numbers. So reading what was written gives the tree
without numbers, and numbering it gives the program again. Numbers that are not finite have no
form in a document, and the ends of a source range have 64 bits.
-/
namespace TurtleScript

theorem BinaryOp.ofName?_name (op : BinaryOp) : ofName? op.name = some op := by
  cases op <;> decide

theorem Direction.ofName?_name (d : Direction) : ofName? d.name = some d := by
  cases d <;> decide

namespace Expr

/-- The number that a literal stands for. -/
def number? : Expr → Option Double
  | constant _ (.number d) => some d
  | _ => none

/-- A node that a document can hold. -/
def Storable (e : Expr) : Prop :=
  e.span.start < 2 ^ 64 ∧ e.span.stop < 2 ^ 64 ∧ ∀ d ∈ e.number?, d.isFinite

instance : DecidablePred Storable := fun e =>
  inferInstanceAs (Decidable (e.span.start < 2 ^ 64 ∧ e.span.stop < 2 ^ 64 ∧ _))

theorem storable_unnumbered {e : Expr} : e.unnumbered.Storable ↔ e.Storable := by
  have hnumber : e.unnumbered.number? = e.number? := by
    cases e with
    | constant _ v => cases v <;> rfl
    | _ => rfl
  rw [Storable, Storable, hnumber, unnumbered, span_relabel]

namespace Document

theorem spanOf?_spanJson {s : Span} (hstart : s.start < 2 ^ 64) (hstop : s.stop < 2 ^ 64) :
    spanOf? (spanJson s) = some s := by
  have hread : spanOf? (spanJson s) =
      some ⟨(UInt64.ofNat s.start).toNat, (UInt64.ofNat s.stop).toNat⟩ := rfl
  rw [hread, UInt64.toNat_ofNat_of_lt' hstart, UInt64.toNat_ofNat_of_lt' hstop]

theorem literalOf?_literalJson {l : Label} {v : Literal} (h : (constant l v).Storable) :
    literalOf? (literalJson v) = some v := by
  cases v with
  | number d => simp [literalJson, h.2.2 d rfl, literalOf?, Json.Number.toDouble]
  | _ => rfl

@[simp] theorem value_read (j : Json) : (Document.read j).value = j := by cases j <;> rfl

section Members

variable {ms : Members} {key other : String} {r : Reading} {o : Option Expr}

@[simp] theorem find?_nil : find? [] key = some none := by simp [find?]

@[simp] theorem find?_cons_ne (h : other ≠ key) : find? ((other, r) :: ms) key = find? ms key := by
  rw [find?, List.filter_cons_of_neg (by simpa using h), find?]

@[simp] theorem find?_cons_self (h : find? ms key = some none) :
    find? ((key, r) :: ms) key = some (some r) := by
  have hnone : ms.filter (·.1 = key) = [] := by
    rw [find?] at h
    split at h
    · assumption
    · cases h
    · cases h
  rw [find?, List.filter_cons_of_pos (by simp), hnone]

@[simp] theorem readMembers_append (xs ys : List (String × Json)) :
    readMembers (xs ++ ys) = readMembers xs ++ readMembers ys := by
  induction xs with
  | nil => rfl
  | cons x xs ih => rw [List.cons_append, readMembers, ih, readMembers, List.cons_append]

@[simp] theorem find?_option_ne (h : other ≠ key) :
    find? (readMembers (toJsonOption other o) ++ ms) key = find? ms key := by
  cases o with
  | none => rfl
  | some x => exact find?_cons_ne h

@[simp] theorem find?_option_self (h : find? ms key = some none) :
    find? (readMembers (toJsonOption key o) ++ ms) key =
      some (o.map fun x => Document.read x.toJson) := by
  cases o with
  | none => exact h
  | some x => exact find?_cons_self h

@[simp] theorem find?_last_ne (h : other ≠ key) :
    find? (readMembers (toJsonOption other o)) key = some none := by
  rw [← List.append_nil (readMembers _), find?_option_ne h, find?_nil]

@[simp] theorem find?_last_self : find? (readMembers (toJsonOption key o)) key =
    some (o.map fun x => Document.read x.toJson) := by
  rw [← List.append_nil (readMembers _), find?_option_self find?_nil]

/-- What an optional member is read as. -/
def optionalOf : Option Reading → Option (Option Expr)
  | none | some { value := .null, .. } => some none
  | some r => r.node.bind fun e => some (some e)

theorem optional?_eq (ms : Members) (key : String) :
    optional? ms key = (find? ms key).bind optionalOf := by
  rw [optional?]
  match find? ms key with
  | none | some none => rfl
  | some (some ⟨value, _, _⟩) => cases value <;> rfl

end Members

theorem exists_object (e : Expr) : ∃ members, e.toJson = .object members := by
  cases e <;> exact ⟨_, rfl⟩

/-- What is written of `e` is read without its numbers. -/
abbrev Returns (e : Expr) : Prop := (Document.read e.toJson).node = some e.unnumbered

theorem optionalOf_map {o : Option Expr} (h : ∀ x ∈ o, Returns x) :
    optionalOf (o.map fun x => Document.read x.toJson) = some (o.map unnumbered) := by
  cases o with
  | none => rfl
  | some x =>
    obtain ⟨members, hj⟩ := exists_object x
    have hx : Returns x := h x rfl
    rw [Returns, hj] at hx
    rw [Option.map_some, hj]
    exact congrArg (Option.bind · fun e => some (some e)) hx

theorem mapM_readItems {es : List Expr} (h : ∀ x ∈ es, Returns x) :
    (readItems (toJsonList es)).mapM (·.node) = some (es.map unnumbered) := by
  induction es with
  | nil => rfl
  | cons x es ih =>
    obtain ⟨hx, hes⟩ := List.forall_mem_cons.mp h
    simp [toJsonList, readItems, hx, ih hes]

theorem unnumbered_eq : unnumbered = relabel fun _ => 0 := rfl

attribute [local simp] toJson nodeJson Document.read readMembers nodeOf? labelOf? required? node? nodes?
  name? optional?_eq kindOf? nameOf? Json.string? unnumbered_eq relabel

/-- A node comes back if its children do. -/
theorem returns_of_children {e : Expr} (h : e.Storable) (hc : ∀ x ∈ e.children, Returns x) :
    Returns e := by
  have hspan {l : Label} (hl : e.label = l) : spanOf? (spanJson l.span) = some l.span :=
    hl ▸ spanOf?_spanJson h.1 h.2.1
  rw [Returns]
  cases e <;>
    simp only [children, List.forall_mem_append, List.forall_mem_cons, List.not_mem_nil,
      false_imp_iff, implies_true, and_true, Option.mem_toList] at hc
  case constant l v => simp [hspan (l := l) rfl, literalOf?_literalJson h]
  case binary l _ _ _ => simp [hspan (l := l) rfl, BinaryOp.ofName?_name, hc]
  case forTo l _ _ _ _ _ => simp [hspan (l := l) rfl, Direction.ofName?_name, hc]
  case forIn l _ _ _ | whileLoop l _ _ | repeatUntil l _ _ | paren l _ =>
    simp [hspan (l := l) rfl, hc]
  case function l _ _ _ => simp [hspan (l := l) rfl, mapM_readItems hc.1, hc.2]
  case block l _ | call l _ _ | array l _ => simp [hspan (l := l) rfl, mapM_readItems hc]
  case var l _ _ | ret l _ => simp [hspan (l := l) rfl, optionalOf_map hc]
  case cond l _ _ _ | element l _ _ => simp [hspan (l := l) rfl, hc.1, optionalOf_map hc.2]
  case forLoop l _ _ _ _ =>
    simp [hspan (l := l) rfl, optionalOf_map hc.1.1.1, optionalOf_map hc.1.1.2, optionalOf_map hc.1.2,
      hc.2]

end Document

theorem ofJson?_of_storable (e : Expr) (h : ∀ f ∈ e.nodes, f.Storable) :
    ofJson? e.toJson = some e.unnumbered := by
  induction e using children_induction with
  | step e ih =>
    refine Document.returns_of_children (h e (mem_nodes_self e)) fun x hx => ?_
    exact ih x hx fun f hf => h f (mem_nodes_child hx hf)

theorem storable_of_unnumbered {e e' : Expr} (hsame : e.unnumbered = e'.unnumbered)
    (h : ∀ f ∈ e'.nodes, f.Storable) : ∀ f ∈ e.nodes, f.Storable := by
  intro f hf
  have hmem : f.unnumbered ∈ e'.unnumbered.nodes := hsame ▸ mem_nodes_relabel.mpr ⟨f, hf, rfl⟩
  obtain ⟨g, hg, hgf⟩ := mem_nodes_relabel.mp hmem
  rw [← storable_unnumbered, ← hgf]
  exact storable_unnumbered.mpr (h g hg)

end Expr

/-- A program is what its document is read as, to every bit of its literals. -/
theorem Program.ofJson?_toJson (e : Expr) (h : ∀ f ∈ e.preorder, f.Storable) :
    ofJson? (ofExpr e).toJson = some (ofExpr e) := by
  have hsame : (ofExpr e).body.unnumbered = e.unnumbered := Expr.unnumbered_renumber 0 e
  rw [Expr.preorder_eq_nodes] at h
  have hread := Expr.ofJson?_of_storable _ (Expr.storable_of_unnumbered hsame h)
  have hbody : bodyOf? (ofExpr e).toJson = some (ofExpr e).body.toJson := by
    simp [bodyOf?, Program.toJson, Json.member?]
  rw [Program.ofJson?, hbody]
  simp only [Option.bind_eq_bind, Option.bind_some, hread, Option.pure_def, Option.some.injEq]
  exact ofExpr_congr ((Expr.unnumbered_relabel _ _).trans hsame)

/-- A loop without a condition, a literal that is the negative zero, and a range that ends at the
last position there is. -/
def Expr.unending : Expr :=
  block { id := 7, span := ⟨0, 2 ^ 64 - 1⟩ }
    [forLoop {} (some (binary {} .assign (var {} "x" (some (var {} "number" none)))
        (constant { id := 7 } (.number ⟨0x8000000000000000⟩)))) none none (ret {} none),
      element {} (array {} [constant {} (.string "a")]) none]

theorem Program.ofJson?_toJson_unending :
    (∀ f ∈ Expr.unending.preorder, f.Storable) ∧
      ofJson? (ofExpr Expr.unending).toJson = some (ofExpr Expr.unending) := by
  have h : ∀ f ∈ Expr.unending.preorder, f.Storable := by
    rw [Expr.preorder_eq_nodes]
    decide
  exact ⟨h, ofJson?_toJson Expr.unending h⟩

end TurtleScript
