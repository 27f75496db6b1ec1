import Mathlib.Logic.Relation
import TurtleScript.Proofs.Scope.Representation
import TurtleScript.Proofs.Typing.Bodies

/-!
# Where a node sits

The type after a declared name is syntax of its own. Every other node of a program sits in a
scope and in the body of a function, which follow from the nodes around it. The scopes around a
node are those that the nodes around it have opened.
-/
namespace TurtleScript

open Semantics (Position)

namespace Expr

/-- The node `y` lies in the type of a declaration below `e`. -/
def InType (e y : Expr) : Prop :=
  ∃ l name type, .var l name (some type) ∈ e.nodes ∧ y ∈ type.nodes

/-- The node `y` is `e` or below `e`, and not in the type of a declaration. -/
inductive Reaches : Expr → Expr → Prop where
  | self (e : Expr) : Reaches e e
  | child {e x y : Expr} : e.isVariable = false → x ∈ e.children → Reaches x y → Reaches e y

variable {e x y : Expr} {lo hi : Nat}

theorem Reaches.mem (h : e.Reaches y) : y ∈ e.nodes := by
  induction h with
  | self e => exact mem_nodes_self e
  | child _ hx _ ih => exact mem_nodes_child hx ih

theorem InType.child (hx : x ∈ e.children) (h : x.InType y) : e.InType y := by
  obtain ⟨l, name, type, hvar, hy⟩ := h
  exact ⟨l, name, type, mem_nodes_child hx hvar, hy⟩

/-- A numbered tree is not below itself. -/
theorem Numbered.not_mem_child (hn : Numbered lo e hi) (hx : x ∈ e.children) : e ∉ x.nodes := by
  intro he
  obtain ⟨lo', hi', hx, hlo, -⟩ := hn.children_numbered.mem hx
  have hbounds := (hx.id_bounds he).1
  rw [hn.id_eq] at hbounds
  omega

theorem reaches_iff (hn : Numbered lo e hi) : e.Reaches y ↔ y ∈ e.nodes ∧ ¬ e.InType y := by
  constructor
  · intro h
    refine ⟨h.mem, ?_⟩
    induction h generalizing lo hi with
    | self e =>
      rintro ⟨l, name, type, hvar, he⟩
      -- a declaration below the tree has the tree in its type
      rcases mem_nodes.mp hvar with rfl | ⟨x, hx, hvar⟩
      · exact hn.not_mem_child (by simp) he
      · refine hn.not_mem_child hx (mem_nodes_trans hvar (mem_nodes_child ?_ he))
        simp [children]
    | @child e x y hplain hx hy ih =>
      rintro ⟨l, name, type, hvar, hin⟩
      rcases mem_nodes.mp hvar with rfl | ⟨x', hx', hvar⟩
      · cases hplain
      · have hbelow : y ∈ x'.nodes :=
          mem_nodes_trans hvar (mem_nodes_child (by simp) hin)
        obtain rfl := hn.children_numbered.eq_of_id hx hx' hy.mem hbelow rfl
        obtain ⟨lo', hi', hn', -⟩ := hn.children_numbered.mem hx
        exact ih hn' ⟨l, name, type, hvar, hin⟩
  · rintro ⟨hy, hout⟩
    clear hn
    induction e using children_induction with
    | step e ih =>
      rcases mem_nodes.mp hy with rfl | ⟨x, hx, hyx⟩
      · exact .self y
      · cases hvar : e.isVariable with
        | false => exact .child hvar hx (ih x hx hyx fun h => hout (h.child hx))
        | true =>
          cases e with
          | var l name d =>
            obtain rfl : d = some x := by simpa [children] using hx
            exact absurd ⟨l, name, x, mem_nodes_self _, hyx⟩ hout
          | _ => cases hvar

end Expr

namespace ScopeTree

variable {t t' : ScopeTree} {here there there' : Position} {e x y z : Expr} {lo hi : Nat}

/-- Where the nodes below a node sit. -/
def below (t : ScopeTree) (here : Position) (e : Expr) : Position where
  scope := if e.opens then (t.scopeOf? e.id).getD here.scope else here.scope
  function := if e.isFunction then (t.functionOf? e.id).getD here.function else here.function

theorem below_eq_inside (hfun : e.isFunction = false) : t.below here e = t.inside here e := by
  rw [below, inside, Expr.opens, hfun, Bool.or_false]
  split <;> rfl

/-- If `e` sits at `here`, the node `y` below it sits at `there`. -/
inductive Sits (t : ScopeTree) : Position → Expr → Position → Expr → Prop where
  | self {here : Position} {e : Expr} : Sits t here e here e
  | child {here there : Position} {e x y : Expr} : e.isVariable = false → x ∈ e.children →
      Sits t (t.below here e) x there y → Sits t here e there y

namespace Sits

theorem reaches (h : t.Sits here e there y) : e.Reaches y := by
  induction h with
  | self => exact .self _
  | child hplain hx _ ih => exact .child hplain hx ih

theorem exists_of_reaches (h : e.Reaches y) (here : Position) : ∃ there, t.Sits here e there y := by
  induction h generalizing here with
  | self => exact ⟨here, .self⟩
  | child hplain hx _ ih =>
    obtain ⟨there, hsits⟩ := ih (t.below here _)
    exact ⟨there, .child hplain hx hsits⟩

theorem trans (h : t.Sits here e there x) (h' : t.Sits there x there' y) :
    t.Sits here e there' y := by
  induction h with
  | self => exact h'
  | child hplain hx _ ih => exact .child hplain hx (ih h')

/-- A node sits in one place. -/
theorem unique (hn : Expr.Numbered lo e hi) (h : t.Sits here e there y)
    (h' : t.Sits here e there' y) : there = there' := by
  induction h generalizing lo hi with
  | self =>
    cases h' with
    | self => rfl
    | child _ hx hsits => exact absurd hsits.reaches.mem (hn.not_mem_child hx)
  | child _ hx hsits ih =>
    cases h' with
    | self => exact absurd hsits.reaches.mem (hn.not_mem_child hx)
    | child _ hx' hsits' =>
      obtain rfl := hn.children_numbered.eq_of_id hx hx' hsits.reaches.mem hsits'.reaches.mem rfl
      obtain ⟨lo', hi', hn', -⟩ := hn.children_numbered.mem hx
      exact ih hn' hsits'

/-- Where a node sits depends only on the scopes and functions of nodes. -/
theorem congr (h : t.Sits here e there y) (hscopes : t'.nodeScopes = t.nodeScopes)
    (hfunctions : t'.nodeFunctions = t.nodeFunctions) : t'.Sits here e there y := by
  induction h with
  | self => exact .self
  | child hplain hx _ ih =>
    refine .child hplain hx ?_
    rw [ScopeTree.below, scopeOf?, functionOf?, hscopes, hfunctions]
    exact ih

end Sits

/-- The scope `i` is `scope` or around it. -/
abbrev Around (t : ScopeTree) (scope i : Nat) : Prop :=
  Relation.ReflTransGen (fun inner outer => t.outline.parent? inner = some outer) scope i

theorem parent?_outline {i : Nat} {s : Scope} (h : t.scopes[i]? = some s) :
    t.outline.parent? i = s.parent := by
  simp [Outline.parent?, outline, h, Scope.region]

theorem around_of_mem {fuel scope i : Nat} (h : i ∈ t.ancestorsFrom fuel scope) :
    t.Around scope i := by
  induction fuel generalizing scope with
  | zero => cases h
  | succ fuel ih =>
    rw [ancestorsFrom] at h
    cases hs : t.scopes[scope]? with
    | none => simp [hs] at h
    | some s =>
      simp only [hs] at h
      cases hparent : s.parent with
      | none =>
        rw [hparent] at h
        cases List.mem_singleton.mp h
        exact .refl
      | some parent =>
        rw [hparent] at h
        rcases List.mem_cons.mp h with rfl | h
        · exact .refl
        · exact .head ((parent?_outline hs).trans hparent) (ih h)

/-- A name that is found is declared in a scope around. -/
theorem declared_around {scope id : Nat} {name : String}
    (h : t.lookupVariable? scope name = some id) :
    ∃ i, t.Around scope i ∧ t.variableIn? name i = some id := by
  obtain ⟨i, hi, hid⟩ := List.exists_of_findSome?_eq_some h
  exact ⟨i, around_of_mem hi, hid⟩

/-- The scope `i` is one of the first two, or that of a node of the tree with `y` below it. -/
def Encloses (t : ScopeTree) (tree : Expr) (i : Nat) (y : Expr) : Prop :=
  i = root ∨ i = t.program ∨
    ∃ z ∈ tree.nodes, z.opens = true ∧ t.scopeOf? z.id = some i ∧ y ∈ z.nodes

theorem Encloses.child {tree : Expr} {i : Nat} (h : t.Encloses tree i e) (hx : x ∈ e.children) :
    t.Encloses tree i x := by
  refine h.imp_right (Or.imp_right ?_)
  rintro ⟨z, hz, hopens, hscope, he⟩
  exact ⟨z, hz, hopens, hscope, Expr.mem_nodes_trans he (Expr.mem_nodes_child hx x.mem_nodes_self)⟩

section Nested

variable (hscopes : (t.nodeScopes.map Prod.fst).Nodup)
  (hfunctions : (t.nodeFunctions.map Prod.fst).Nodup)

include hscopes hfunctions

theorem below_eq {inner id : Nat} (h : t.outline.Holds here.scope here.function inner id e) :
    t.below here e = ⟨inner, id⟩ := by
  have hscope : (if e.opens then (t.scopeOf? e.id).getD here.scope else here.scope) = inner := by
    split
    case isTrue hopens =>
      rw [scopeOf?, lookup_of_mem hscopes (h.opened hopens).1]
      rfl
    case isFalse hopens => exact (h.passed (Bool.not_eq_true _ ▸ hopens)).symm
  have hfunction : (if e.isFunction then (t.functionOf? e.id).getD here.function
      else here.function) = id := by
    split
    case isTrue hfun =>
      rw [functionOf?, lookup_of_mem hfunctions (h.declared hfun)]
      rfl
    case isFalse hfun => exact (h.within (Bool.not_eq_true _ ▸ hfun)).symm
  rw [below, hscope, hfunction]

/-- If the scopes around a node are of nodes around it, so are those around the nodes below. -/
theorem Sits.encloses {tree : Expr} (h : t.Sits here e there y)
    (hnests : t.outline.Nests here.scope here.function e) (he : e ∈ tree.nodes)
    (haround : ∀ i, t.Around here.scope i → t.Encloses tree i e) {i : Nat}
    (hi : t.Around there.scope i) : t.Encloses tree i y := by
  induction h with
  | self => exact haround i hi
  | @child here there e x y _ hx _ ih =>
    cases hnests with
    | @node _ _ inner id _ hholds hchildren =>
      have hbelow := below_eq hscopes hfunctions hholds
      refine ih (by rw [hbelow]; exact hchildren x hx)
        (Expr.mem_nodes_trans he (Expr.mem_nodes_child hx x.mem_nodes_self)) ?_ hi
      intro j hj
      rw [hbelow] at hj
      cases hopens : e.opens with
      | false =>
        rw [hholds.passed hopens] at hj
        exact (haround j hj).child hx
      | true =>
        obtain ⟨hmem, r, hr, hparent, -⟩ := hholds.opened hopens
        rcases Relation.ReflTransGen.cases_head hj with rfl | ⟨k, hk, hj⟩
        · exact .inr (.inr ⟨e, he, hopens, lookup_of_mem hscopes hmem,
            Expr.mem_nodes_child hx x.mem_nodes_self⟩)
        · have hparent? : t.outline.parent? inner = some here.scope := by
            rw [Outline.parent?, hr]
            exact hparent
          cases hk.symm.trans hparent?
          exact (haround j hj).child hx

end Nested

/-- Every scope around a node of a program is one of the first two, or that of a node around. -/
theorem build_encloses {p : Program} {host : Host} {i : Nat}
    (hn : Expr.Numbered 0 p.body p.nodeCount) (hclean : (build p host).problems = [])
    (h : (build p host).tree.Sits ⟨(build p host).tree.program, main⟩ p.body there y)
    (hi : (build p host).tree.Around there.scope i) :
    (build p host).tree.Encloses p.body i y := by
  have hbuilt := build_clean hn hclean
  obtain ⟨hwalked, hprogram, -⟩ := build_walked hn hclean
  have hrepresents := represents hn hclean
  generalize (build p host).tree = t at *
  have hnests := nests_body hwalked
  have htop (j : Nat) (hj : t.Around t.program j) (e : Expr) : t.Encloses p.body j e := by
    obtain ⟨s, hs, hparent, -⟩ := hrepresents.programScope
    obtain ⟨s₀, hs₀, hnone, -⟩ := hrepresents.hostScope
    rcases Relation.ReflTransGen.cases_head hj with rfl | ⟨k, hk, hj⟩
    · exact .inr (.inl rfl)
    cases hk.symm.trans ((parent?_outline hs).trans hparent)
    rcases Relation.ReflTransGen.cases_head hj with rfl | ⟨k, hk, -⟩
    · exact .inl rfl
    · cases hk.symm.trans ((parent?_outline hs₀).trans hnone)
  cases hblock : p.body.isBlock with
  | false =>
    rw [hblock, if_neg nofun, ← hprogram] at hnests
    exact h.encloses hbuilt.scopeKeys hbuilt.functionKeys hnests p.body.mem_nodes_self
      (fun j hj => htop j hj p.body) hi
  | true =>
    -- the scope of a block at the top is the program's, so its members sit where it sits
    have hscope := hrepresents.bodyScope hblock
    have hopens : p.body.opens = true ∧ p.body.isFunction = false := by
      cases hb : p.body with
      | block => exact ⟨rfl, rfl⟩
      | _ => rw [hb] at hblock; cases hblock
    have hbelow (here : Position) : t.below here p.body = ⟨t.program, here.function⟩ := by
      rw [below, if_pos hopens.1, hscope, hopens.2]
      rfl
    rw [hblock, if_pos rfl] at hnests
    cases h with
    | self => exact htop i hi _
    | @child _ _ _ x _ _ hx hsits =>
      cases hnests with
      | @node _ _ inner id _ hholds hchildren =>
        have hplace : t.below ⟨root, main⟩ p.body = ⟨inner, id⟩ :=
          below_eq hbuilt.scopeKeys hbuilt.functionKeys hholds
        rw [hbelow] at hplace hsits
        cases hplace
        exact hsits.encloses hbuilt.scopeKeys hbuilt.functionKeys (hchildren x hx)
          (Expr.mem_nodes_child hx x.mem_nodes_self) (fun j hj => htop j hj x) hi

end ScopeTree

end TurtleScript
