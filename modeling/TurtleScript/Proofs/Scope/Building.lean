import TurtleScript.Proofs.Scope.Layout
import TurtleScript.Proofs.Tree.Numbering

/-!
# Building the scope tree

If the walk over a program finds no problem, the tables of the tree it leaves fit each other,
and every node has been entered: a node that opens a scope has one, a function has its record,
a loop over an array has its variables in slots of the function it stands in.
-/
namespace TurtleScript

namespace Expr

/-- The node opens a scope in the function it stands in. -/
def opensScope : Expr → Bool
  | block .. | forLoop .. | forTo .. | forIn .. => true
  | _ => false

def isVariable : Expr → Bool
  | var .. => true
  | _ => false

end Expr

/-- A variable without a declaration, or with one that names a type. -/
def Declared (e : Expr) : Prop :=
  ∃ l name d, e = .var l name d ∧ ∀ type ∈ d, ∃ ty, declaredType? type = some ty

/-- What stands below a declared name: names, and a name of an array type. -/
theorem Declared.shape {e y : Expr} (h : Declared e) (hy : y ∈ e.nodes) :
    y.isVariable = true ∨ ∃ l array, y = .element l array none := by
  obtain ⟨l, name, d, rfl, htype⟩ := h
  have hname {l : Label} {name : String} (hy : y ∈ (Expr.var l name none).nodes) :
      y.isVariable = true := by
    rcases Expr.mem_nodes.mp hy with rfl | ⟨x, hx, -⟩
    · rfl
    · cases hx
  rcases Expr.mem_nodes.mp hy with rfl | ⟨x, hx, hyx⟩
  · exact .inl rfl
  obtain rfl : d = some x := by simpa using hx
  obtain ⟨ty, hty⟩ := htype x rfl
  rw [declaredType?.eq_def] at hty
  split at hty
  case h_1 => exact .inl (hname hyx)
  case h_2 =>
    rcases Expr.mem_nodes.mp hyx with rfl | ⟨x, hx, hyx⟩
    · exact .inr ⟨_, _, rfl⟩
    · cases List.mem_singleton.mp hx
      exact .inl (hname hyx)
  case h_3 => cases hty

theorem Declared.isFunction {e y : Expr} (h : Declared e) (hy : y ∈ e.nodes) :
    y.isFunction = false := by
  rcases h.shape hy with hvar | ⟨l, array, rfl⟩
  · cases y with
    | function => cases hvar
    | _ => rfl
  · rfl

namespace ScopeTree

/-- A loop over an array has its variables in slots of `function`. -/
def HasLoop (t : ScopeTree) (function node : Nat) : Prop :=
  ∃ slots v w a i, (node, slots) ∈ t.loopSlots ∧ t.vars[slots.array]? = some v ∧
    t.vars[slots.index]? = some w ∧ v.storage = .slot function a ∧ w.storage = .slot function i ∧
    a ≠ i

/-- The first slots of a function are its parameters, in order and with the types they name. -/
def HasParams (t : ScopeTree) (id : Nat) (params : List Expr) : Prop :=
  ∃ f, t.functions[id]? = some f ∧ f.paramCount = params.length ∧
    ∀ (k : Nat) (param : Expr), params[k]? = some param →
      ∃ l name type ty var, param = .var l name (some type) ∧ declaredType? type = some ty ∧
        f.slots[k]? = some { name, var } ∧
        t.vars[var]? = some { name, type := some ty, storage := .slot id k, span := l.span }

theorem HasParams.mono {t t' : ScopeTree} {id : Nat} {params : List Expr} (hg : Grows t t')
    (h : t.HasParams id params) : t'.HasParams id params := by
  obtain ⟨f, hf, hcount, hparams⟩ := h
  obtain ⟨f', hf', hslots, hcount', -⟩ := hg.functions id f hf
  refine ⟨f', hf', hcount'.trans hcount, fun k param hk => ?_⟩
  obtain ⟨l, name, type, ty, var, rfl, hty, hslot, hv⟩ := hparams k param hk
  exact ⟨l, name, type, ty, var, rfl, hty, getElem?_of_prefix hslots hslot, hg.vars _ _ hv⟩

/-- The tree has what it takes for a node in `scope` of `function` and all below. -/
inductive Placed (t : ScopeTree) : (scope function : Nat) → Expr → Prop where
  | declared {scope function : Nat} {e : Expr} : Declared e → Placed t scope function e
  | function {scope function inner id : Nat} {l : Label} {name : String} {params : List Expr}
      {body : Expr} : (l.id, inner) ∈ t.nodeScopes → (l.id, id) ∈ t.nodeFunctions →
      (∀ p ∈ params, Declared p) → Placed t inner id body →
      Placed t scope function (.function l name params body)
  | opening {scope function inner : Nat} {e : Expr} : e.opensScope = true →
      (e.id, inner) ∈ t.nodeScopes →
      (∀ l item iterable body, e = .forIn l item iterable body → t.HasLoop function l.id) →
      (∀ x ∈ e.children, Placed t inner function x) → Placed t scope function e
  | plain {scope function : Nat} {e : Expr} : e.opensScope = false → e.isFunction = false →
      e.isVariable = false → (∀ x ∈ e.children, Placed t scope function x) →
      Placed t scope function e

namespace Placed

variable {t : ScopeTree} {scope function : Nat} {e : Expr}

/-- A variable stands only where a name may be declared. -/
theorem declared_var {l : Label} {name : String} {d : Option Expr}
    (h : Placed t scope function (.var l name d)) : Declared (.var l name d) := by
  cases h with
  | declared h => exact h
  | opening hopens => cases hopens
  | plain _ _ hvar => cases hvar

theorem child (h : Placed t scope function e) (hfun : e.isFunction = false)
    (hvar : e.isVariable = false) :
    ∃ inner, ∀ x ∈ e.children, Placed t inner function x := by
  cases h with
  | declared h =>
    obtain ⟨l, name, d, rfl, -⟩ := h
    cases hvar
  | function => cases hfun
  | opening _ _ _ hchildren => exact ⟨_, hchildren⟩
  | plain _ _ _ hchildren => exact ⟨_, hchildren⟩

theorem loop {l : Label} {item iterable body : Expr}
    (h : Placed t scope function (.forIn l item iterable body)) : t.HasLoop function l.id := by
  cases h with
  | declared h => obtain ⟨_, _, _, ⟨⟩, _⟩ := h
  | opening _ _ hloop => exact hloop l item iterable body rfl
  | plain hopens => cases hopens

end Placed

/-- A part of the walk: it enters nodes and loops of a kind, and what it leaves holds from
then on. -/
structure After (host : Host) (nodes loops : Expr → Prop) (left : ScopeTree → Prop)
    (t t' : ScopeTree) : Prop where
  wf : Wf host t'
  grows : Grows t t'
  nodeScopes : Keyed (fun k => ∃ y, nodes y ∧ y.id = k) t.nodeScopes t'.nodeScopes
  nodeFunctions : Keyed (fun k => ∃ y, (nodes y ∧ y.isFunction = true) ∧ y.id = k)
    t.nodeFunctions t'.nodeFunctions
  loopSlots : Keyed (fun k => ∃ y, loops y ∧ y.id = k) t.loopSlots t'.loopSlots
  /-- Every function that came up has its node. -/
  covered : ∀ i, t.functions.size ≤ i → i < t'.functions.size →
    ∃ node, (node, i) ∈ t'.nodeFunctions
  left : ∀ t'', Grows t' t'' → left t''

variable {host : Host} {p q u v : Expr → Prop} {φ ψ : ScopeTree → Prop} {t t' t'' : ScopeTree}

theorem Keyed.join {β : Type} {a b c : List (Nat × β)}
    (h : Keyed (fun k => ∃ y, p y ∧ y.id = k) a b) (h' : Keyed (fun k => ∃ y, q y ∧ y.id = k) b c)
    (hpq : ∀ y z, p y → q z → y.id ≠ z.id) :
    Keyed (fun k => ∃ y, (p y ∨ q y) ∧ y.id = k) a c := by
  refine (h.trans h' ?_).mono ?_
  · rintro k ⟨y, hy, rfl⟩ ⟨z, hz, hid⟩
    exact hpq y z hy hz hid.symm
  · rintro k (⟨y, hy, hid⟩ | ⟨y, hy, hid⟩)
    · exact ⟨y, .inl hy, hid⟩
    · exact ⟨y, .inr hy, hid⟩

theorem After.trans (h : After host p u φ t t') (h' : After host q v ψ t' t'')
    (hpq : ∀ y z, p y → q z → y.id ≠ z.id) (huv : ∀ y z, u y → v z → y.id ≠ z.id) :
    After host (fun y => p y ∨ q y) (fun y => u y ∨ v y) (fun t => φ t ∧ ψ t) t t'' where
  wf := h'.wf
  grows := h.grows.trans h'.grows
  nodeScopes := Keyed.join h.nodeScopes h'.nodeScopes hpq
  nodeFunctions := by
    refine (Keyed.join h.nodeFunctions h'.nodeFunctions fun y z hy hz => hpq y z hy.1 hz.1).mono ?_
    rintro k ⟨y, hy, hid⟩
    exact ⟨y, ⟨hy.imp And.left And.left, hy.elim And.right And.right⟩, hid⟩
  loopSlots := Keyed.join h.loopSlots h'.loopSlots huv
  covered := by
    intro i hold hnew
    by_cases hmid : i < t'.functions.size
    · obtain ⟨node, hnode⟩ := h.covered i hold hmid
      exact ⟨node, h'.grows.nodeFunctions hnode⟩
    · exact h'.covered i (Nat.not_lt.mp hmid) hnew
  left := fun t₃ hg => ⟨h.left t₃ (h'.grows.trans hg), h'.left t₃ hg⟩

theorem After.mono (h : After host p u φ t t') (hp : ∀ y, p y → q y) (hu : ∀ y, u y → v y)
    (hφ : ∀ t, φ t → ψ t) : After host q v ψ t t' where
  wf := h.wf
  grows := h.grows
  nodeScopes := h.nodeScopes.mono fun _ ⟨y, hy, hid⟩ => ⟨y, hp y hy, hid⟩
  nodeFunctions := h.nodeFunctions.mono fun _ ⟨y, hy, hid⟩ => ⟨y, ⟨hp y hy.1, hy.2⟩, hid⟩
  loopSlots := h.loopSlots.mono fun _ ⟨y, hy, hid⟩ => ⟨y, hu y hy, hid⟩
  covered := h.covered
  left := fun t₃ hg => hφ t₃ (h.left t₃ hg)

/-- Growth without new nodes or overloads. -/
structure Quiet (t t' : ScopeTree) : Prop extends Grows t t' where
  declares : ∀ o, t'.Declares o → t.Declares o
  sameScopes : t'.nodeScopes = t.nodeScopes
  sameFunctions : t'.nodeFunctions = t.nodeFunctions
  sameLoops : t'.loopSlots = t.loopSlots
  sameSize : t'.functions.size = t.functions.size

theorem Quiet.refl (t : ScopeTree) : Quiet t t :=
  { Grows.refl t with declares := fun _ h => h, sameScopes := rfl, sameFunctions := rfl,
                      sameLoops := rfl, sameSize := rfl }

/-- What a function that is opened leaves in the tables of nodes. -/
theorem Quiet.opened {scope node : Nat} {name : String} {span : Span} {types : List Ty}
    (h : Quiet ((t.addFunction scope node name span types).addScope scope t.functions.size node) t')
    (id count : Nat) :
    (t'.setParams id count).nodeScopes =
        (node, (t.addFunction scope node name span types).scopes.size) :: t.nodeScopes ∧
      (t'.setParams id count).nodeFunctions = (node, t.functions.size) :: t.nodeFunctions ∧
      (t'.setParams id count).loopSlots = t.loopSlots ∧
      (t'.setParams id count).functions.size = t.functions.size + 1 :=
  ⟨h.sameScopes, h.sameFunctions, h.sameLoops,
    (Array.size_modify.trans h.sameSize).trans (Array.size_push ..)⟩

theorem Quiet.trans (h : Quiet t t') (h' : Quiet t' t'') : Quiet t t'' :=
  { h.toGrows.trans h'.toGrows with
    declares := fun o ho => h.declares o (h'.declares o ho)
    sameScopes := h'.sameScopes.trans h.sameScopes
    sameFunctions := h'.sameFunctions.trans h.sameFunctions
    sameLoops := h'.sameLoops.trans h.sameLoops
    sameSize := h'.sameSize.trans h.sameSize }

theorem Quiet.addLocal {scope function : Nat} {f : FunctionRecord} {name : String}
    {type : Option Ty} {span : Span} : Quiet t (t.addLocal scope function f name type span) :=
  { Grows.addLocal with
    declares := fun _ => declares_addLocal, sameScopes := rfl, sameFunctions := rfl,
    sameLoops := rfl, sameSize := by simp [ScopeTree.addLocal] }

/-- What the declaration of a local leaves. -/
theorem declareLocal_step {scope function id : Nat} {f : FunctionRecord} {name : String}
    {type : Option Ty} {span : Span} (hlayout : Layout host t)
    (hf : t.functions[function]? = some f) (htype : type ≠ some .empty)
    (h : t.declareLocal scope function name type span = .ok (id, t')) :
    id = t.vars.size ∧ Quiet t t' ∧ Layout host t' ∧
      t'.functions[function]? = some { f with slots := f.slots ++ [{ name, var := id }] } ∧
      t'.vars[id]? = some { name, type, storage := .slot function f.slots.length, span } ∧
      t'.vars.size = t.vars.size + 1 := by
  obtain ⟨rfl, rfl⟩ := declareLocal_eq_ok hf h
  exact ⟨rfl, .addLocal, hlayout.addLocal hf htype, functions_addLocal hf, vars_addLocal,
    Array.size_push ..⟩

theorem Wf.of_grows (hwf : Wf host t) (hlayout : Layout host t') (hg : Grows t t')
    (hdeclares : ∀ o, t'.Declares o → t.Declares o) : Wf host t' :=
  { hlayout with overloads := fun o ho => (hwf.overloads o (hdeclares o ho)).mono hg }

theorem Quiet.after (hq : Quiet t t') (hwf : Wf host t) (hlayout : Layout host t')
    (hφ : ∀ t'', Grows t' t'' → φ t'') :
    After host (fun _ => False) (fun _ => False) φ t t' where
  wf := hwf.of_grows hlayout hq.toGrows hq.declares
  grows := hq.toGrows
  nodeScopes := by rw [hq.sameScopes]; exact .refl
  nodeFunctions := by rw [hq.sameFunctions]; exact .refl
  loopSlots := by rw [hq.sameLoops]; exact .refl
  covered := fun i hold hnew => absurd (hq.sameSize ▸ hnew) (Nat.not_lt.mpr hold)
  left := hφ

end ScopeTree

open ScopeTree

theorem declaredType?_ne_empty {e : Expr} {ty : Ty} (h : declaredType? e = some ty) :
    ty ≠ .empty := by
  have hkeyword {name : String} {ty : Ty} (h : Ty.ofKeyword? name = some ty) : ty ≠ .empty := by
    simp only [Ty.ofKeyword?] at h
    split at h
    · cases h; simp
    · split at h
      · cases h; simp
      · split at h
        · cases h; simp
        · cases h
  rw [declaredType?.eq_def] at h
  split at h
  · exact hkeyword h
  · obtain ⟨element, -, rfl⟩ := Option.map_eq_some_iff.mp h
    simp
  · cases h

namespace Building

variable {host : Host} {scope function : Nat} {p q u v : Expr → Prop} {φ ψ : ScopeTree → Prop}
  {b b₁ b₂ : Building} {name : String} {type : Option Ty} {span : Span}

/-- A part of the walk in `function`, as far as it finds no problem. -/
def Builds (host : Host) (function : Nat) (nodes loops : Expr → Prop) (left : ScopeTree → Prop)
    (b b' : Building) : Prop :=
  b'.problems = [] → b.problems = [] ∧ (Wf host b.tree → function < b.tree.functions.size →
    After host nodes loops left b.tree b'.tree)

theorem Builds.refl (b : Building) :
    Builds host function (fun _ => False) (fun _ => False) (fun _ => True) b b := fun h =>
  ⟨h, fun hwf _ => (Quiet.refl b.tree).after hwf hwf.toLayout fun _ _ => trivial⟩

theorem Builds.trans (h : Builds host function p u φ b b₁) (h' : Builds host function q v ψ b₁ b₂)
    (hpq : ∀ y z, p y → q z → y.id ≠ z.id) (huv : ∀ y z, u y → v z → y.id ≠ z.id) :
    Builds host function (fun y => p y ∨ q y) (fun y => u y ∨ v y) (fun t => φ t ∧ ψ t) b b₂ := by
  intro hclean
  obtain ⟨hmid, hsecond⟩ := h' hclean
  obtain ⟨hstart, hfirst⟩ := h hmid
  refine ⟨hstart, fun hwf hfunction => ?_⟩
  have h₁ := hfirst hwf hfunction
  exact h₁.trans (hsecond h₁.wf (Nat.lt_of_lt_of_le hfunction h₁.grows.size_functions)) hpq huv

theorem Builds.mono (h : Builds host function p u φ b b₁) (hp : ∀ y, p y → q y)
    (hu : ∀ y, u y → v y) (hφ : ∀ t, φ t → ψ t) : Builds host function q v ψ b b₁ := fun hclean =>
  ⟨(h hclean).1, fun hwf hfunction => ((h hclean).2 hwf hfunction).mono hp hu hφ⟩

theorem Builds.imp (h : Builds host function p u φ b b₁) (hφ : ∀ t, φ t → ψ t) :
    Builds host function p u ψ b b₁ := h.mono (fun _ h => h) (fun _ h => h) hφ

/-- A part that reports a problem leaves no clean tree. -/
theorem builds_report {problem : ScopeProblem} :
    Builds host function p u φ b (b.report problem span) := fun h => by simp [report] at h

theorem accept_clean {r : Except ScopeProblem ScopeTree} (h : (b.accept span r).problems = []) :
    b.problems = [] ∧ ∃ tree, r = .ok tree ∧ b.accept span r = { b with tree } := by
  cases r with
  | error problem => simp [accept, report] at h
  | ok tree => exact ⟨h, tree, rfl, rfl⟩

/-- A local that was declared. -/
theorem declareLocal_clean {f : FunctionRecord}
    (h : (b.declareLocal scope function name type span).problems = [])
    (hf : b.tree.functions[function]? = some f) :
    b.declareLocal scope function name type span =
      { b with tree := b.tree.addLocal scope function f name type span } := by
  obtain ⟨-, tree, hok, haccept⟩ := accept_clean h
  rw [declareLocal, haccept]
  cases hdeclare : b.tree.declareLocal scope function name type span with
  | error problem => rw [hdeclare] at hok; cases hok
  | ok result =>
    rw [hdeclare] at hok
    cases hok
    rw [(declareLocal_eq_ok hf hdeclare).2]

theorem builds_declareLocal (htype : type ≠ some .empty) :
    Builds host function (fun _ => False) (fun _ => False) (fun _ => True) b
      (b.declareLocal scope function name type span) := by
  intro h
  refine ⟨(accept_clean h).1, fun hwf hfunction => ?_⟩
  have hf := Array.getElem?_eq_getElem hfunction
  rw [declareLocal_clean h hf]
  exact Quiet.addLocal.after hwf (hwf.toLayout.addLocal hf htype) fun _ _ => trivial

theorem builds_declare {e : Expr} :
    Builds host function (fun _ => False) (fun _ => False)
      (fun _ => ∃ ty, declaredType? e = some ty) b (b.declare scope function name e span) := by
  rw [declare]
  split
  · exact builds_report
  · cases htype : declaredType? e with
    | none => exact builds_report
    | some ty =>
      have hne : some ty ≠ some .empty := fun he =>
        declaredType?_ne_empty htype (Option.some.inj he)
      exact (builds_declareLocal hne).imp fun _ _ => ⟨ty, rfl⟩

theorem builds_loopVariable (e : Expr) :
    Builds host function (fun _ => False) (fun _ => False) (fun _ => Declared e) b
      (b.declareLoopVariable scope function e) := by
  cases e with
  | var l name d =>
    cases d with
    | some type =>
      refine builds_declare.imp fun _ htype => ⟨l, name, some type, rfl, ?_⟩
      rintro _ ⟨⟩
      exact htype
    | none =>
      have hdeclared : Declared (.var l name none) := ⟨l, name, none, rfl, nofun⟩
      rw [declareLoopVariable]
      split
      · exact (Builds.refl b).imp fun _ _ => hdeclared
      · split
        · exact builds_report
        · have hopen : (none : Option Ty) ≠ some .empty := nofun
          exact (builds_declareLocal hopen).imp fun _ _ => hdeclared
  | _ => exact builds_report

/-- The scope of a node. -/
theorem builds_openScope {parent : Nat} (e : Expr) :
    Builds host function (fun y => y = e) (fun _ => False)
      (fun t => (e.id, (b.openScope parent function e.id).1) ∈ t.nodeScopes) b
      (b.openScope parent function e.id).2 := by
  intro h
  refine ⟨h, fun hwf hfunction => ?_⟩
  exact {
    wf := hwf.of_grows hwf.toLayout.addScope .addScope fun _ => declares_pushScope
    grows := .addScope
    nodeScopes := .one ⟨e, rfl, rfl⟩
    nodeFunctions := .refl
    loopSlots := .refl
    covered := fun i hold hnew => absurd hnew (Nat.not_lt.mpr hold)
    left := fun t hg => hg.nodeScopes List.mem_cons_self }

theorem reserved_array (n : Nat) : Reserved s!"$array{n}" := by
  simp [Reserved, String.toList_append, ToString.toString]

theorem reserved_index (n : Nat) : Reserved s!"$index{n}" := by
  simp [Reserved, String.toList_append, ToString.toString]

theorem declareLoopSlots_clean {l : Label}
    (h : (b.declareLoopSlots scope function l).problems = []) :
    b.problems = [] ∧ ∃ array t₁ index t₂,
      b.tree.declareLocal scope function s!"$array{l.id}" none l.span = .ok (array, t₁) ∧
      t₁.declareLocal scope function s!"$index{l.id}" (some .double) l.span = .ok (index, t₂) ∧
      (b.declareLoopSlots scope function l).tree = t₂.addLoop l.id ⟨array, index⟩ := by
  rw [declareLoopSlots] at h ⊢
  cases harray : b.tree.declareLocal scope function s!"$array{l.id}" none l.span with
  | error problem =>
    simp only [harray] at h
    obtain ⟨hfirst, -⟩ := accept_clean h
    obtain ⟨-, _, hok, -⟩ := accept_clean hfirst
    cases hok
  | ok array =>
    obtain ⟨array, t₁⟩ := array
    simp only [harray, Except.toOption, Option.elim] at h ⊢
    cases hindex : t₁.declareLocal scope function s!"$index{l.id}" (some .double) l.span with
    | error problem =>
      simp only [hindex] at h
      obtain ⟨-, _, hok, -⟩ := accept_clean h
      cases hok
    | ok index =>
      obtain ⟨index, t₂⟩ := index
      simp only [hindex] at h ⊢
      exact ⟨h, array, t₁, index, t₂, rfl, hindex, rfl⟩

theorem builds_loopSlots {l : Label} (e : Expr) (he : e.id = l.id) :
    Builds host function (fun _ => False) (fun y => y = e) (fun t => t.HasLoop function l.id) b
      (b.declareLoopSlots scope function l) := by
  intro h
  obtain ⟨hclean, array, t₁, index, t₂, harray, hindex, htree⟩ := declareLoopSlots_clean h
  refine ⟨hclean, fun hwf hfunction => ?_⟩
  have hf := Array.getElem?_eq_getElem hfunction
  obtain ⟨rfl, hquiet₁, hlayout₁, hf₁, hv, hsize⟩ :=
    declareLocal_step hwf.toLayout hf (by simp) harray
  obtain ⟨rfl, hquiet₂, hlayout₂, -, hw, -⟩ := declareLocal_step hlayout₁ hf₁ (by simp) hindex
  replace hv := hquiet₂.vars _ _ hv
  -- the loops entered before have smaller numbers for their variables
  have hnew (p : Nat × LoopSlots) (hp : p ∈ t₂.loopSlots) :
      p.2.array < b.tree.vars.size ∧ p.2.index < b.tree.vars.size := by
    rw [hquiet₂.sameLoops, hquiet₁.sameLoops] at hp
    obtain ⟨v, w, hv, hw, -⟩ := hwf.loops p hp
    exact ⟨(Array.getElem?_eq_some_iff.mp hv).1, (Array.getElem?_eq_some_iff.mp hw).1⟩
  have hlayout : Layout host (t₂.addLoop l.id ⟨b.tree.vars.size, t₁.vars.size⟩) := by
    refine hlayout₂.addLoop hv hw (reserved_array _) (reserved_index _) ⟨_, _, rfl⟩ fun p hp => ?_
    have := hnew p hp
    dsimp only
    omega
  have hgrows : Grows b.tree (t₂.addLoop l.id ⟨b.tree.vars.size, t₁.vars.size⟩) :=
    (hquiet₁.toGrows.trans hquiet₂.toGrows).trans .addLoop
  rw [htree]
  exact {
    wf := hwf.of_grows hlayout hgrows fun o ho => hquiet₁.declares o (hquiet₂.declares o ho)
    grows := hgrows
    nodeScopes := by
      change Keyed _ _ t₂.nodeScopes
      rw [hquiet₂.sameScopes, hquiet₁.sameScopes]
      exact .refl
    nodeFunctions := by
      change Keyed _ _ t₂.nodeFunctions
      rw [hquiet₂.sameFunctions, hquiet₁.sameFunctions]
      exact .refl
    loopSlots := by
      change Keyed _ _ (_ :: t₂.loopSlots)
      rw [hquiet₂.sameLoops, hquiet₁.sameLoops]
      exact .one ⟨e, rfl, he⟩
    covered := by
      intro i hold hnew
      change i < t₂.functions.size at hnew
      rw [hquiet₂.sameSize, hquiet₁.sameSize] at hnew
      exact absurd hnew (Nat.not_lt.mpr hold)
    left := fun t hg => ⟨_, _, _, _, _, hg.loopSlots List.mem_cons_self, hg.vars _ _ hv,
      hg.vars _ _ hw, rfl, rfl, by simp⟩ }

theorem checkParameter_eq_ok {position : Nat} {e : Expr} {param : Parameter}
    (h : checkParameter name position e = .ok param) :
    ∃ l type, e = .var l param.name (some type) ∧ declaredType? type = some param.type ∧
      param.span = l.span ∧ Text.isIdentifier param.name = true := by
  rw [checkParameter.eq_def] at h
  split at h
  case h_1 l name' type =>
    cases htype : declaredType? type with
    | none => simp only [htype] at h; cases h
    | some ty =>
      simp only [htype] at h
      split at h
      · rename_i hname
        cases h
        exact ⟨l, type, rfl, htype, rfl, hname⟩
      · cases h
  case h_2 => cases h

/-- Good parameters are found at their places. -/
theorem checkParameters_eq_ok {params : List Expr} {checked : List Parameter}
    (h : checkParameters name params = .ok checked) :
    checked.length = params.length ∧ ∀ (k : Nat) (e : Expr), params[k]? = some e →
      ∃ param, checked[k]? = some param ∧ checkParameter name k e = .ok param := by
  rw [checkParameters] at h
  split at h
  case h_1 hnone =>
    cases h
    have hgood {results : List (Except Diagnostic Parameter)}
        (h : ∀ r ∈ results, ∃ param, r = .ok param) :
        results = (results.filterMap Except.toOption).map .ok := by
      induction results with
      | nil => rfl
      | cons r results ih =>
        obtain ⟨⟨param, rfl⟩, hrest⟩ := List.forall_mem_cons.mp h
        exact congrArg (Except.ok param :: ·) (ih hrest)
    have hchecked := hgood fun r hr => by
      have hr := List.filterMap_eq_nil_iff.mp hnone r hr
      cases r with
      | error d => cases hr
      | ok param => exact ⟨param, rfl⟩
    refine ⟨?_, fun k e he => ?_⟩
    · have hlength := congrArg List.length hchecked
      simpa using hlength.symm
    · have hk := congrArg (·[k]?) hchecked
      simp only [List.getElem?_map, List.getElem?_zipIdx, he, Option.map_some] at hk
      obtain ⟨param, hparam, hresult⟩ := Option.map_eq_some_iff.mp hk.symm
      exact ⟨param, hparam, by simpa using hresult.symm⟩
  case h_2 => cases h

theorem checkParameters_declared {params : List Expr} {checked : List Parameter}
    (h : checkParameters name params = .ok checked) :
    (∀ e ∈ params, Declared e) ∧
      ∀ param ∈ checked, param.type ≠ .empty ∧ Text.isIdentifier param.name = true := by
  obtain ⟨hlength, hchecked⟩ := checkParameters_eq_ok h
  constructor
  · intro e he
    obtain ⟨k, hk⟩ := List.getElem?_of_mem he
    obtain ⟨param, -, hparam⟩ := hchecked k e hk
    obtain ⟨l, type, rfl, htype, -⟩ := checkParameter_eq_ok hparam
    refine ⟨l, param.name, some type, rfl, ?_⟩
    rintro _ ⟨⟩
    exact ⟨_, htype⟩
  · intro param hparam
    obtain ⟨k, hk⟩ := List.getElem?_of_mem hparam
    have hlt : k < params.length := hlength ▸ (List.getElem?_eq_some_iff.mp hk).1
    obtain ⟨param', hparam', hok⟩ := hchecked k _ (List.getElem?_eq_getElem hlt)
    cases hk.symm.trans hparam'
    obtain ⟨-, type, -, htype, -, hname⟩ := checkParameter_eq_ok hok
    exact ⟨declaredType?_ne_empty htype, hname⟩

/-- Declares parameters as locals. -/
def declareParams (b : Building) (inner id : Nat) (params : List Parameter) : Building :=
  params.foldl (fun b p => b.declareLocal inner id p.name (some p.type) p.span) b

theorem declareParams_clean {inner id : Nat} {params : List Parameter}
    (h : (b.declareParams inner id params).problems = []) : b.problems = [] := by
  induction params generalizing b with
  | nil => exact h
  | cons p params ih => exact (accept_clean (ih h)).1

/-- The parameters become the next slots of the function, in order and with their types. -/
theorem declareParams_step {inner id : Nat} (params : List Parameter) {f : FunctionRecord}
    (hclean : (b.declareParams inner id params).problems = []) (hlayout : Layout host b.tree)
    (hf : b.tree.functions[id]? = some f) (htypes : ∀ p ∈ params, p.type ≠ .empty) :
    Quiet b.tree (b.declareParams inner id params).tree ∧
      Layout host (b.declareParams inner id params).tree ∧
      ∃ added, (b.declareParams inner id params).tree.functions[id]? =
          some { f with slots := f.slots ++ added } ∧
        added.length = params.length ∧ ∀ (k : Nat) (p : Parameter), params[k]? = some p →
          ∃ var, added[k]? = some { name := p.name, var } ∧
            (b.declareParams inner id params).tree.vars[var]? =
              some { name := p.name, type := some p.type, span := p.span
                     storage := .slot id (f.slots.length + k) } := by
  induction params generalizing b f with
  | nil => exact ⟨.refl _, hlayout, [], by rw [List.append_nil]; exact hf, rfl, nofun⟩
  | cons p params ih =>
    have hrest : ((b.declareLocal inner id p.name (some p.type) p.span).declareParams inner id
        params).problems = [] := hclean
    have hfirst := declareLocal_clean (declareParams_clean hrest) hf
    have hne : some p.type ≠ some .empty := fun he =>
      htypes p List.mem_cons_self (Option.some.inj he)
    have hfold : b.declareParams inner id (p :: params) =
        (b.declareLocal inner id p.name (some p.type) p.span).declareParams inner id params := rfl
    rw [hfold, hfirst] at hclean ⊢
    obtain ⟨hquiet, hlast, added, hadded, hlength, hparams⟩ := ih hclean
      (hlayout.addLocal hf hne) (functions_addLocal hf)
      fun q hq => htypes q (List.mem_cons_of_mem p hq)
    refine ⟨Quiet.addLocal.trans hquiet, hlast, { name := p.name, var := b.tree.vars.size } :: added,
      ?_, congrArg (· + 1) hlength, fun k q hk => ?_⟩
    · rw [hadded, List.append_assoc]
      rfl
    · cases k with
      | zero =>
        cases hk
        exact ⟨_, rfl, hquiet.vars _ _ vars_addLocal⟩
      | succ k =>
        obtain ⟨var, hvar, hv⟩ := hparams k q hk
        refine ⟨var, hvar, hv.trans ?_⟩
        rw [List.length_append, List.length_singleton, Nat.add_right_comm, Nat.add_assoc]

/-- Adds a function for its node. -/
def registerFunction (b : Building) (l : Label) (name : String) : Building :=
  { b with tree := (b.tree.pushFunction name l.span).2.addFunctionNode l.id b.tree.functions.size }

/-- Adds a function for its node and offers it in `scope`. -/
def offerFunction (b : Building) (scope : Nat) (l : Label) (name : String) (types : List Ty) :
    Building :=
  let b' := b.registerFunction l name
  b'.accept l.span (b'.tree.declareOverload scope ⟨name, types, .script b.tree.functions.size⟩)

/-- Opens the scope of a function and declares its parameters there. -/
def openBody (b : Building) (scope id node : Nat) (params : List Parameter) : Building :=
  let b := (b.openScope scope id node).2.declareParams b.tree.scopes.size id params
  { b with tree := b.tree.setParams id params.length }

/-- A function whose name and parameters are good: its record, its overload and its scope. -/
theorem openFunction_of_checked {l : Label} {params : List Expr} {checked : List Parameter}
    (hname : Text.isIdentifier name = true)
    (hcheck : checkParameters name params = .ok checked) :
    b.openFunction scope l name params =
      let c := b.offerFunction scope l name (checked.map (·.type))
      (some (c.tree.scopes.size, b.tree.functions.size),
        c.openBody scope b.tree.functions.size l.id checked) := by
  rw [openFunction, if_neg (by simp [hname]), hcheck]
  simp only [offerFunction, registerFunction, ← b.tree.issued_eq]
  rfl

/-- A function whose name and parameters are good is entered, then its parameters. -/
theorem openFunction_clean {l : Label} {params : List Expr} {opened : Option (Nat × Nat)}
    {b' : Building} (h : b.openFunction scope l name params = (opened, b'))
    (hclean : b'.problems = []) :
    Text.isIdentifier name = true ∧ ∃ checked, checkParameters name params = .ok checked ∧
      ∃ (b₁ : Building) (inner : Nat), b₁.problems = b.problems ∧ inner = b.tree.scopes.size ∧
        b₁.tree = (b.tree.addFunction scope l.id name l.span (checked.map (·.type))).addScope scope
          b.tree.functions.size l.id ∧
        (l.id, inner) ∈ b₁.tree.nodeScopes ∧ opened = some (inner, b.tree.functions.size) ∧
        (b₁.declareParams inner b.tree.functions.size checked).problems = [] ∧
        b'.tree = (b₁.declareParams inner b.tree.functions.size checked).tree.setParams
          b.tree.functions.size checked.length := by
  rw [openFunction] at h
  split at h
  · cases h
    simp [report] at hclean
  · rename_i hname
    refine ⟨by simpa using hname, ?_⟩
    cases hcheck : checkParameters name params with
    | error problems =>
      simp only [hcheck] at h
      cases h
      rw [checkParameters] at hcheck
      split at hcheck
      case h_1 => cases hcheck
      case h_2 hsome =>
        cases hcheck
        exact (hsome (List.append_eq_nil_iff.mp hclean).2).elim
    | ok checked =>
      simp only [hcheck, pushFunction_fst] at h
      cases h
      have hbefore := declareParams_clean hclean
      obtain ⟨-, tree, hok, haccept⟩ := accept_clean hbefore
      obtain rfl := declareOverload_eq_ok hok
      rw [haccept] at hclean ⊢
      let t₁ := b.tree.addFunction scope l.id name l.span (checked.map (·.type))
      exact ⟨checked, rfl, ⟨t₁.addScope scope b.tree.functions.size l.id, b.problems⟩,
        t₁.scopes.size, rfl, Array.size_modify, rfl, List.mem_cons_self, rfl, hclean, rfl⟩

section Checked

variable {params : List Expr} {checked : List Parameter} {t : ScopeTree} {id : Nat}
  {f : FunctionRecord} (hcheck : checkParameters name params = .ok checked)
  (hf : t.functions[id]? = some f) (hcount : f.paramCount = checked.length)
  (hslots : ∀ (k : Nat) (p : Parameter), checked[k]? = some p →
    ∃ var, f.slots[k]? = some { name := p.name, var } ∧ t.vars[var]? =
      some { name := p.name, type := some p.type, storage := .slot id k, span := p.span })

include hcheck hf hcount hslots

/-- Slots that were made for checked parameters hold the parameters. -/
theorem hasParams_of_checked : t.HasParams id params := by
  obtain ⟨hlength, hchecked⟩ := checkParameters_eq_ok hcheck
  refine ⟨f, hf, hcount.trans hlength, fun k param hk => ?_⟩
  obtain ⟨p, hp, hok⟩ := hchecked k param hk
  obtain ⟨l, type, rfl, htype, hspan, -⟩ := checkParameter_eq_ok hok
  obtain ⟨var, hslot, hv⟩ := hslots k p hp
  exact ⟨l, p.name, type, p.type, var, rfl, htype, hslot, hspan ▸ hv⟩

/-- The function is known by the types of the parameters. -/
theorem known_of_checked {node : Nat} (hmain : id ≠ main) (hname : Text.isIdentifier name = true)
    (hnode : (node, id) ∈ t.nodeFunctions) :
    Known host t { name, params := checked.map (·.type), callee := .script id } := by
  obtain ⟨-, hgood⟩ := checkParameters_declared hcheck
  refine ⟨hmain, hname, ⟨node, hnode⟩, f, hf, by simp [hcount], fun k type hk => ?_⟩
  rw [List.getElem?_map] at hk
  obtain ⟨p, hp, rfl⟩ := Option.map_eq_some_iff.mp hk
  obtain ⟨var, hslot, hv⟩ := hslots k p hp
  exact ⟨_, _, hslot, hv, rfl, (hgood p (List.mem_of_getElem? hp)).2⟩

end Checked

theorem builds_openFunction {l : Label} {params : List Expr} {opened : Option (Nat × Nat)}
    {b' : Building} (e : Expr) (he : e.id = l.id) (hfun : e.isFunction = true)
    (h : b.openFunction scope l name params = (opened, b')) (hclean : b'.problems = []) :
    b.problems = [] ∧ (∀ p ∈ params, Declared p) ∧ ∃ inner,
      opened = some (inner, b.tree.functions.size) ∧
      (Wf host b.tree → function < b.tree.functions.size →
        b.tree.functions.size < b'.tree.functions.size ∧
        After host (fun y => y = e) (fun _ => False) (fun t => (l.id, inner) ∈ t.nodeScopes ∧
          (l.id, b.tree.functions.size) ∈ t.nodeFunctions ∧
          t.HasParams b.tree.functions.size params) b.tree b'.tree) := by
  obtain ⟨hname, checked, hcheck, b₁, inner, hproblems, -, htree₁, hinner, hopened, hparams,
    htree⟩ := openFunction_clean h hclean
  obtain ⟨hdeclared, hgood⟩ := checkParameters_declared hcheck
  refine ⟨hproblems ▸ declareParams_clean hparams, hdeclared, inner, hopened,
    fun hwf hfunction => ?_⟩
  have hmain : b.tree.functions.size ≠ main := Nat.ne_of_gt (Nat.zero_lt_of_lt hfunction)
  have hlayout₁ : Layout host b₁.tree := htree₁ ▸ (hwf.toLayout.addFunction hmain).addScope
  have hgrows₁ : Grows b.tree b₁.tree := htree₁ ▸ Grows.addFunction.trans .addScope
  have hf₁ : b₁.tree.functions[b.tree.functions.size]? =
      some { id := b.tree.functions.size, name, span := l.span } := by
    rw [htree₁, functions_addScope, functions_addFunction]
  obtain ⟨hquiet, hlayout₂, added, hf₂, hlength, hadded⟩ :=
    declareParams_step checked hparams hlayout₁ hf₁ fun p hp => (hgood p hp).1
  have hlayout₃ : Layout host b'.tree := htree ▸ hlayout₂.setParams hf₂ (by simp [hlength])
  -- the number of parameters was set in the new function only
  have hgrows : Grows b.tree b'.tree :=
    htree ▸ (hgrows₁.trans hquiet.toGrows).setParams (Nat.le_refl _)
  have hf₃ : b'.tree.functions[b.tree.functions.size]? =
      some { id := b.tree.functions.size, name, span := l.span, slots := added,
             paramCount := checked.length } := by
    simp [htree, setParams, Array.getElem?_modify, hf₂]
  obtain ⟨hscopes, hfunctions, hloops, hsize⟩ := (htree₁ ▸ hquiet).opened b.tree.functions.size
    checked.length
  rw [← htree] at hscopes hfunctions hloops hsize
  have hnode : (l.id, b.tree.functions.size) ∈ b'.tree.nodeFunctions :=
    hfunctions ▸ List.mem_cons_self
  simp only [List.length_nil, Nat.zero_add] at hadded
  have hhas := hasParams_of_checked hcheck hf₃ rfl (htree ▸ hadded)
  have hdeclares (o : Overload) (ho : b'.tree.Declares o) :
      o = { name, params := checked.map (·.type), callee := .script b.tree.functions.size } ∨
        b.tree.Declares o := by
    rw [htree] at ho
    have ho₁ := hquiet.declares o ho
    rw [htree₁] at ho₁
    exact declares_addOverload (declares_pushScope ho₁)
  refine ⟨(Array.getElem?_eq_some_iff.mp hf₃).1, ?_⟩
  exact {
    wf := { hlayout₃ with
      overloads := by
        intro o ho
        rcases hdeclares o ho with rfl | ho
        · exact known_of_checked hcheck hf₃ rfl (htree ▸ hadded) hmain hname hnode
        · exact (hwf.overloads o ho).mono hgrows }
    grows := hgrows
    nodeScopes := hscopes ▸ .one ⟨e, rfl, he⟩
    nodeFunctions := hfunctions ▸ .one ⟨e, ⟨rfl, hfun⟩, he⟩
    loopSlots := hloops ▸ .refl
    covered := by
      intro i hold hnew
      obtain rfl : i = b.tree.functions.size := by omega
      exact ⟨l.id, hnode⟩
    left := by
      intro t hg
      refine ⟨hg.nodeScopes ?_, hg.nodeFunctions hnode, hhas.mono hg⟩
      rw [htree]
      exact hquiet.nodeScopes hinner }

theorem visitList_append (xs ys : List Expr) (b : Building) :
    visitList scope function (xs ++ ys) b =
      visitList scope function ys (visitList scope function xs b) := by
  induction xs generalizing b with
  | nil => rfl
  | cons x xs ih => exact ih _

theorem visitOption_eq (e : Option Expr) (b : Building) :
    visitOption scope function e b = visitList scope function e.toList b := by
  cases e <;> rfl

theorem visit_forLoop {l : Label} {init condition step : Option Expr} {body : Expr} (b : Building) :
    visit scope function (.forLoop l init condition step body) b =
      visitList (b.openScope scope function l.id).1 function
        (Expr.forLoop l init condition step body).children (b.openScope scope function l.id).2 := by
  simp only [visit, visitOption_eq, Expr.children, visitList_append]
  rfl

theorem visit_plain {e : Expr} (hscope : e.opensScope = false) (hfun : e.isFunction = false)
    (hvar : e.isVariable = false) (b : Building) :
    visit scope function e b = visitList scope function e.children b := by
  cases e with
  | var | function | block | forLoop | forTo | forIn => contradiction
  | cond l c t e =>
    rw [visit, visitOption_eq]
    rfl
  | ret l value =>
    rw [visit, visitOption_eq]
    rfl
  | element l target index =>
    rw [visit, visitOption_eq]
    rfl
  | _ => rfl

/-- The walk over a node leaves it placed, with all below. -/
def BuildsNode (host : Host) (e : Expr) : Prop :=
  ∀ (lo hi scope function : Nat) (b : Building), Expr.Numbered lo e hi →
    Builds host function (fun y => y ∈ e.nodes) (fun y => y ∈ e.nodes)
      (fun t => Placed t scope function e) b (visit scope function e b)

theorem builds_list {es : List Expr} {lo hi : Nat} (h : ∀ x ∈ es, BuildsNode host x)
    (hn : Expr.NumberedAll lo es hi) (b : Building) :
    Builds host function (fun y => ∃ x ∈ es, y ∈ x.nodes) (fun y => ∃ x ∈ es, y ∈ x.nodes)
      (fun t => ∀ x ∈ es, Placed t scope function x) b (visitList scope function es b) := by
  induction es generalizing lo b with
  | nil => exact (Builds.refl b).mono nofun nofun fun _ _ => nofun
  | cons x es ih =>
    cases hn with
    | cons head tail =>
      have hfirst := h x List.mem_cons_self _ _ scope function b head
      have hrest := ih (fun y hy => h y (List.mem_cons_of_mem x hy)) tail
        (visit scope function x b)
      have hapart (y z : Expr) (hy : y ∈ x.nodes) (hz : ∃ x ∈ es, z ∈ x.nodes) :
          y.id ≠ z.id := by
        obtain ⟨x', hx', hz⟩ := hz
        obtain ⟨a, b, hx, hlo, -⟩ := tail.mem hx'
        have := (head.id_bounds hy).2
        have := (hx.id_bounds hz).1
        omega
      have hmem (y : Expr) (hy : y ∈ x.nodes ∨ ∃ x ∈ es, y ∈ x.nodes) :
          ∃ x' ∈ x :: es, y ∈ x'.nodes := by
        rcases hy with hy | ⟨x', hx', hy⟩
        · exact ⟨x, List.mem_cons_self, hy⟩
        · exact ⟨x', List.mem_cons_of_mem x hx', hy⟩
      refine (hfirst.trans hrest hapart hapart).mono hmem hmem ?_
      rintro t ⟨hx, hes⟩
      exact List.forall_mem_cons.mpr ⟨hx, hes⟩

/-- A node that opens a scope: it is entered, then some of its children are visited. -/
theorem builds_scoped {e : Expr} {b₁ : Building} {lo hi lo' hi' inner : Nat} {rest : List Expr}
    (hopens : e.opensScope = true) (hn : Expr.Numbered lo e hi)
    (henter : Builds host function (fun y => y = e) (fun y => y = e)
      (fun t => (e.id, inner) ∈ t.nodeScopes ∧
        (∀ l item iterable body, e = .forIn l item iterable body → t.HasLoop function l.id) ∧
        ∀ x ∈ e.children, x ∈ rest ∨ Declared x) b b₁)
    (hrest : ∀ x ∈ rest, x ∈ e.children) (hnodes : ∀ x ∈ rest, BuildsNode host x)
    (hnumbered : Expr.NumberedAll lo' rest hi') :
    Builds host function (fun y => y ∈ e.nodes) (fun y => y ∈ e.nodes)
      (fun t => Placed t scope function e) b (visitList inner function rest b₁) := by
  have hapart (y z : Expr) (hy : y = e) (hz : ∃ x ∈ rest, z ∈ x.nodes) : y.id ≠ z.id := by
    obtain ⟨x, hx, hz⟩ := hz
    obtain ⟨a, b, hnx, hlo, -⟩ := hn.children_numbered.mem (hrest x hx)
    have := (hnx.id_bounds hz).1
    rw [hy, hn.id_eq]
    omega
  have hmem (y : Expr) (hy : y = e ∨ ∃ x ∈ rest, y ∈ x.nodes) : y ∈ e.nodes := by
    rcases hy with rfl | ⟨x, hx, hy⟩
    · exact Expr.mem_nodes_self _
    · exact Expr.mem_nodes_child (hrest x hx) hy
  refine (henter.trans (builds_list hnodes hnumbered b₁) hapart hapart).mono hmem hmem ?_
  rintro t ⟨⟨hscope, hloop, hchildren⟩, hplaced⟩
  refine .opening hopens hscope hloop fun x hx => ?_
  rcases hchildren x hx with hx | hx
  · exact hplaced x hx
  · exact .declared hx

theorem builds_plain {e : Expr} (hscope : e.opensScope = false) (hfun : e.isFunction = false)
    (hvar : e.isVariable = false) (h : ∀ x ∈ e.children, BuildsNode host x) :
    BuildsNode host e := by
  intro lo hi scope function b hn
  rw [visit_plain hscope hfun hvar]
  have hmem (y : Expr) (hy : ∃ x ∈ e.children, y ∈ x.nodes) : y ∈ e.nodes :=
    Expr.mem_nodes.mpr (.inr hy)
  exact (builds_list h hn.children_numbered b).mono hmem hmem fun t ht =>
    .plain hscope hfun hvar ht

theorem builds_var {l : Label} {d : Option Expr} : BuildsNode host (.var l name d) := by
  intro lo hi scope function b hn
  cases d with
  | none =>
    refine (Builds.refl b).mono nofun nofun fun t _ => .declared ⟨l, name, none, rfl, nofun⟩
  | some type =>
    refine builds_declare.mono nofun nofun fun t htype =>
      .declared ⟨l, name, some type, rfl, ?_⟩
    rintro _ ⟨⟩
    exact htype

theorem builds_function {l : Label} {params : List Expr} {body : Expr}
    (h : BuildsNode host body) : BuildsNode host (.function l name params body) := by
  intro lo hi scope function b hn hclean
  have hmem : body ∈ (Expr.function l name params body).children := by simp
  obtain ⟨lo', hi', hbody, hlo, -⟩ := hn.children_numbered.mem hmem
  rw [visit] at hclean ⊢
  cases hopen : b.openFunction scope l name params with
  | mk opened b₁ =>
    rw [hopen] at hclean
    have hclean₁ : b₁.problems = [] := by
      cases opened with
      | none => exact hclean
      | some place => exact (h lo' hi' place.1 place.2 b₁ hbody hclean).1
    obtain ⟨hstart, hparams, inner, rfl, henter⟩ := builds_openFunction
      (.function l name params body) rfl rfl hopen hclean₁
    refine ⟨hstart, fun hwf hfunction => ?_⟩
    obtain ⟨hsize, hfirst⟩ := henter hwf hfunction
    have hsecond := (h lo' hi' inner _ b₁ hbody hclean).2 hfirst.wf hsize
    refine (hfirst.trans hsecond ?_ nofun).mono ?_ ?_ ?_
    · rintro y z rfl hz
      have := (hbody.id_bounds hz).1
      rw [hn.id_eq]
      omega
    · rintro y (rfl | hy)
      · exact Expr.mem_nodes_self _
      · exact Expr.mem_nodes_child hmem hy
    · rintro y (hy | hy)
      · exact hy.elim
      · exact Expr.mem_nodes_child hmem hy
    · rintro t ⟨⟨hscope, hnode, -⟩, hplaced⟩
      exact .function hscope hnode hparams hplaced

theorem builds_block {l : Label} {body : List Expr} (h : ∀ x ∈ body, BuildsNode host x) :
    BuildsNode host (.block l body) := by
  intro lo hi scope function b hn
  have hopen : Builds host function _ _ _ b (b.openScope scope function l.id).2 :=
    builds_openScope (.block l body)
  exact builds_scoped rfl hn (hopen.mono (fun _ h => h) nofun fun t ht =>
    ⟨ht, nofun, fun x hx => .inl hx⟩) (fun _ h => h) h hn.children_numbered

theorem builds_forLoop {l : Label} {init condition step : Option Expr} {body : Expr}
    (h : ∀ x ∈ (Expr.forLoop l init condition step body).children, BuildsNode host x) :
    BuildsNode host (.forLoop l init condition step body) := by
  intro lo hi scope function b hn
  have hopen : Builds host function _ _ _ b (b.openScope scope function l.id).2 :=
    builds_openScope (.forLoop l init condition step body)
  rw [visit_forLoop]
  exact builds_scoped rfl hn (hopen.mono (fun _ h => h) nofun fun t ht =>
    ⟨ht, nofun, fun x hx => .inl hx⟩) (fun _ h => h) h hn.children_numbered

/-- The scope and the variable of a loop. -/
theorem builds_enterLoop (e item : Expr) (scope : Nat) :
    Builds host function (fun y => y = e) (fun _ => False)
      (fun t => (e.id, (b.openScope scope function e.id).1) ∈ t.nodeScopes ∧ Declared item) b
      ((b.openScope scope function e.id).2.declareLoopVariable
        (b.openScope scope function e.id).1 function item) := by
  refine ((builds_openScope e).trans (builds_loopVariable item) nofun nofun).mono ?_ ?_
    fun _ h => h
  · rintro y (hy | hy)
    · exact hy
    · exact hy.elim
  · rintro y (hy | hy) <;> exact hy

theorem builds_forTo {l : Label} {counter start bound body : Expr} {direction : Direction}
    (h : ∀ x ∈ [start, bound, body], BuildsNode host x) :
    BuildsNode host (.forTo l counter start bound direction body) := by
  intro lo hi scope function b hn
  have hrest : ∃ mid, Expr.NumberedAll mid [start, bound, body] hi := by
    cases hn.children_numbered with
    | cons _ tail => exact ⟨_, tail⟩
  obtain ⟨mid, hrest⟩ := hrest
  refine builds_scoped rfl hn ((builds_enterLoop (.forTo l counter start bound direction body)
    counter scope).mono (fun _ h => h) nofun ?_) (fun x hx => List.mem_cons_of_mem counter hx) h hrest
  rintro t ⟨hscope, hdeclared⟩
  refine ⟨hscope, nofun, fun x hx => ?_⟩
  rcases List.mem_cons.mp hx with rfl | hx
  · exact .inr hdeclared
  · exact .inl hx

theorem builds_forIn {l : Label} {item iterable body : Expr}
    (h : ∀ x ∈ [iterable, body], BuildsNode host x) :
    BuildsNode host (.forIn l item iterable body) := by
  intro lo hi scope function b hn
  have hrest : ∃ mid, Expr.NumberedAll mid [iterable, body] hi := by
    cases hn.children_numbered with
    | cons _ tail => exact ⟨_, tail⟩
  obtain ⟨mid, hrest⟩ := hrest
  -- the scope and the variables of the loop stand under the same number in different tables
  refine builds_scoped rfl hn (((builds_enterLoop (.forIn l item iterable body) item scope).trans
    (builds_loopSlots (.forIn l item iterable body) rfl) nofun nofun).mono ?_ ?_ ?_)
    (fun x hx => List.mem_cons_of_mem item hx) h hrest
  · rintro y (hy | hy)
    · exact hy
    · exact hy.elim
  · rintro y (hy | hy)
    · exact hy.elim
    · exact hy
  · rintro t ⟨⟨hscope, hdeclared⟩, hloop⟩
    refine ⟨hscope, ?_, fun x hx => ?_⟩
    · rintro _ _ _ _ ⟨⟩
      exact hloop
    · rcases List.mem_cons.mp hx with rfl | hx
      · exact .inr hdeclared
      · exact .inl hx

theorem buildsNode (e : Expr) : BuildsNode host e := by
  induction e using Expr.children_induction with
  | step e ih =>
    cases e with
    | var => exact builds_var
    | function l name params body => exact builds_function (ih body (by simp))
    | block => exact builds_block ih
    | forLoop => exact builds_forLoop ih
    | forTo l counter => exact builds_forTo fun x hx => ih x (List.mem_cons_of_mem counter hx)
    | forIn l item => exact builds_forIn fun x hx => ih x (List.mem_cons_of_mem item hx)
    | _ => exact builds_plain rfl rfl rfl ih

end Building

end TurtleScript
