import TurtleScript.Proofs.Scope.Entering
import TurtleScript.Proofs.Scope.Facts

/-!
# What a walk adds

The facts of the tree grow along the walk, whether or not problems are found. Into a scope that
was there before, a walk puts names only if it stands in that scope: those of the declarations
below the node that stand in no scope of their own.

A loop whose variable is not declared takes a variable that it finds. Which one it finds depends
on what has been declared when the walk comes there; the loop seeks its variable outside the
node if nothing inside has declared it before.
-/
namespace TurtleScript

open ScopeTree

/-- What may be declared is not hidden. -/
theorem not_hidden {name : String} (h : Text.isIdentifier name = true) :
    ¬ HiddenName (foldName name) := by
  rintro ⟨n, hn⟩
  apply not_reserved h
  refine @reserved_of_foldName (foldName name) name (foldName_foldName name) ?_
  rcases hn with hn | hn
  · rw [hn]
    exact Building.reserved_array n
  · rw [hn]
    exact Building.reserved_index n

namespace Expr

/-- The node, or one below it in the same scope, declares a variable of this folded name. -/
inductive Declares (key : String) : Expr → Prop where
  | here (l : Label) {name : String} (type : Expr) (name_eq : foldName name = key) :
      Declares key (.var l name (some type))
  | inside {e c : Expr} (shut : e.opens = false) (child : c ∈ e.visited) (declares : Declares key c) :
      Declares key e

/-- The node declares the name in the scope that it opens, as a parameter or as the declared
variable of a loop. -/
def Binds (key : String) (e : Expr) : Prop :=
  ∃ l name type, foldName name = key ∧ (e.loopVariable? = some (.var l name (some type)) ∨
    ∃ l' name' params body, e = .function l' name' params body ∧ .var l name (some type) ∈ params)

/-- Inside the node is a loop through a variable of this folded name that is not declared by the
loop nor, before the walk comes there, in one of the scopes inside the node. -/
inductive Seeks (key : String) : Expr → Prop where
  | loop {e : Expr} {l : Label} {name : String} (loop : e.loopVariable? = some (.var l name none))
      (name_eq : foldName name = key) : Seeks key e
  | inside {e c : Expr} {pre post : List Expr} (children : e.visited = pre ++ c :: post)
      (unbound : ¬ e.Binds key) (before : ∀ d ∈ pre, ¬ d.Declares key) (seeks : Seeks key c) :
      Seeks key e

end Expr

namespace Building

theorem declareLoopSlots_eq {b : Building} {scope function array index : Nat} {l : Label}
    {t₁ t₂ : ScopeTree}
    (harray : b.tree.declareLocal scope function s!"$array{l.id}" none l.span = .ok (array, t₁))
    (hindex : t₁.declareLocal scope function s!"$index{l.id}" (some .double) l.span =
      .ok (index, t₂)) :
    b.declareLoopSlots scope function l = { b with tree := t₂.addLoop l.id ⟨array, index⟩ } := by
  rw [declareLoopSlots, harray]
  simp only [Except.toOption, Option.elim_some, hindex]

theorem scopes_openScope {b : Building} {scope function node : Nat} :
    (b.openScope scope function node).2.tree.scopes.size = b.tree.scopes.size + 1 := by
  simp [openScope, pushScope, bindNode]

theorem scopes_offerFunction {b : Building} {scope : Nat} {l : Label} {name : String}
    {types : List Ty} : (b.offerFunction scope l name types).tree.scopes.size = b.tree.scopes.size := by
  rw [offerFunction]
  cases h : (b.registerFunction l name).tree.declareOverload scope
      ⟨name, types, .script b.tree.functions.size⟩ with
  | error problem => rfl
  | ok tree =>
    obtain rfl := declareOverload_eq_ok h
    simp [accept, addOverload, registerFunction, addFunctionNode, pushFunction_eq]

/-- What was said stays said, a problem stays, and new names stand where `new` allows them. -/
structure Leads (new : Nat → String → Prop) (b c : Building) : Prop where
  clean : c.problems = [] → b.problems = []
  facts : b.tree.facts ⊆ c.tree.facts
  extent : b.tree.extent ≤ c.tree.extent
  names : ∀ {i : Nat} {key : String} {id : Nat}, .name i key id ∈ c.tree.facts →
    .name i key id ∈ b.tree.facts ∨ new i key

/-- Growth with any new names. -/
abbrev Grown : Building → Building → Prop := Leads fun _ _ => True

namespace Leads

variable {new new' : Nat → String → Prop} {b c d : Building} {scope function : Nat}
  {name : String} {type : Option Ty} {span : Span}

theorem refl (b : Building) : Leads new b b :=
  ⟨fun h => h, fun _ h => h, Extent.le_refl _, fun h => .inl h⟩

theorem trans (h : Leads new b c) (h' : Leads new c d) : Leads new b d where
  clean := fun hd => h.clean (h'.clean hd)
  facts := h.facts.trans h'.facts
  extent := Extent.le_trans h.extent h'.extent
  names := fun hd => (h'.names hd).elim h.names .inr

theorem mono (h : Leads new b c) (hnew : ∀ i key, new i key → new' i key) : Leads new' b c :=
  { h with names := fun hc => (h.names hc).imp_right (hnew _ _) }

theorem grown (h : Leads new b c) : Grown b c := h.mono fun _ _ _ => trivial

theorem append (b : Building) (problems : List Diagnostic) :
    Leads new b { b with problems := b.problems ++ problems } :=
  ⟨fun h => (List.append_eq_nil_iff.mp h).1, fun _ h => h, Extent.le_refl _, fun h => .inl h⟩

theorem adds {n : Extent} {added : Set Fact} {tree : ScopeTree} (h : Adds n added b.tree tree)
    (hnew : ∀ i key id, .name i key id ∈ added → new i key) : Leads new b { b with tree } := by
  constructor
  · exact fun hclean => hclean
  · rw [h.facts]
    exact Set.subset_union_left
  · rw [h.extent]
    exact Extent.le_add _ _
  · intro i key id hfact
    rw [h.facts] at hfact
    exact hfact.imp_right (hnew i key id)

theorem addsLocal {r : Nat × ScopeTree} (hnew : new scope (foldName name))
    (h : b.tree.declareLocal scope function name type span = .ok r) :
    Leads new b { b with tree := r.2 } := by
  refine adds (adds_declareLocal h).2 ?_
  rintro i key id (hvar | ⟨hname, -⟩)
  · cases hvar
  · cases hname
    exact hnew

theorem declareLocal (hnew : new scope (foldName name)) :
    Leads new b (b.declareLocal scope function name type span) := by
  rw [Building.declareLocal]
  cases h : b.tree.declareLocal scope function name type span with
  | error problem => exact append b _
  | ok r => exact addsLocal hnew h

theorem declare {type : Expr} (hnew : new scope (foldName name)) :
    Leads new b (b.declare scope function name type span) := by
  rw [Building.declare]
  split
  · exact append b _
  · split
    · exact append b _
    · exact declareLocal hnew

theorem declareLoopVariable (hnew : ∀ key, new scope key) (e : Expr) :
    Leads new b (b.declareLoopVariable scope function e) := by
  rw [declareLoopVariable.eq_def]
  split
  · exact declare (hnew _)
  · split
    · exact refl b
    · split
      · exact append b _
      · exact declareLocal (hnew _)
  · exact append b _

theorem openScope {node : Nat} : Leads new b (b.openScope scope function node).2 :=
  adds adds_addScope (by simp)

theorem declareOverload {o : Overload} :
    Leads new b (b.accept span (b.tree.declareOverload scope o)) := by
  cases h : b.tree.declareOverload scope o with
  | error problem => exact append b _
  | ok tree => exact adds (adds_declareOverload h) (by simp [overloadFacts])

theorem tryLocal {tree : ScopeTree} {r : Except ScopeProblem (Nat × ScopeTree)}
    (hnew : new scope (foldName name)) (h : Leads new b { b with tree })
    (hr : tree.declareLocal scope function name type span = r) :
    Leads new b { b with tree := r.toOption.elim tree Prod.snd } := by
  cases r with
  | error problem => exact h
  | ok r => exact h.trans (addsLocal hnew hr)

theorem declareLoopSlots {l : Label} (hnew : ∀ key, new scope key) :
    Leads new b (b.declareLoopSlots scope function l) := by
  rw [Building.declareLoopSlots]
  generalize harray : b.tree.declareLocal scope function s!"$array{l.id}" none l.span = array
  generalize hindex : (array.toOption.elim b.tree Prod.snd).declareLocal scope function
    s!"$index{l.id}" (some .double) l.span = index
  have hboth := tryLocal (hnew _) (tryLocal (hnew _) (refl b) harray) hindex
  generalize index.toOption.elim (array.toOption.elim b.tree Prod.snd) Prod.snd = tree at hboth
  cases array with
  | error problem =>
    cases index with
    | error problem' => exact (hboth.trans (append _ _)).trans (append _ _)
    | ok => exact hboth.trans (append _ _)
  | ok array =>
    cases index with
    | error problem' => exact hboth.trans (append _ _)
    | ok index => exact hboth.trans (adds adds_addLoop (by simp))

theorem declareParams {inner id : Nat} (hnew : ∀ key, new inner key) (params : List Parameter) :
    Leads new b (b.declareParams inner id params) := by
  induction params generalizing b with
  | nil => exact refl b
  | cons p params ih => exact (declareLocal (hnew _)).trans ih

theorem offerFunction {l : Label} {types : List Ty} :
    Leads new b (b.offerFunction scope l name types) := by
  have hregister : Leads new b (b.registerFunction l name) := adds adds_addFunctionNode (by simp)
  exact hregister.trans declareOverload

theorem declareBody {id node : Nat} (hnew : ∀ key, new b.tree.scopes.size key)
    (params : List Parameter) :
    Leads new (b.openScope scope id node).2 (b.openBody scope id node params) :=
  (declareParams hnew params).trans (adds adds_setParams (by simp))

theorem openBody {id node : Nat} (hnew : ∀ key, new b.tree.scopes.size key)
    (params : List Parameter) : Leads new b (b.openBody scope id node params) :=
  openScope.trans (declareBody hnew params)

theorem openFunction {l : Label} {params : List Expr} (hnew : ∀ key, new b.tree.scopes.size key) :
    Leads new b (b.openFunction scope l name params).2 := by
  cases hname : Text.isIdentifier name with
  | false =>
    rw [Building.openFunction, if_pos (by simp [hname])]
    exact append b _
  | true =>
    cases hcheck : checkParameters name params with
    | error problems =>
      rw [Building.openFunction, if_neg (by simp [hname]), hcheck]
      exact append b problems
    | ok checked =>
      rw [openFunction_of_checked hname hcheck]
      rw [← scopes_offerFunction (b := b)] at hnew
      exact offerFunction.trans (openBody hnew checked)

/-- Entering a node puts names into the scope where it stands only if it declares them, and
otherwise into a scope of its own. -/
theorem enter (scope function : Nat) (e : Expr) :
    Leads (fun i key => i = scope ∧ e.Declares key ∨ b.tree.scopes.size ≤ i) b
      (Building.enter scope function b e).2 := by
  have hown (key : String) : b.tree.scopes.size = scope ∧ e.Declares key ∨
      b.tree.scopes.size ≤ b.tree.scopes.size := .inr (Nat.le_refl _)
  cases e with
  | var l name type =>
    cases type with
    | none => exact refl b
    | some type => exact declare (.inl ⟨rfl, .here l type rfl⟩)
  | function => exact openFunction hown
  | block | forLoop => exact openScope
  | forTo => exact openScope.trans (declareLoopVariable hown _)
  | forIn => exact openScope.trans ((declareLoopVariable hown _).trans (declareLoopSlots hown))
  | _ => exact refl b

end Leads

section Places

variable {b : Building} {scope function inner id node : Nat} {e : Expr} {key : String}

theorem lt_openScope : b.tree.scopes.size < (b.openScope scope function node).2.tree.scopes.size := by
  rw [scopes_openScope]
  exact Nat.lt_succ_self _

theorem scope_mem_openScope :
    .scope b.tree.scopes.size (some scope) ∈ (b.openScope scope function node).2.tree.facts := by
  have hadds : Adds _ _ b.tree (b.tree.addScope scope function node) := adds_addScope
  change _ ∈ (b.tree.addScope scope function node).facts
  rw [hadds.facts]
  exact .inr (.inl rfl)

theorem lt_offerFunction {l : Label} {name : String} {types : List Ty} :
    b.tree.functions.size < (b.offerFunction scope l name types).tree.functions.size := by
  have hgrown : Grown (b.registerFunction l name) (b.offerFunction scope l name types) :=
    .declareOverload
  refine Nat.lt_of_lt_of_le ?_ hgrown.extent.2.2
  simp [extent, registerFunction, addFunctionNode, pushFunction_eq]

/-- Below a node the walk stands where the node stands, or in a new scope that lies there. -/
structure Place (b : Building) (scope : Nat) (e : Expr) (inner id : Nat) (b' : Building) : Prop where
  inner_lt : inner < b'.tree.scopes.size
  id_lt : id < b'.tree.functions.size
  inner_eq : e.opens = false ∧ inner = scope ∨
    inner = b.tree.scopes.size ∧ .scope inner (some scope) ∈ b'.tree.facts

/-- A function that is entered has a good name and good parameters. -/
theorem exists_checked {l : Label} {name : String} {params : List Expr} {place : Nat × Nat}
    (h : (b.openFunction scope l name params).1 = some place) :
    Text.isIdentifier name = true ∧ ∃ checked, checkParameters name params = .ok checked := by
  rw [openFunction] at h
  split at h
  · cases h
  case isFalse hname =>
    cases hcheck : checkParameters name params with
    | error problems => simp [hcheck] at h
    | ok checked => exact ⟨by simpa using hname, checked, rfl⟩

theorem Place.of_size {b' c : Building} (h : Place c scope e inner id b')
    (hsize : c.tree.scopes.size = b.tree.scopes.size) : Place b scope e inner id b' :=
  { h with inner_eq := hsize ▸ h.inner_eq }

theorem place_openScope {b' : Building} (hfunction : function < b.tree.functions.size)
    (h : Grown (b.openScope scope function node).2 b') :
    Place b scope e b.tree.scopes.size function b' where
  inner_lt := Nat.lt_of_lt_of_le lt_openScope h.extent.1
  id_lt := Nat.lt_of_lt_of_le hfunction h.extent.2.2
  inner_eq := .inr ⟨rfl, h.facts scope_mem_openScope⟩

theorem place_openFunction {l : Label} {name : String} {params : List Expr}
    (h : (b.openFunction scope l name params).1 = some (inner, id)) :
    Place b scope e inner id (b.openFunction scope l name params).2 := by
  obtain ⟨hname, checked, hcheck⟩ := exists_checked h
  rw [openFunction_of_checked hname hcheck] at h ⊢
  cases h
  exact Place.of_size (place_openScope lt_offerFunction (.declareBody (fun _ => trivial) checked))
    scopes_offerFunction

theorem place_enter (hscope : scope < b.tree.scopes.size) (hfunction : function < b.tree.functions.size)
    (h : (enter scope function b e).1 = some (inner, id)) :
    Place b scope e inner id (enter scope function b e).2 := by
  have hstay {b' : Building} (hshut : e.opens = false) (hgrown : Grown b b')
      (h : some (scope, function) = some (inner, id)) : Place b scope e inner id b' := by
    cases h
    exact ⟨Nat.lt_of_lt_of_le hscope hgrown.extent.1, Nat.lt_of_lt_of_le hfunction hgrown.extent.2.2,
      .inl ⟨hshut, rfl⟩⟩
  cases e with
  | var l name type =>
    cases type with
    | none => exact hstay rfl (.refl b) h
    | some type => exact hstay rfl (.declare trivial) h
  | function => exact place_openFunction h
  | block | forLoop =>
    cases h
    exact place_openScope hfunction (.refl _)
  | forTo =>
    cases h
    exact place_openScope hfunction (.declareLoopVariable (fun _ => trivial) _)
  | forIn =>
    cases h
    exact place_openScope hfunction ((Leads.declareLoopVariable (fun _ => trivial) _).trans
      (.declareLoopSlots fun _ => trivial))
  | _ => exact hstay rfl (.refl b) h

end Places

section Walk

variable {b : Building} {scope function inner id : Nat} {e : Expr} {es : List Expr} {key name : String}

theorem grown_visit (scope function : Nat) (e : Expr) : Grown b (visit scope function e b) :=
  visit_preserves (P := Grown b) (fun s f e _ h => h.trans (Leads.enter s f e).grown) e scope
    function (.refl b)

theorem grown_visitList (scope function : Nat) (es : List Expr) :
    Grown b (visitList scope function es b) :=
  visitList_preserves (P := Grown b) (fun e _ _ h => h.trans (grown_visit scope function e))
    (.refl b)

theorem visitBelow_none {r : Option (Nat × Nat) × Building} (h : r.1 = none) :
    visitBelow es r = r.2 := by
  obtain ⟨_, b⟩ := r
  cases h
  rfl

theorem visitBelow_some {r : Option (Nat × Nat) × Building} (h : r.1 = some (inner, id)) :
    visitBelow es r = visitList inner id es r.2 := by
  obtain ⟨_, b⟩ := r
  cases h
  rfl

theorem grown_visitBelow (es : List Expr) (r : Option (Nat × Nat) × Building) :
    Grown r.2 (visitBelow es r) := by
  obtain ⟨_ | ⟨inner, id⟩, b⟩ := r
  · exact .refl b
  · exact grown_visitList inner id es

/-- The walk over a list that stands in one scope. -/
theorem leads_visitList
    (h : ∀ e ∈ es, ∀ b : Building, scope < b.tree.scopes.size → function < b.tree.functions.size →
      Leads (fun i key => i = scope ∧ e.Declares key ∨ b.tree.scopes.size ≤ i) b
        (visit scope function e b))
    (hscope : scope < b.tree.scopes.size) (hfunction : function < b.tree.functions.size) :
    Leads (fun i key => i = scope ∧ (∃ e ∈ es, e.Declares key) ∨ b.tree.scopes.size ≤ i) b
      (visitList scope function es b) := by
  induction es generalizing b with
  | nil => exact .refl b
  | cons e es ih =>
    obtain ⟨he, hes⟩ := List.forall_mem_cons.mp h
    have hgrown := (grown_visit (b := b) scope function e).extent
    have hrest := ih hes (Nat.lt_of_lt_of_le hscope hgrown.1) (Nat.lt_of_lt_of_le hfunction hgrown.2.2)
    refine ((he b hscope hfunction).mono ?_).trans (hrest.mono ?_)
    · rintro i key (⟨hi, hdeclares⟩ | hi)
      · exact .inl ⟨hi, e, List.mem_cons_self, hdeclares⟩
      · exact .inr hi
    · rintro i key (⟨hi, d, hd, hdeclares⟩ | hi)
      · exact .inl ⟨hi, d, List.mem_cons_of_mem e hd, hdeclares⟩
      · exact .inr (Nat.le_trans hgrown.1 hi)

/-- A walk puts names into the scope where it stands only if the node declares them there. -/
theorem leads_visit (e : Expr) (hscope : scope < b.tree.scopes.size)
    (hfunction : function < b.tree.functions.size) :
    Leads (fun i key => i = scope ∧ e.Declares key ∨ b.tree.scopes.size ≤ i) b
      (visit scope function e b) := by
  induction e using Expr.children_induction generalizing b scope function with
  | step e ih =>
    rw [visit_eq]
    have henter : Leads _ b (enter scope function b e).2 := .enter scope function e
    have hplaces (inner id : Nat) (h : (enter scope function b e).1 = some (inner, id)) :=
      place_enter hscope hfunction h
    cases hopened : enter scope function b e with
    | mk opened b₁ =>
      rw [hopened] at henter hplaces
      cases opened with
      | none => exact henter
      | some place =>
        have hplace := hplaces place.1 place.2 rfl
        refine henter.trans ((leads_visitList (fun c hc b => ih c (Expr.visited_subset hc))
          hplace.inner_lt hplace.id_lt).mono ?_)
        rintro i key (⟨rfl, c, hc, hdeclares⟩ | hi)
        · rcases hplace.inner_eq with ⟨hshut, hinner⟩ | ⟨hinner, -⟩
          · exact .inl ⟨hinner, .inside hshut hc hdeclares⟩
          · exact .inr (Nat.le_of_eq hinner.symm)
        · exact .inr (Nat.le_trans henter.extent.1 hi)

theorem named_of_declareLocal {type : Option Ty} {span : Span}
    (h : (b.declareLocal scope function name type span).problems = [])
    (hscope : scope < b.tree.scopes.size) (hname : ¬ HiddenName (foldName name)) :
    ∃ id, .name scope (foldName name) id ∈
      (b.declareLocal scope function name type span).tree.facts := by
  rw [declareLocal] at h ⊢
  cases hok : b.tree.declareLocal scope function name type span with
  | error problem => simp [hok, accept, report] at h
  | ok r =>
    refine ⟨b.tree.vars.size, ?_⟩
    change _ ∈ r.2.facts
    rw [(adds_declareLocal hok).2.facts]
    exact .inr (.inr ⟨rfl, hscope, hname⟩)

theorem named_of_declare {type : Expr} {span : Span}
    (h : (b.declare scope function name type span).problems = [])
    (hscope : scope < b.tree.scopes.size) :
    ∃ id, .name scope (foldName name) id ∈ (b.declare scope function name type span).tree.facts := by
  rw [declare] at h ⊢
  split at h
  · simp [report] at h
  case isFalse hname =>
    rw [if_neg hname]
    cases hty : declaredType? type with
    | none => simp [hty, report] at h
    | some ty =>
      rw [hty] at h
      exact named_of_declareLocal h hscope (not_hidden (by simpa using hname))

/-- At a node that opens no scope the walk goes on where it stands. -/
theorem visit_shut {c : Expr} (hshut : e.opens = false) (hc : c ∈ e.visited) :
    visit scope function e b = visitList scope function e.visited b := by
  rw [visit_eq]
  cases e with
  | var => cases hc
  | function | block | forLoop | forTo | forIn => cases hshut
  | _ => rfl

/-- What a node declares where it stands has a name there after the walk. -/
theorem named_of_declares (hdeclares : e.Declares key)
    (h : (visit scope function e b).problems = []) (hscope : scope < b.tree.scopes.size) :
    ∃ id, .name scope key id ∈ (visit scope function e b).tree.facts := by
  induction hdeclares generalizing b with
  | here l type hname =>
    subst hname
    exact named_of_declare h hscope
  | @inside e c hshut hc _ ih =>
    rw [visit_shut hshut hc] at h ⊢
    obtain ⟨pre, post, hvisited⟩ := List.append_of_mem hc
    rw [hvisited, visitList_append] at h ⊢
    have hrest : Grown (visit scope function c (visitList scope function pre b)) _ :=
      grown_visitList scope function post
    have hpre : Grown b _ := grown_visitList scope function pre
    obtain ⟨id, hid⟩ := ih (hrest.clean h) (Nat.lt_of_lt_of_le hscope hpre.extent.1)
    exact ⟨id, hrest.facts hid⟩

theorem named_of_declareParams {params : List Parameter} {p : Parameter} (hp : p ∈ params)
    (hparams : ∀ p ∈ params, Text.isIdentifier p.name = true)
    (h : (b.declareParams inner id params).problems = []) (hinner : inner < b.tree.scopes.size) :
    ∃ var, .name inner (foldName p.name) var ∈ (b.declareParams inner id params).tree.facts := by
  induction params generalizing b with
  | nil => cases hp
  | cons q params ih =>
    obtain ⟨hq, hparams⟩ := List.forall_mem_cons.mp hparams
    have hfirst : Grown b (b.declareLocal inner id q.name (some q.type) q.span) :=
      .declareLocal trivial
    have hrest : Grown (b.declareLocal inner id q.name (some q.type) q.span)
        (b.declareParams inner id (q :: params)) := .declareParams (fun _ => trivial) params
    rcases List.mem_cons.mp hp with rfl | hp
    · obtain ⟨var, hvar⟩ := named_of_declareLocal (hrest.clean h) hinner (not_hidden hq)
      exact ⟨var, hrest.facts hvar⟩
    · exact ih hp hparams h (Nat.lt_of_lt_of_le hinner hfirst.extent.1)

/-- What a node binds has a name in the scope it opens. -/
theorem named_of_binds (hbinds : e.Binds key) (hopened : (enter scope function b e).1 = some (inner, id))
    (h : (enter scope function b e).2.problems = []) :
    ∃ var, .name inner key var ∈ (enter scope function b e).2.tree.facts := by
  obtain ⟨l, name, type, rfl, hloop | ⟨l', name', params, body, rfl, hparam⟩⟩ := hbinds
  · cases e with
    | forTo l' counter start bound direction body =>
      cases hloop
      cases hopened
      exact named_of_declare h lt_openScope
    | forIn l' item iterable body =>
      cases hloop
      cases hopened
      have hslots : Grown ((b.openScope scope function l'.id).2.declareLoopVariable
          b.tree.scopes.size function (.var l name (some type)))
          (enter scope function b (.forIn l' (.var l name (some type)) iterable body)).2 :=
        .declareLoopSlots fun _ => trivial
      obtain ⟨var, hvar⟩ := named_of_declare (hslots.clean h) lt_openScope
      exact ⟨var, hslots.facts hvar⟩
    | _ => cases hloop
  · obtain ⟨hname, checked, hcheck⟩ := exists_checked hopened
    rw [enter, openFunction_of_checked hname hcheck] at hopened h ⊢
    cases hopened
    obtain ⟨k, hk⟩ := List.getElem?_of_mem hparam
    obtain ⟨p, hp, hparam⟩ := (checkParameters_eq_ok hcheck).2 k _ hk
    obtain ⟨_, _, hvar, -⟩ := checkParameter_eq_ok hparam
    cases hvar
    -- the number of parameters, which comes last, is no fact
    change ∃ var, _ ∈ (ScopeTree.setParams _ _ _).facts
    rw [adds_setParams.facts, Set.union_empty]
    exact named_of_declareParams (List.mem_of_getElem? hp)
      (fun q hq => ((checkParameters_declared hcheck).2 q hq).2) h lt_openScope

end Walk

end Building

end TurtleScript
