import TurtleScript.Proofs.Code.Linking
import TurtleScript.Proofs.Typing.Changes

/-!
# Every node, variable and function gets its type

The resolver goes through a tree by a rule of its own for every kind of node. Yet in a program
that it accepts it has come to each node that is not part of the type of a declaration, in the
scope and the function where the node sits. So each of these nodes has a type, no variable is
left without one, and the module that is linked takes all its types from the tree.
-/
namespace TurtleScript

open ScopeTree Semantics

/-- The variable has a type. -/
def ScopeTree.HasType (t : ScopeTree) (id : Nat) : Prop :=
  ∃ v type, t.vars[id]? = some v ∧ v.type = some type

section Changes

variable {p : Expr → Prop} {e : Expr} {s s' : Typing} {id : Nat}

theorem Change.types (h : Change e s s') :
    s'.types = s.types ∨ ∃ type, s'.types = (e.id, type) :: s.types := by
  cases h with
  | typed _ _ type => exact .inr ⟨type, rfl⟩
  | visited | bound | iterated | returned => exact .inl rfl

/-- The types of nodes that had one stay, and the nodes that get one are those that the changes
are made for. -/
theorem Changes.types (h : Changes p s s') :
    ∃ added, s'.types = added ++ s.types ∧ ∀ q ∈ added, ∃ e, p e ∧ e.id = q.1 := by
  induction h with
  | refl => exact ⟨[], rfl, nofun⟩
  | tail _ hstep ih =>
    obtain ⟨added, htypes, hadded⟩ := ih
    obtain ⟨e, he, hchange⟩ := hstep
    rcases hchange.types with hsame | ⟨type, hnew⟩
    · exact ⟨added, hsame.trans htypes, hadded⟩
    · refine ⟨(e.id, type) :: added, hnew.trans (congrArg _ htypes), ?_⟩
      exact List.forall_mem_cons.mpr ⟨⟨e, he, rfl⟩, hadded⟩

theorem Changes.suffix (h : Changes p s s') : s.types <:+ s'.types := by
  obtain ⟨added, htypes, -⟩ := h.types
  exact ⟨added, htypes.symm⟩

theorem ScopeTree.HasType.setVariableType {t : ScopeTree} {id' : Nat} {type : Ty}
    (h : t.HasType id) : (t.setVariableType id' type).HasType id := by
  obtain ⟨v, old, hv, hold⟩ := h
  rw [HasType, vars_setVariableType, hv]
  by_cases hid : id' = id
  · exact ⟨_, type, rfl, if_pos hid⟩
  · exact ⟨_, old, rfl, (if_neg hid).trans hold⟩

/-- A variable that has a type may get another, but keeps having one. -/
theorem Changes.hasType (h : Changes p s s') (hid : s.tree.HasType id) : s'.tree.HasType id := by
  induction h with
  | refl => exact hid
  | tail _ hstep ih =>
    obtain ⟨e, -, hchange⟩ := hstep
    cases hchange with
    | visited | typed | returned => exact ih
    | bound | iterated => exact ih.setVariableType

end Changes

namespace Resolve

variable {t : ScopeTree} {c : Context} {here there : Position} {e y : Expr} {s s' : Typing}
  {type : Ty}

/-- The walk comes to every node below the one that it was sent to, where the node sits. -/
theorem visit_meets (hsits : t.Sits c.here e there y) (hs : Refines t s.tree)
    (h : visit c e s = .ok type s') : ∃ c' s₁ s₂, c'.here = there ∧ Changes e.Reaches s s₁ ∧
      Meets c' y s₁ s₂ ∧ Changes e.Reaches s₂ s' := by
  generalize hhere : c.here = here at hsits
  induction hsits generalizing c s s' type with
  | self => exact ⟨c, s, s', hhere, .refl, .inl ⟨type, h⟩, .refl⟩
  | @child here there e x y hplain hx hsits ih =>
    subst hhere
    have hnext : (c.below t e, x) ∈ c.next t e := by
      rw [Context.next, hplain]
      exact List.mem_map_of_mem hx
    obtain ⟨d, s₀, herror, -⟩ | ⟨a, s₀, hok, -, -, hmeets⟩ := (walksNode e t c s hs).cases
    · cases h.symm.trans herror
    cases h.symm.trans hok
    obtain ⟨s₁, s₂, hbefore, hmeet, hafter⟩ := hmeets _ hnext
    have hbelow (z : Expr) (hz : x.Reaches z) : e.Reaches z := .child hplain hx hz
    rcases hmeet with ⟨type', hvisit⟩ | ⟨expected, hloop⟩
    · obtain ⟨c', s₃, s₄, hc', hbefore', hmeet, hafter'⟩ :=
        ih (hs.trans hbefore.refines) hvisit rfl
      exact ⟨c', s₃, s₄, hc', hbefore.trans (hbefore'.mono hbelow), hmeet,
        (hafter'.mono hbelow).trans hafter⟩
    · -- nothing below the variable of a loop counts
      cases hsits with
      | self => exact ⟨c.below t e, s₁, s₂, rfl, hbefore, .inr ⟨expected, hloop⟩, hafter⟩
      | child hplain =>
        cases x with
        | var => cases hplain
        | _ => cases hloop

/-- Where the walk meets a node, its changes are made for what the node reaches, and the node gets
a type. -/
theorem Meets.changes_recorded (h : Meets c e s s') :
    Changes e.Reaches s s' ∧ ∃ type, (e.id, type) ∈ s'.types := by
  rcases h with ⟨type, hvisit⟩ | ⟨expected, hloop⟩
  · obtain ⟨d, s₀, herror, -⟩ | ⟨a, s₀, hok, hchanges, hmem, -⟩ := (walksNode e _ c s (.refl _)).cases
    · cases hvisit.symm.trans herror
    · cases hvisit.symm.trans hok
      exact ⟨hchanges, type, hmem⟩
  · obtain ⟨d, s₀, herror, -⟩ | ⟨s₁, -, hchanges, hok⟩ := loopVariable_cases c e expected s
    · cases hloop.symm.trans herror
    · cases hloop.symm.trans hok
      have hself (y : Expr) (hy : y = e) : e.Reaches y := hy ▸ .self e
      exact ⟨(hchanges.mono hself).tail ⟨e, .self e, .typed e s₁ expected⟩, expected,
        List.mem_cons_self⟩

theorem Meets.changes (h : Meets c e s s') : Changes e.Reaches s s' := h.changes_recorded.1

theorem Meets.recorded (h : Meets c e s s') : ∃ type, (e.id, type) ∈ s'.types :=
  h.changes_recorded.2

theorem orFail_eq_ok {α : Type} {problem : TypeProblem} {span : Span} {o : Option α} {a : α}
    (h : orFail problem span o s = .ok a s') : o = some a ∧ s' = s := by
  cases o with
  | none => cases h
  | some a =>
    cases h
    exact ⟨rfl, rfl⟩

/-- When the walk leaves a variable, the name has the type that the node got, and the node is
the last that got one. -/
theorem Meets.bound {l : Label} {name : String} {d : Option Expr}
    (h : Meets c (.var l name d) s s') : ∃ type types id v, s'.types = (l.id, type) :: types ∧
      s'.tree.lookupVariable? c.scope name = some id ∧ s'.tree.vars[id]? = some v ∧
      v.type = some type := by
  rcases h with ⟨type, hvisit⟩ | ⟨expected, hloop⟩
  · rw [visit] at hvisit
    obtain ⟨type', s₁, hlook, hrecord⟩ := EStateM.bind_eq_ok (polled_eq_ok hvisit)
    obtain ⟨rfl, id, v, hid, hv, htype, -⟩ := variableType_eq_ok hlook
    cases hrecord
    exact ⟨type, s.types, id, v, rfl, hid, hv, htype⟩
  · obtain ⟨d, s₀, herror, -⟩ | ⟨s₁, ⟨_, _, _, id, v, ⟨⟩, hid, hv, htype⟩, -, hok⟩ :=
      loopVariable_cases c (.var l name d) expected s
    · cases hloop.symm.trans herror
    · cases hloop.symm.trans hok
      exact ⟨expected, s₁.types, id, v, rfl, hid, hv, htype⟩

/-- The stages of a loop over an array. -/
theorem visit_forIn_eq_ok {l : Label} {item iterable body : Expr}
    (h : visit c (.forIn l item iterable body) s = .ok type s') :
    ∃ scope iterableType s₁ element s₂ slots bodyType s₃, s.tree.scopeOf? l.id = some scope ∧
      visit { c with scope } iterable { s with visits := s.visits + 1 } = .ok iterableType s₁ ∧
      loopVariable { c with scope } item element s₁ = .ok () s₂ ∧
      s₂.tree.loopSlotsOf? l.id = some slots ∧
      visit { c with scope } body
        { s₂ with tree := s₂.tree.setVariableType slots.array iterableType } = .ok bodyType s₃ ∧
      s' = { s₃ with types := (l.id, .empty) :: s₃.types } := by
  rw [visit] at h
  obtain ⟨inner, s₀, hwithin, hiterate⟩ := EStateM.bind_eq_ok (polled_eq_ok h)
  obtain ⟨_, _, ⟨⟩, hopen⟩ := EStateM.bind_eq_ok hwithin
  obtain ⟨scope, _, hfound, ⟨⟩⟩ := EStateM.bind_eq_ok hopen
  obtain ⟨hscope, rfl⟩ := orFail_eq_ok hfound
  obtain ⟨iterableType, s₁, hiterable, helement⟩ := EStateM.bind_eq_ok hiterate
  obtain ⟨element, s₁', hkind, hitem⟩ := EStateM.bind_eq_ok helement
  obtain rfl : s₁' = s₁ := by
    rcases Keeps.iterableElement s₁ with ⟨a, ha⟩ | ⟨d, hd⟩
    · cases hkind.symm.trans ha
      rfl
    · cases hkind.symm.trans hd
  obtain ⟨_, s₂, hloop, hhidden⟩ := EStateM.bind_eq_ok hitem
  obtain ⟨_, _, ⟨⟩, hfind⟩ := EStateM.bind_eq_ok hhidden
  obtain ⟨slots, _, hslots, hset⟩ := EStateM.bind_eq_ok hfind
  obtain ⟨hslots, rfl⟩ := orFail_eq_ok hslots
  obtain ⟨_, _, ⟨⟩, hlast⟩ := EStateM.bind_eq_ok hset
  obtain ⟨_, s₃, hbody, hrecord⟩ := EStateM.bind_eq_ok hlast
  obtain ⟨bodyType, hbody⟩ := EStateM.discard_eq_ok hbody
  cases hrecord
  exact ⟨scope, iterableType, _, element, _, slots, bodyType, s₃, hscope, hiterable, hloop,
    hslots, hbody, rfl⟩

/-- When the walk leaves a loop over an array, the hidden array has a type. -/
theorem Meets.hasType_array {l : Label} {item iterable body : Expr} {slots : LoopSlots}
    {v : Variable} (h : Meets c (.forIn l item iterable body) s s')
    (hslots : s.tree.loopSlotsOf? l.id = some slots) (hv : s.tree.vars[slots.array]? = some v) :
    s'.tree.HasType slots.array := by
  rcases h with ⟨type, hvisit⟩ | ⟨expected, hloop⟩
  · obtain ⟨scope, iterableType, s₁, element, s₂, slots', bodyType, s₃, -, hiterable, hitem, hslots',
      hbody, rfl⟩ := visit_forIn_eq_ok hvisit
    have hfirst : Meets _ iterable { s with visits := s.visits + 1 } s₁ := .inl ⟨_, hiterable⟩
    have hsecond : Meets _ item s₁ s₂ := .inr ⟨_, hitem⟩
    have hrefines := hfirst.changes.refines.trans hsecond.changes.refines
    rw [loopSlotsOf?, hrefines.loopSlots] at hslots'
    cases hslots.symm.trans hslots'
    obtain ⟨v', hv', -⟩ := hrefines.vars _ v hv
    have hmeets : Meets _ body _ s₃ := .inl ⟨_, hbody⟩
    refine hmeets.changes.hasType ⟨{ v' with type := some iterableType }, iterableType, ?_, rfl⟩
    simp [vars_setVariableType, hv']
  · cases hloop

end Resolve

/-- The type of a declaration is a name, or a name with empty brackets. -/
def Expr.isTypeSyntax : Expr → Bool
  | .var .. | .element _ _ none => true
  | _ => false

theorem Declared.isTypeSyntax {e y : Expr} (h : Declared e) (hy : y ∈ e.nodes) :
    y.isTypeSyntax = true := by
  rcases h.shape hy with hvar | ⟨l, array, rfl⟩
  · cases y with
    | var => rfl
    | _ => cases hvar
  · rfl

/-- A node of any other kind does not lie in the type of a declaration. -/
theorem ScopeTree.Placed.reaches {t : ScopeTree} {scope function : Nat} {e y : Expr}
    (h : t.Placed scope function e) (hy : y ∈ e.nodes) (hkind : y.isTypeSyntax = false) :
    e.Reaches y := by
  have hdeclared {x : Expr} (hx : Declared x) (hy : y ∈ x.nodes) : False := by
    simp [hx.isTypeSyntax hy] at hkind
  induction h with
  | declared h => exact (hdeclared h hy).elim
  | @function _ _ _ _ l name params body _ _ hparams _ ih =>
    rcases Expr.mem_nodes.mp hy with rfl | ⟨x, hx, hy⟩
    · exact .self _
    rcases List.mem_append.mp hx with hx' | hx'
    · exact (hdeclared (hparams x hx') hy).elim
    · cases List.mem_singleton.mp hx'
      exact .child rfl hx (ih hy)
  | @opening _ _ _ e hopens _ _ _ ih =>
    rcases Expr.mem_nodes.mp hy with rfl | ⟨x, hx, hy⟩
    · exact .self _
    · refine .child ?_ hx (ih x hx hy)
      cases e with
      | var => cases hopens
      | _ => rfl
  | plain _ _ hplain _ ih =>
    rcases Expr.mem_nodes.mp hy with rfl | ⟨x, hx, hy⟩
    · exact .self _
    · exact .child hplain hx (ih x hx hy)

theorem Expr.of_loopVariable? {e item : Expr} (h : e.loopVariable? = some item) :
    e.opens = true ∧ e.isTypeSyntax = false ∧ e.isVariable = false ∧ item ∈ e.children := by
  cases e with
  | forTo | forIn =>
    cases h
    exact ⟨rfl, rfl, rfl, List.mem_cons_self⟩
  | _ => cases h

/-- A name of a scope is what the name stands for in it. -/
theorem ScopeTree.lookupVariable?_of_variableIn? {t : ScopeTree} {scope id : Nat} {name : String}
    (h : t.variableIn? name scope = some id) : t.lookupVariable? scope name = some id := by
  obtain ⟨s, hs, -⟩ := Option.bind_eq_some_iff.mp h
  rw [lookupVariable?, ancestors, ancestorsFrom, hs]
  dsimp only
  cases s.parent with
  | none => simp [h]
  | some parent => simp [h]

namespace ScopeTree

variable {t t' : ScopeTree} {p : Program} {host : Host} {cancelled : Cancellation} {r : Resolution}
  {there : Position} {y : Expr}

/-- The resolver comes to every node of a program that it accepts, where the node sits. -/
theorem resolve_meets (h : t.resolve p host cancelled = (.ok r, t'))
    (hsits : t.Sits ⟨t.program, main⟩ p.body there y) : ∃ c s₁ s₂ visits, c.here = there ∧
      Changes p.body.Reaches { tree := t } s₁ ∧ Resolve.Meets c y s₁ s₂ ∧
      Changes p.body.Reaches s₂ ⟨t', r.types, visits⟩ := by
  obtain ⟨visits, hvisit⟩ := visit_of_resolve h
  obtain ⟨c, s₁, s₂, hmeets⟩ := Resolve.visit_meets hsits (.refl t) hvisit
  exact ⟨c, s₁, s₂, visits, hmeets⟩

theorem resolve_changes (h : t.resolve p host cancelled = (.ok r, t')) :
    ∃ visits, Changes p.body.Reaches { tree := t } ⟨t', r.types, visits⟩ := by
  obtain ⟨visits, hvisit⟩ := visit_of_resolve h
  exact ⟨visits, Resolve.Meets.changes (.inl ⟨_, hvisit⟩)⟩

/-- The nodes with a type are those outside the types of declarations. -/
theorem exists_type_iff (h : t.resolve p host cancelled = (.ok r, t')) {k : Nat} :
    (∃ type, (k, type) ∈ r.types) ↔ ∃ e, p.body.Reaches e ∧ e.id = k := by
  constructor
  · rintro ⟨type, hmem⟩
    obtain ⟨visits, hchanges⟩ := resolve_changes h
    obtain ⟨added, htypes, hadded⟩ := hchanges.types
    have htypes : r.types = added := htypes.trans (List.append_nil added)
    exact hadded _ (htypes ▸ hmem)
  · rintro ⟨e, hreach, rfl⟩
    obtain ⟨there, hsits⟩ := Sits.exists_of_reaches (t := t) hreach ⟨t.program, main⟩
    obtain ⟨c, s₁, s₂, visits, -, -, hmeets, hafter⟩ := resolve_meets h hsits
    obtain ⟨type, hmem⟩ := hmeets.recorded
    exact ⟨type, hafter.suffix.subset hmem⟩

section Complete

variable (hn : Expr.Numbered 0 p.body p.nodeCount) (hclean : (build p host).problems = [])
  (h : (build p host).tree.resolve p host cancelled = (.ok r, t))

include hn hclean h

theorem hasType_of_array {id : Nat} (hid : (build p host).tree.IsLoopArray id) : t.HasType id := by
  obtain ⟨q, hq, rfl⟩ := hid
  have hbuilt := build_clean hn hclean
  rcases (build_declares hn hclean).loops q hq with hold | ⟨e, he, l, item, iterable, body, -, -, rfl,
    hl, -⟩
  · cases hold
  have hreach := hbuilt.placed.reaches he rfl
  obtain ⟨there, hsits⟩ := Sits.exists_of_reaches hreach ⟨(build p host).tree.program, main⟩
  obtain ⟨c, s₁, s₂, visits, -, hbefore, hmeets, hafter⟩ := resolve_meets h hsits
  obtain ⟨v, w, hv, -⟩ := hbuilt.loops q hq
  obtain ⟨v', hv', -⟩ := hbefore.refines.vars _ v hv
  refine hafter.hasType (hmeets.hasType_array ?_ hv')
  rw [loopSlotsOf?, hbefore.refines.loopSlots]
  exact lookup_of_mem hbuilt.loopKeys (hl ▸ hq)

theorem hasType_of_loopVariable {id : Nat} {e : Expr} (he : e ∈ p.body.nodes)
    (hid : (build p host).tree.HoldsVariable e id) : t.HasType id := by
  obtain ⟨l, name, i, hloop, hscope, hid⟩ := hid
  have hbuilt := build_clean hn hclean
  obtain ⟨hopens, hkind, hplain, hchild⟩ := e.of_loopVariable? hloop
  obtain ⟨there, hsits⟩ := Sits.exists_of_reaches (hbuilt.placed.reaches he hkind)
    ⟨(build p host).tree.program, main⟩
  obtain ⟨c, s₁, s₂, visits, hc, hbefore, hmeets, hafter⟩ :=
    resolve_meets h (hsits.trans (.child hplain hchild .self))
  -- the name stands for the variable of the loop where the walk comes to it
  have hscope : c.scope = i := by
    have hplace : c.scope = ((build p host).tree.below there e).scope := congrArg Position.scope hc
    rw [hplace, below, if_pos hopens, scopeOf?, lookup_of_mem hbuilt.scopeKeys hscope]
    rfl
  obtain ⟨type, -, id', v, -, hid', hv, htype⟩ := hmeets.bound
  have hrefines := hbefore.refines.trans hmeets.changes.refines
  rw [hscope, hrefines.lookupVariable?, lookupVariable?_of_variableIn? hid] at hid'
  cases hid'
  exact hafter.hasType ⟨v, type, hv, htype⟩

/-- No variable is left without a type. -/
theorem hasType_of_lt {id : Nat} (hid : id < t.vars.size) : t.HasType id := by
  obtain ⟨visits, hchanges⟩ := resolve_changes h
  obtain ⟨v, hv, -⟩ := hchanges.refines.vars_back (Array.getElem?_eq_getElem hid)
  cases htype : v.type with
  | some type => exact hchanges.hasType ⟨v, type, hv, htype⟩
  | none =>
    rcases (build_declares hn hclean).untyped id v hv htype with hold | harray | ⟨e, he, hloop⟩
    · cases hold
    · exact hasType_of_array hn hclean h harray
    · exact hasType_of_loopVariable hn hclean h he hloop

/-- No function is left without a result. -/
theorem returns_of_lt {i : Nat} (hi : i < t.functions.size) : ∃ type, t.Returns i type := by
  obtain ⟨hrefines, hbuilt, htyped⟩ := resolve_eq_ok (build_clean hn hclean) hn h
  by_cases hmain : i = main
  · obtain ⟨f, hf, -, hresult⟩ := hbuilt.mainFunction
    exact ⟨.empty, f, hmain ▸ hf, hresult⟩
  · obtain ⟨node, hnode⟩ := hbuilt.covered i hmain hi
    obtain ⟨y, hy, hfun, hid⟩ := hbuilt.declared _ hnode
    cases y with
    | function l name params body =>
      obtain ⟨id, scope, result, type, hfunction, -, hbody⟩ :=
        htyped.bodies hbuilt.scopeKeys hbuilt.functionKeys hbuilt.placed hy
      have hid : l.id = node := hid
      cases hfunction.symm.trans (lookup_of_mem hbuilt.functionKeys (hid ▸ hnode))
      exact ⟨result, hbody.returns⟩
    | _ => cases hfun

/-- What is linked has the types of the tree. -/
theorem link_types (g : Generated) (o : Options) {id : Nat} {d : FunctionDef}
    (hd : (t.link g o).functions[id]? = some d) :
    ∃ f result, t.functions[id]? = some f ∧ f.returnType = some result ∧
      d.returnType = result.id ∧ d.slots.length = f.slots.length ∧
      ∀ (n : Nat) (slot : Slot), f.slots[n]? = some slot →
        ∃ v type, t.vars[slot.var]? = some v ∧ v.type = some type ∧
          d.slots[n]? = some { typeId := type.id, name := slot.name } := by
  obtain ⟨f, code, hf, -, rfl⟩ := Code.Compiles.function_iff.mp hd
  obtain ⟨result, f', hf', hresult⟩ :=
    returns_of_lt hn hclean h (Array.getElem?_eq_some_iff.mp hf).1
  cases hf.symm.trans hf'
  refine ⟨f, result, hf, hresult, by simp [functionDef, hresult], by simp [functionDef, slotDefs],
    fun n slot hslot => ?_⟩
  obtain ⟨-, hbuilt, -⟩ := resolve_eq_ok (build_clean hn hclean) hn h
  obtain ⟨v₀, hv₀, -⟩ := hbuilt.slots id f hf n slot hslot
  obtain ⟨v, type, hv, htype⟩ :=
    hasType_of_lt hn hclean h (Array.getElem?_eq_some_iff.mp hv₀).1
  exact ⟨v, type, hv, htype, by simp [functionDef, slotDefs, hslot, hv, htype]⟩

end Complete

/-- In a program that is accepted, the nodes with a type are those that do not lie in the type of
a declaration; every variable has a type and every function a result, and the module has no
others. -/
theorem resolve_complete (body : Expr) (host : Host) (cancelled : Cancellation) {r : Resolution}
    {t : ScopeTree} (hclean : (build (.ofExpr body) host).problems = [])
    (hresolve : (build (.ofExpr body) host).tree.resolve (.ofExpr body) host cancelled =
      (.ok r, t)) :
    (∀ k, (r.typeOf? k).isSome = true ↔ ∃ e ∈ (Program.ofExpr body).body.nodes,
      ¬ (Program.ofExpr body).body.InType e ∧ e.id = k) ∧
    (∀ v ∈ t.vars, v.type.isSome = true) ∧ (∀ f ∈ t.functions, f.returnType.isSome = true) ∧
    ∀ (g : Generated) (o : Options) (id : Nat) (d : FunctionDef),
      (t.link g o).functions[id]? = some d →
      ∃ f result, t.functions[id]? = some f ∧ f.returnType = some result ∧
        d.returnType = result.id ∧ d.slots.length = f.slots.length ∧
        ∀ (n : Nat) (slot : Slot), f.slots[n]? = some slot →
          ∃ v type, t.vars[slot.var]? = some v ∧ v.type = some type ∧
            d.slots[n]? = some { typeId := type.id, name := slot.name } := by
  have hn : Expr.Numbered 0 (Program.ofExpr body).body (Program.ofExpr body).nodeCount :=
    body.renumber_numbered 0
  refine ⟨fun k => ?_, fun v hv => ?_, fun f hf => ?_, fun g o id d hd =>
    link_types hn hclean hresolve g o hd⟩
  · have hkeys := resolve_nodup (build_clean hn hclean) hn hresolve
    have htyped : (r.typeOf? k).isSome = true ↔ ∃ type, (k, type) ∈ r.types := by
      rw [Option.isSome_iff_exists]
      exact ⟨fun ⟨type, h⟩ => ⟨type, mem_of_lookup h⟩, fun ⟨type, h⟩ => ⟨type, lookup_of_mem hkeys h⟩⟩
    rw [htyped, exists_type_iff hresolve]
    simp only [Expr.reaches_iff hn, and_assoc]
  · obtain ⟨id, hid, rfl⟩ := Array.getElem_of_mem hv
    obtain ⟨v, type, hv, htype⟩ := hasType_of_lt hn hclean hresolve hid
    cases (Array.getElem?_eq_getElem hid).symm.trans hv
    simp [htype]
  · obtain ⟨i, hi, rfl⟩ := Array.getElem_of_mem hf
    obtain ⟨type, f, hf, htype⟩ := returns_of_lt hn hclean hresolve hi
    cases (Array.getElem?_eq_getElem hi).symm.trans hf
    simp [htype]

/-- A function over an array with a loop whose variable has no declaration, and a call of it. -/
def totalling : Expr :=
  .block {} [
    .call {} "total" [.array {} [.constant {} (.number .one)]],
    .function {} "total" [.var {} "values" (some (.element {} (.var {} "number" none) none))]
      (.block {} [
        .var {} "sum" (some (.var {} "number" none)),
        .forIn {} (.var {} "x" none) (.var {} "values" none)
          (.binary {} .assign (.var {} "sum" none)
            (.binary {} .add (.var {} "sum" none) (.var {} "x" none))),
        .ret {} (some (.var {} "sum" none))])]

theorem resolve_complete_totalling : ∃ r t,
    (build (.ofExpr totalling) .empty).problems = [] ∧
    (build (.ofExpr totalling) .empty).tree.resolve (.ofExpr totalling) .empty false = (.ok r, t) ∧
    r.typeOf? 7 = none ∧ r.typeOf? 12 = some .double ∧
    (∀ v ∈ t.vars, v.type.isSome = true) ∧ ∀ f ∈ t.functions, f.returnType.isSome = true := by
  have hbuild : (build (.ofExpr totalling) .empty).problems = [] := by decide +kernel
  have htypes : ((build (.ofExpr totalling) .empty).tree.resolve (.ofExpr totalling) .empty
      false).1.toOption.map (fun r => (r.typeOf? 7, r.typeOf? 12)) = some (none, some .double) := by
    decide +kernel
  generalize hresolve : ScopeTree.resolve _ _ _ _ = resolved at htypes ⊢
  obtain ⟨_ | r, t⟩ := resolved
  case error => cases htypes
  obtain ⟨htype, hitem⟩ := Prod.mk.inj (Option.some.inj htypes)
  obtain ⟨-, hvars, hfunctions, -⟩ := resolve_complete totalling .empty false hbuild hresolve
  exact ⟨r, t, hbuild, rfl, htype, hitem, hvars, hfunctions⟩

end ScopeTree

end TurtleScript
