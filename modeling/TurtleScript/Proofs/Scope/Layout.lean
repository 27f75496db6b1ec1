import TurtleScript.Proofs.Sequences
import TurtleScript.Scope.Build

/-!
# The tables of a scope tree

The three tables refer to each other by number, and the numbers stay right while the tree
is built: every local has its slot and every slot its variable, every name stands for a
variable of that name, every overload for a function with these parameters. The tables only
grow, and a node is entered at most once.
-/
namespace TurtleScript

/-- The list was extended in front, by entries under different keys of a given kind. -/
def Keyed {β : Type} (keys : Nat → Prop) (old new : List (Nat × β)) : Prop :=
  ∃ added, new = added ++ old ∧ (added.map Prod.fst).Nodup ∧ ∀ p ∈ added, keys p.1

namespace Keyed

variable {β : Type} {p q : Nat → Prop} {a b c : List (Nat × β)}

theorem refl : Keyed p a a := ⟨[], rfl, .nil, nofun⟩

theorem one {k : Nat} {v : β} (h : p k) : Keyed p a ((k, v) :: a) :=
  ⟨[(k, v)], rfl, by simp, by simpa using h⟩

theorem mono (h : Keyed p a b) (himp : ∀ k, p k → q k) : Keyed q a b := by
  obtain ⟨added, rfl, hnodup, hkeys⟩ := h
  exact ⟨added, rfl, hnodup, fun x hx => himp _ (hkeys x hx)⟩

theorem trans (h : Keyed p a b) (h' : Keyed q b c) (hpq : ∀ k, p k → q k → False) :
    Keyed (fun k => p k ∨ q k) a c := by
  obtain ⟨xs, rfl, hxs, hp⟩ := h
  obtain ⟨ys, rfl, hys, hq⟩ := h'
  refine ⟨ys ++ xs, by rw [List.append_assoc], ?_, ?_⟩
  · rw [List.map_append, List.nodup_append]
    refine ⟨hys, hxs, fun k hk k' hk' he => ?_⟩
    obtain ⟨y, hy, rfl⟩ := List.mem_map.mp hk
    obtain ⟨x, hx, rfl⟩ := List.mem_map.mp hk'
    exact hpq _ (hp x hx) (he ▸ hq y hy)
  · intro x hx
    rcases List.mem_append.mp hx with hx | hx
    · exact .inr (hq x hx)
    · exact .inl (hp x hx)

end Keyed

namespace ScopeTree

/-- What an overload stands for: a native of the host, or a function of the program whose
first slots are the parameters. -/
def Known (host : Host) (t : ScopeTree) (o : Overload) : Prop :=
  match o.callee with
  | .native index => ∃ n, host.natives[index]? = some n ∧ n.name = o.name ∧ n.params = o.params
  | .script id => id ≠ main ∧ Text.isIdentifier o.name = true ∧
      (∃ node, (node, id) ∈ t.nodeFunctions) ∧
      ∃ f, t.functions[id]? = some f ∧ f.paramCount = o.params.length ∧
        ∀ (k : Nat) (type : Ty), o.params[k]? = some type →
          ∃ slot v, f.slots[k]? = some slot ∧ t.vars[slot.var]? = some v ∧ v.type = some type ∧
            Text.isIdentifier v.name = true

/-- The place of a variable: a global of the host, or a slot that names the variable. -/
def Stored (host : Host) (t : ScopeTree) (id : Nat) (v : Variable) : Prop :=
  match v.storage with
  | .global n => ∃ g, host.globals[n]? = some g ∧ v.type = some g.type
  | .slot function n => ∃ f slot, t.functions[function]? = some f ∧ f.slots[n]? = some slot ∧
      slot.var = id

/-- A name that a program cannot write. -/
def Reserved (name : String) : Prop := name.toList.head? = some '$'

/-- Some scope declares the overload. -/
def Declares (t : ScopeTree) (o : Overload) : Prop :=
  ∃ (i : Nat) (scope : Scope), t.scopes[i]? = some scope ∧ o ∈ scope.overloads

/-- The overload that a call stands for is declared, under the name and with the parameters of
the call. -/
theorem resolveCall?_eq_some {t : ScopeTree} {scope : Nat} {name : String} {args : List Ty}
    {o : Overload} (h : t.resolveCall? scope name args = some o) :
    t.Declares o ∧ o.params = args ∧ foldName o.name = foldName name := by
  obtain ⟨overloads, hoverloads, ho⟩ := Option.bind_eq_some_iff.mp h
  obtain ⟨i, -, hi⟩ := List.exists_of_findSome?_eq_some hoverloads
  obtain ⟨s, hs, hfilter⟩ := Option.bind_eq_some_iff.mp hi
  have hmem : o ∈ s.overloads.filter (foldName ·.name = foldName name) := by
    cases hf : s.overloads.filter (foldName ·.name = foldName name) with
    | nil => rw [hf] at hfilter; cases hfilter
    | cons o' rest =>
      rw [hf] at hfilter
      cases hfilter
      exact List.mem_of_find?_eq_some ho
  obtain ⟨hmem, hname⟩ := List.mem_filter.mp hmem
  exact ⟨⟨i, s, hs, hmem⟩, by simpa using List.find?_some ho, by simpa using hname⟩

/-- A variable of the type without values is one of the host. -/
def Valued (t : ScopeTree) : Prop :=
  ∀ (id : Nat) (v : Variable), t.vars[id]? = some v → v.type = some .empty →
    ∃ n, v.storage = .global n

/-- The tables fit each other. -/
structure Layout (host : Host) (t : ScopeTree) : Prop where
  functionId : ∀ (i : Nat) (f : FunctionRecord), t.functions[i]? = some f → f.id = i
  params : ∀ (i : Nat) (f : FunctionRecord), t.functions[i]? = some f →
    f.paramCount ≤ f.slots.length
  stored : ∀ (id : Nat) (v : Variable), t.vars[id]? = some v → Stored host t id v
  slots : ∀ (i : Nat) (f : FunctionRecord), t.functions[i]? = some f →
    ∀ (n : Nat) (slot : Slot), f.slots[n]? = some slot →
      ∃ v, t.vars[slot.var]? = some v ∧ v.storage = .slot i n
  valued : t.Valued
  names : ∀ (i : Nat) (scope : Scope), t.scopes[i]? = some scope → ∀ p ∈ scope.vars,
    ∃ v, t.vars[p.2]? = some v ∧ foldName v.name = p.1
  functionNodes : ∀ p ∈ t.nodeFunctions, p.2 ≠ main ∧ p.2 < t.functions.size
  functionNodup : (t.nodeFunctions.map Prod.snd).Nodup
  /-- The variables of a loop are out of a program's reach. -/
  loops : ∀ p ∈ t.loopSlots, ∃ v w, t.vars[p.2.array]? = some v ∧ t.vars[p.2.index]? = some w ∧
    Reserved v.name ∧ Reserved w.name ∧ ∃ function n, v.storage = .slot function n
  loopsApart : t.loopSlots.Pairwise fun p q => p.2.array ≠ q.2.array ∧ p.2.array ≠ q.2.index ∧
    p.2.index ≠ q.2.array ∧ p.2.index ≠ q.2.index

structure Wf (host : Host) (t : ScopeTree) : Prop extends Layout host t where
  overloads : ∀ o, t.Declares o → Known host t o

namespace Layout

variable {host : Host} {t : ScopeTree} {id id' function n : Nat} {v v' : Variable}

theorem slot_of (h : Layout host t) (hv : t.vars[id]? = some v)
    (hslot : v.storage = .slot function n) :
    ∃ f slot, t.functions[function]? = some f ∧ f.slots[n]? = some slot ∧ slot.var = id := by
  have hstored := h.stored id v hv
  rwa [Stored, hslot] at hstored

/-- A local is in the slot that it knows and in no other. -/
theorem in_slot_iff {function' n' : Nat} (h : Layout host t) (hv : t.vars[id]? = some v)
    (hstorage : v.storage = .slot function n) :
    (∃ f slot, t.functions[function']? = some f ∧ f.slots[n']? = some slot ∧ slot.var = id) ↔
      function' = function ∧ n' = n := by
  constructor
  · rintro ⟨f, slot, hf, hslot, rfl⟩
    obtain ⟨v', hv', hstorage'⟩ := h.slots function' f hf n' slot hslot
    cases hv.symm.trans hv'
    cases hstorage.symm.trans hstorage'
    exact ⟨rfl, rfl⟩
  · rintro ⟨rfl, rfl⟩
    exact h.slot_of hv hstorage

theorem global_of (h : Layout host t) (hv : t.vars[id]? = some v) (hglobal : v.storage = .global n) :
    ∃ g, host.globals[n]? = some g ∧ v.type = some g.type := by
  have hstored := h.stored id v hv
  rwa [Stored, hglobal] at hstored

/-- A slot belongs to one variable. -/
theorem eq_of_slot (h : Layout host t) (hv : t.vars[id]? = some v) (hv' : t.vars[id']? = some v')
    (hslot : v.storage = .slot function n) (hslot' : v'.storage = .slot function n) : id = id' := by
  obtain ⟨f, slot, hf, hn, rfl⟩ := h.slot_of hv hslot
  obtain ⟨f', slot', hf', hn', rfl⟩ := h.slot_of hv' hslot'
  cases hf.symm.trans hf'
  cases hn.symm.trans hn'
  rfl

end Layout

/-- The tables only grew. -/
structure Grows (t t' : ScopeTree) : Prop where
  vars : ∀ (id : Nat) (v : Variable), t.vars[id]? = some v → t'.vars[id]? = some v
  functions : ∀ (i : Nat) (f : FunctionRecord), t.functions[i]? = some f →
    ∃ f', t'.functions[i]? = some f' ∧ f.slots <+: f'.slots ∧ f'.paramCount = f.paramCount ∧
      f'.returnType = f.returnType
  nodeScopes : t.nodeScopes ⊆ t'.nodeScopes
  nodeFunctions : t.nodeFunctions ⊆ t'.nodeFunctions
  loopSlots : t.loopSlots ⊆ t'.loopSlots
  program : t'.program = t.program

namespace Grows

variable {t t' t'' : ScopeTree}

theorem refl (t : ScopeTree) : Grows t t :=
  ⟨fun _ _ h => h, fun _ f h => ⟨f, h, List.prefix_rfl, rfl, rfl⟩, fun _ h => h, fun _ h => h,
    fun _ h => h, rfl⟩

theorem trans (h : Grows t t') (h' : Grows t' t'') : Grows t t'' where
  vars := fun id v hv => h'.vars id v (h.vars id v hv)
  functions := by
    intro i f hf
    obtain ⟨f', hf', hslots, hcount, hresult⟩ := h.functions i f hf
    obtain ⟨f'', hf'', hslots', hcount', hresult'⟩ := h'.functions i f' hf'
    exact ⟨f'', hf'', hslots.trans hslots', hcount'.trans hcount, hresult'.trans hresult⟩
  nodeScopes := List.Subset.trans h.nodeScopes h'.nodeScopes
  nodeFunctions := List.Subset.trans h.nodeFunctions h'.nodeFunctions
  loopSlots := List.Subset.trans h.loopSlots h'.loopSlots
  program := h'.program.trans h.program

theorem size_functions (h : Grows t t') : t.functions.size ≤ t'.functions.size := by
  by_cases hlt : t'.functions.size < t.functions.size
  · obtain ⟨f', hf', -⟩ := h.functions t'.functions.size _ (Array.getElem?_eq_getElem hlt)
    simp at hf'
  · omega

end Grows

theorem Known.mono {host : Host} {t t' : ScopeTree} {o : Overload} (hg : Grows t t')
    (h : Known host t o) : Known host t' o := by
  cases hcallee : o.callee with
  | native index => simpa only [Known, hcallee] using h
  | script id =>
    simp only [Known, hcallee] at h ⊢
    obtain ⟨hmain, hname, ⟨node, hnode⟩, f, hf, hcount, hparams⟩ := h
    obtain ⟨f', hf', hslots, hcount', -⟩ := hg.functions id f hf
    refine ⟨hmain, hname, ⟨node, hg.nodeFunctions hnode⟩, f', hf', hcount'.trans hcount, ?_⟩
    intro k type hk
    obtain ⟨slot, v, hslot, hv, htype⟩ := hparams k type hk
    exact ⟨slot, v, getElem?_of_prefix hslots hslot, hg.vars _ v hv, htype⟩

theorem Stored.mono {host : Host} {t t' : ScopeTree} {id : Nat} {v : Variable} (hg : Grows t t')
    (h : Stored host t id v) : Stored host t' id v := by
  cases hstorage : v.storage with
  | global n => simpa only [Stored, hstorage] using h
  | slot function n =>
    simp only [Stored, hstorage] at h ⊢
    obtain ⟨f, slot, hf, hslot, hid⟩ := h
    obtain ⟨f', hf', hslots, -⟩ := hg.functions function f hf
    exact ⟨f', slot, hf', getElem?_of_prefix hslots hslot, hid⟩

section Declarations

variable {host : Host} {t t' : ScopeTree} {scope function id : Nat} {f : FunctionRecord}
  {name : String} {type : Option Ty} {span : Span}

/-- The tree with one more local, in the slot after those that `f` has. -/
def addLocal (t : ScopeTree) (scope function : Nat) (f : FunctionRecord) (name : String)
    (type : Option Ty) (span : Span) : ScopeTree :=
  { t with
    vars := t.vars.push { name, type, storage := .slot function f.slots.length, span }
    scopes := t.scopes.modify scope fun s => { s with vars := (foldName name, t.vars.size) :: s.vars }
    functions := t.functions.modify function fun f =>
      { f with slots := f.slots ++ [{ name, var := t.vars.size }] }
    issued_eq := by rw [Array.size_modify, t.issued_eq] }

theorem declareLocal_eq_ok (hf : t.functions[function]? = some f)
    (h : t.declareLocal scope function name type span = .ok (id, t')) :
    id = t.vars.size ∧ t' = t.addLocal scope function f name type span := by
  rw [declareLocal, hf, declareVariable] at h
  split at h
  · cases h
  · cases h
    exact ⟨rfl, rfl⟩

theorem Grows.addLocal : Grows t (t.addLocal scope function f name type span) where
  vars := fun _ _ h => getElem?_push_of_some h
  functions := by
    intro i g hg
    simp only [ScopeTree.addLocal, Array.getElem?_modify]
    by_cases hi : function = i
    · rw [if_pos hi, hg]
      exact ⟨_, rfl, List.prefix_append .., rfl, rfl⟩
    · rw [if_neg hi]
      exact ⟨g, hg, List.prefix_rfl, rfl, rfl⟩
  nodeScopes := fun _ h => h
  nodeFunctions := fun _ h => h
  loopSlots := fun _ h => h
  program := rfl

theorem functions_addLocal (hf : t.functions[function]? = some f) :
    (t.addLocal scope function f name type span).functions[function]? =
      some { f with slots := f.slots ++ [{ name, var := t.vars.size }] } := by
  simp [addLocal, Array.getElem?_modify, hf]

theorem vars_addLocal : (t.addLocal scope function f name type span).vars[t.vars.size]? =
    some { name, type, storage := .slot function f.slots.length, span } := by
  simp [addLocal]

/-- What the scopes of a tree with one more variable have come from. -/
theorem scope_of_modify {scopes : Array Scope} {i key : Nat} {s : Scope} {entry : String × Nat}
    (h : (scopes.modify key fun s => { s with vars := entry :: s.vars })[i]? = some s) :
    ∃ s₀, scopes[i]? = some s₀ ∧ s.overloads = s₀.overloads ∧
      ∀ p ∈ s.vars, p = entry ∨ p ∈ s₀.vars := by
  rw [Array.getElem?_modify] at h
  split at h
  case isTrue =>
    obtain ⟨s₀, hs₀, rfl⟩ := Option.map_eq_some_iff.mp h
    exact ⟨s₀, hs₀, rfl, fun p hp => List.mem_cons.mp hp⟩
  case isFalse => exact ⟨s, h, rfl, fun p hp => .inr hp⟩

theorem Layout.addLocal (hwf : Layout host t) (hf : t.functions[function]? = some f)
    (htype : type ≠ some .empty) : Layout host (t.addLocal scope function f name type span) := by
  have hgrows : Grows t (t.addLocal scope function f name type span) := .addLocal
  have hfunctions (i : Nat) (g : FunctionRecord)
      (hg : (t.addLocal scope function f name type span).functions[i]? = some g) :
      t.functions[i]? = some g ∨
        i = function ∧ g = { f with slots := f.slots ++ [{ name, var := t.vars.size }] } := by
    rw [ScopeTree.addLocal, Array.getElem?_modify] at hg
    split at hg
    case isTrue hi =>
      subst hi
      rw [hf] at hg
      exact .inr ⟨rfl, (Option.some.inj hg).symm⟩
    case isFalse => exact .inl hg
  exact {
    functionId := by
      intro i g hg
      rcases hfunctions i g hg with hg | ⟨rfl, rfl⟩
      · exact hwf.functionId i g hg
      · exact hwf.functionId i f hf
    params := by
      intro i g hg
      rcases hfunctions i g hg with hg | ⟨rfl, rfl⟩
      · exact hwf.params i g hg
      · have := hwf.params i f hf
        simp only [List.length_append, List.length_singleton]
        omega
    stored := by
      intro id v hv
      rcases of_getElem?_push hv with hv | ⟨rfl, rfl⟩
      · exact (hwf.stored id v hv).mono hgrows
      · exact ⟨_, _, functions_addLocal hf, List.getElem?_concat_length, rfl⟩
    slots := by
      intro i g hg n slot hslot
      rcases hfunctions i g hg with hg | ⟨rfl, rfl⟩
      · obtain ⟨v, hv, hstorage⟩ := hwf.slots i g hg n slot hslot
        exact ⟨v, hgrows.vars _ v hv, hstorage⟩
      · by_cases hn : n < f.slots.length
        · rw [List.getElem?_append_left hn] at hslot
          obtain ⟨v, hv, hstorage⟩ := hwf.slots i f hf n slot hslot
          exact ⟨v, hgrows.vars _ v hv, hstorage⟩
        · obtain rfl : n = f.slots.length := by
            have hlt := (List.getElem?_eq_some_iff.mp hslot).1
            simp only [List.length_append, List.length_singleton] at hlt
            omega
          rw [List.getElem?_concat_length] at hslot
          cases hslot
          exact ⟨_, vars_addLocal, rfl⟩
    valued := by
      intro id v hv hempty
      rcases of_getElem?_push hv with hv | ⟨rfl, rfl⟩
      · exact hwf.valued id v hv hempty
      · exact absurd hempty htype
    names := by
      intro i s hs p hp
      obtain ⟨s₀, hs₀, -, hentries⟩ := scope_of_modify hs
      rcases hentries p hp with rfl | hp
      · exact ⟨_, vars_addLocal, rfl⟩
      · obtain ⟨v, hv, hname⟩ := hwf.names i s₀ hs₀ p hp
        exact ⟨v, hgrows.vars _ v hv, hname⟩
    functionNodes := by
      intro p hp
      have hnode := hwf.functionNodes p hp
      exact ⟨hnode.1, Nat.lt_of_lt_of_le hnode.2 hgrows.size_functions⟩
    functionNodup := hwf.functionNodup
    loops := by
      intro p hp
      obtain ⟨v, w, hv, hw, hrest⟩ := hwf.loops p hp
      exact ⟨v, w, hgrows.vars _ v hv, hgrows.vars _ w hw, hrest⟩
    loopsApart := hwf.loopsApart }

theorem declares_addLocal {o : Overload}
    (h : (t.addLocal scope function f name type span).Declares o) : t.Declares o := by
  obtain ⟨i, s, hs, ho⟩ := h
  obtain ⟨s₀, hs₀, hoverloads, -⟩ := scope_of_modify hs
  exact ⟨i, s₀, hs₀, hoverloads ▸ ho⟩

/-- The tree with one more global of the host. -/
def addGlobal (t : ScopeTree) (scope : Nat) (v : Variable) : ScopeTree :=
  { t with
    vars := t.vars.push v
    scopes := t.scopes.modify scope fun s =>
      { s with vars := (foldName v.name, t.vars.size) :: s.vars } }

theorem declareVariable_eq_ok {v : Variable} (h : t.declareVariable scope v = .ok (id, t')) :
    t' = t.addGlobal scope v := by
  rw [declareVariable] at h
  split at h
  · cases h
  · cases h
    rfl

theorem Grows.addGlobal {v : Variable} : Grows t (t.addGlobal scope v) :=
  { Grows.refl t with vars := fun _ _ h => getElem?_push_of_some h }

theorem Layout.addGlobal {v : Variable} {n : Nat} {g : HostVariable} (hwf : Layout host t)
    (hg : host.globals[n]? = some g) (hstorage : v.storage = .global n)
    (htype : v.type = some g.type) :
    Layout host (t.addGlobal scope v) := by
  have hgrows : Grows t (t.addGlobal scope v) := .addGlobal
  exact { hwf with
    stored := by
      intro id u hu
      rcases of_getElem?_push hu with hu | ⟨-, rfl⟩
      · exact (hwf.stored id u hu).mono hgrows
      · rw [Stored, hstorage]
        exact ⟨g, hg, htype⟩
    slots := by
      intro i f hf n slot hslot
      obtain ⟨u, hu, hslot⟩ := hwf.slots i f hf n slot hslot
      exact ⟨u, hgrows.vars _ u hu, hslot⟩
    valued := by
      intro id u hu hempty
      rcases of_getElem?_push hu with hu | ⟨-, rfl⟩
      · exact hwf.valued id u hu hempty
      · exact ⟨n, hstorage⟩
    names := by
      intro i s hs p hp
      obtain ⟨s₀, hs₀, -, hentries⟩ := scope_of_modify hs
      rcases hentries p hp with rfl | hp
      · exact ⟨v, by simp [ScopeTree.addGlobal], rfl⟩
      · obtain ⟨u, hu, hname⟩ := hwf.names i s₀ hs₀ p hp
        exact ⟨u, hgrows.vars _ u hu, hname⟩
    loops := by
      intro p hp
      obtain ⟨u, w, hu, hw, hrest⟩ := hwf.loops p hp
      exact ⟨u, w, hgrows.vars _ u hu, hgrows.vars _ w hw, hrest⟩ }

theorem declares_addGlobal {v : Variable} {o : Overload}
    (h : (t.addGlobal scope v).Declares o) : t.Declares o := by
  obtain ⟨i, s, hs, ho⟩ := h
  obtain ⟨s₀, hs₀, hoverloads, -⟩ := scope_of_modify hs
  exact ⟨i, s₀, hs₀, hoverloads ▸ ho⟩

/-- The tree with one more overload. -/
def addOverload (t : ScopeTree) (scope : Nat) (o : Overload) : ScopeTree :=
  { t with scopes := t.scopes.modify scope fun s => { s with overloads := s.overloads ++ [o] } }

theorem declareOverload_eq_ok {o : Overload} (h : t.declareOverload scope o = .ok t') :
    t' = t.addOverload scope o := by
  rw [declareOverload] at h
  split at h
  · cases h
  · cases h
    rfl

theorem Grows.addOverload {o : Overload} : Grows t (t.addOverload scope o) := { Grows.refl t with }

theorem scope_addOverload {o : Overload} {i : Nat} {s : Scope}
    (h : (t.addOverload scope o).scopes[i]? = some s) :
    ∃ s₀, t.scopes[i]? = some s₀ ∧ s.vars = s₀.vars ∧
      ∀ o' ∈ s.overloads, o' = o ∨ o' ∈ s₀.overloads := by
  rw [ScopeTree.addOverload, Array.getElem?_modify] at h
  split at h
  case isTrue =>
    obtain ⟨s₀, hs₀, rfl⟩ := Option.map_eq_some_iff.mp h
    refine ⟨s₀, hs₀, rfl, fun o' ho => ?_⟩
    rcases List.mem_append.mp ho with ho | ho
    · exact .inr ho
    · exact .inl (List.mem_singleton.mp ho)
  case isFalse => exact ⟨s, h, rfl, fun o' ho => .inr ho⟩

theorem Layout.addOverload {o : Overload} (hwf : Layout host t) :
    Layout host (t.addOverload scope o) :=
  { hwf with
    names := by
      intro i s hs p hp
      obtain ⟨s₀, hs₀, hvars, -⟩ := scope_addOverload hs
      exact hwf.names i s₀ hs₀ p (hvars ▸ hp) }

theorem declares_addOverload {o o' : Overload} (h : (t.addOverload scope o).Declares o') :
    o' = o ∨ t.Declares o' := by
  obtain ⟨i, s, hs, ho⟩ := h
  obtain ⟨s₀, hs₀, -, hoverloads⟩ := scope_addOverload hs
  exact (hoverloads o' ho).imp_right fun ho => ⟨i, s₀, hs₀, ho⟩

/-- The tree with one more scope, which belongs to a node. -/
def addScope (t : ScopeTree) (parent function node : Nat) : ScopeTree :=
  (t.pushScope parent function).2.bindNode node t.scopes.size

theorem Grows.addScope {parent node : Nat} : Grows t (t.addScope parent function node) :=
  { Grows.refl t with nodeScopes := List.subset_cons_self .. }

theorem scope_pushScope {parent i : Nat} {s : Scope}
    (h : (t.pushScope parent function).2.scopes[i]? = some s) :
    s.vars = [] ∧ s.overloads = [] ∨
      ∃ s₀, t.scopes[i]? = some s₀ ∧ s.vars = s₀.vars ∧ s.overloads = s₀.overloads := by
  simp only [pushScope, Array.getElem?_modify, Array.getElem?_push] at h
  grind

theorem Layout.pushScope {parent : Nat} (hwf : Layout host t) :
    Layout host (t.pushScope parent function).2 :=
  { hwf with
    names := by
      intro i s hs p hp
      rcases scope_pushScope hs with ⟨hvars, -⟩ | ⟨s₀, hs₀, hvars, -⟩
      · rw [hvars] at hp
        cases hp
      · exact hwf.names i s₀ hs₀ p (hvars ▸ hp) }

theorem Layout.addScope {parent node : Nat} (hwf : Layout host t) :
    Layout host (t.addScope parent function node) :=
  { hwf.pushScope with }

theorem functions_addScope {parent node : Nat} :
    (t.addScope parent function node).functions = t.functions := rfl

theorem declares_pushScope {parent : Nat} {o : Overload}
    (h : (t.pushScope parent function).2.Declares o) : t.Declares o := by
  obtain ⟨i, s, hs, ho⟩ := h
  rcases scope_pushScope hs with ⟨-, hoverloads⟩ | ⟨s₀, hs₀, -, hoverloads⟩
  · rw [hoverloads] at ho
    cases ho
  · exact ⟨i, s₀, hs₀, hoverloads ▸ ho⟩

theorem Grows.pushFunction : Grows t (t.pushFunction name span).2 :=
  { Grows.refl t with
    functions := fun _ g h => ⟨g, getElem?_push_of_some h, List.prefix_rfl, rfl, rfl⟩ }

theorem Layout.pushFunction (hwf : Layout host t) : Layout host (t.pushFunction name span).2 := by
  have hgrows : Grows t (t.pushFunction name span).2 := .pushFunction
  have hfunctions (i : Nat) (g : FunctionRecord)
      (hg : (t.pushFunction name span).2.functions[i]? = some g) :
      t.functions[i]? = some g ∨
        i = t.functions.size ∧ g = { id := t.functions.size, name, span } := by
    rw [pushFunction_eq] at hg
    exact of_getElem?_push hg
  exact { hwf with
    functionId := by
      intro i g hg
      rcases hfunctions i g hg with hg | ⟨rfl, rfl⟩
      · exact hwf.functionId i g hg
      · rfl
    params := by
      intro i g hg
      rcases hfunctions i g hg with hg | ⟨rfl, rfl⟩
      · exact hwf.params i g hg
      · exact Nat.zero_le _
    stored := fun id v hv => (hwf.stored id v hv).mono hgrows
    slots := by
      intro i g hg n slot hslot
      rcases hfunctions i g hg with hg | ⟨rfl, rfl⟩
      · exact hwf.slots i g hg n slot hslot
      · cases hslot
    functionNodes := by
      intro p hp
      have hnode := hwf.functionNodes p hp
      exact ⟨hnode.1, Nat.lt_of_lt_of_le hnode.2 hgrows.size_functions⟩ }

theorem Grows.addFunctionNode {node : Nat} : Grows t (t.addFunctionNode node id) :=
  { Grows.refl t with nodeFunctions := List.subset_cons_self .. }

theorem Layout.addFunctionNode {node : Nat} (hwf : Layout host t) (hmain : id ≠ main)
    (hid : id < t.functions.size) (hnew : ∀ p ∈ t.nodeFunctions, p.2 ≠ id) :
    Layout host (t.addFunctionNode node id) :=
  { hwf with
    functionNodes := List.forall_mem_cons.mpr ⟨⟨hmain, hid⟩, hwf.functionNodes⟩
    functionNodup := by
      refine List.nodup_cons.mpr ⟨fun hmem => ?_, hwf.functionNodup⟩
      obtain ⟨p, hp, he⟩ := List.mem_map.mp hmem
      exact hnew p hp he }

/-- The tree with one more function, but for its scope and its parameters. -/
def addFunction (t : ScopeTree) (scope node : Nat) (name : String) (span : Span)
    (types : List Ty) : ScopeTree :=
  ((t.pushFunction name span).2.addFunctionNode node t.functions.size).addOverload scope
    { name, params := types, callee := .script t.functions.size }

theorem Grows.addFunction {node : Nat} {types : List Ty} :
    Grows t (t.addFunction scope node name span types) :=
  (Grows.pushFunction.trans .addFunctionNode).trans .addOverload

theorem Layout.addFunction {node : Nat} {types : List Ty} (hwf : Layout host t)
    (hmain : t.functions.size ≠ main) : Layout host (t.addFunction scope node name span types) := by
  refine Layout.addOverload (hwf.pushFunction.addFunctionNode hmain ?_ fun p hp => ?_)
  · rw [ScopeTree.pushFunction, Array.size_push]
    exact Nat.lt_succ_self _
  · exact Nat.ne_of_lt (hwf.functionNodes p hp).2

theorem functions_addFunction {node : Nat} {types : List Ty} :
    (t.addFunction scope node name span types).functions[t.functions.size]? =
      some { id := t.functions.size, name, span } := by
  simp [addFunction, addOverload, addFunctionNode, pushFunction_eq]

/-- Setting the parameters of a function is growth for a tree that did not have it. -/
theorem Grows.setParams {count : Nat} (h : Grows t t') (hnew : t.functions.size ≤ id) :
    Grows t (t'.setParams id count) :=
  { h with
    functions := by
      intro i g hg
      have hne : id ≠ i := by
        have := (Array.getElem?_eq_some_iff.mp hg).1
        omega
      rw [ScopeTree.setParams, Array.getElem?_modify, if_neg hne]
      exact h.functions i g hg }

theorem Layout.setParams {count : Nat} (hwf : Layout host t) (hf : t.functions[id]? = some f)
    (hcount : count ≤ f.slots.length) : Layout host (t.setParams id count) := by
  have hfunctions (i : Nat) (g : FunctionRecord)
      (hg : (t.setParams id count).functions[i]? = some g) :
      ∃ g₀, t.functions[i]? = some g₀ ∧ g.id = g₀.id ∧ g.slots = g₀.slots ∧
        g.paramCount ≤ g.slots.length := by
    rw [ScopeTree.setParams, Array.getElem?_modify] at hg
    split at hg
    case isTrue hi =>
      subst hi
      rw [hf] at hg
      cases hg
      exact ⟨f, hf, rfl, rfl, hcount⟩
    case isFalse => exact ⟨g, hg, rfl, rfl, hwf.params i g hg⟩
  exact { hwf with
    functionId := by
      intro i g hg
      obtain ⟨g₀, hg₀, hid, -⟩ := hfunctions i g hg
      exact hid.trans (hwf.functionId i g₀ hg₀)
    params := by
      intro i g hg
      obtain ⟨-, -, -, -, hparams⟩ := hfunctions i g hg
      exact hparams
    stored := by
      intro id' v hv
      have hold := hwf.stored id' v hv
      cases hstorage : v.storage with
      | global n => simpa only [Stored, hstorage] using hold
      | slot function n =>
        simp only [Stored, hstorage] at hold ⊢
        obtain ⟨g, slot, hg, hslot, hvar⟩ := hold
        by_cases hi : id = function
        · refine ⟨{ g with paramCount := count }, slot, ?_, hslot, hvar⟩
          simp [ScopeTree.setParams, Array.getElem?_modify, hi, hg]
        · refine ⟨g, slot, ?_, hslot, hvar⟩
          rw [ScopeTree.setParams, Array.getElem?_modify, if_neg hi, hg]
    slots := by
      intro i g hg n slot hslot
      obtain ⟨g₀, hg₀, -, hslots, -⟩ := hfunctions i g hg
      exact hwf.slots i g₀ hg₀ n slot (hslots ▸ hslot)
    functionNodes := by
      intro p hp
      have hnode := hwf.functionNodes p hp
      rw [ScopeTree.setParams, Array.size_modify]
      exact hnode }

theorem Grows.addLoop {node : Nat} {slots : LoopSlots} : Grows t (t.addLoop node slots) :=
  { Grows.refl t with loopSlots := List.subset_cons_self .. }

theorem Layout.addLoop {node : Nat} {slots : LoopSlots} {v w : Variable} (hwf : Layout host t)
    (hv : t.vars[slots.array]? = some v) (hw : t.vars[slots.index]? = some w)
    (hvname : Reserved v.name) (hwname : Reserved w.name)
    (hstorage : ∃ function n, v.storage = .slot function n)
    (hnew : ∀ p ∈ t.loopSlots, p.2.array < slots.array ∧ p.2.array < slots.index ∧
      p.2.index < slots.array ∧ p.2.index < slots.index) :
    Layout host (t.addLoop node slots) :=
  { hwf with
    loops := List.forall_mem_cons.mpr ⟨⟨v, w, hv, hw, hvname, hwname, hstorage⟩, hwf.loops⟩
    loopsApart := by
      refine List.pairwise_cons.mpr ⟨fun p hp => ?_, hwf.loopsApart⟩
      have := hnew p hp
      dsimp only
      omega }

end Declarations

end ScopeTree

end TurtleScript
