import TurtleScript.Proofs.Scope.Renaming

/-!
# Trees that say the same

Two trees that say the same under other numbers give the same answers under these numbers. They
still do when the type of a variable or the result of a function is set in both of them.
-/
namespace TurtleScript

namespace ScopeTree

section Lookups

variable {t : ScopeTree} {scope : Nat} {parent : Option Nat} {name : String} {args : List Ty}

theorem ancestors_of_le (h : t.scopes.size ≤ scope) : t.ancestors scope = [] := by
  rw [ancestors, ancestorsFrom, Array.getElem?_eq_none h]

/-- A scope with an overload of a name has a nonempty list of them. -/
theorem overloadsIn?_eq (name : String) (hscope : .scope scope parent ∈ t.facts) :
    ∃ overloads : List Overload, t.overloadsIn? name scope =
        (if overloads = [] then none else some overloads) ∧
      (∀ args, t.signature? scope (foldName name) args =
        (overloads.find? (·.params = args)).map (·.callee)) ∧
      (overloads ≠ [] ↔ ∃ params callee, .overload scope (foldName name) params callee ∈ t.facts) := by
  obtain ⟨s, hs, -⟩ := Option.map_eq_some_iff.mp hscope
  have hsignature (args : List Ty) : t.signature? scope (foldName name) args =
      ((s.overloads.filter (foldName ·.name = foldName name)).find? (·.params = args)).map
        (·.callee) := by
    rw [signature?, hs, List.find?_filter]
    simp
  refine ⟨s.overloads.filter (foldName ·.name = foldName name), ?_, hsignature, ?_⟩
  · simp only [overloadsIn?, hs, Option.bind_eq_bind, Option.bind_some]
    cases s.overloads.filter (foldName ·.name = foldName name) <;> simp
  · simp only [mem_facts, Says, hsignature]
    constructor
    · intro hne
      obtain ⟨o, ho⟩ := List.exists_mem_of_ne_nil _ hne
      obtain ⟨o', ho'⟩ := Option.isSome_iff_exists.mp
        (List.find?_isSome (p := fun o' => o'.params = o.params).mpr ⟨o, ho, decide_eq_true rfl⟩)
      exact ⟨o.params, o'.callee, by rw [ho']; rfl⟩
    · rintro ⟨params, callee, hfound⟩ hnil
      rw [hnil] at hfound
      cases hfound

/-- A call is resolved in the innermost scope that has an overload of the name. -/
theorem Sound.resolveCall?_here (h : t.Sound) (hscope : .scope scope parent ∈ t.facts)
    (hoffered : ∃ params callee, .overload scope (foldName name) params callee ∈ t.facts) :
    (t.resolveCall? scope name args).map (·.callee) = t.signature? scope (foldName name) args := by
  obtain ⟨overloads, hin, hsignature, hne⟩ := overloadsIn?_eq name hscope
  rw [if_neg (hne.mpr hoffered)] at hin
  rw [resolveCall?, lookupOverloads?, h.ancestors_eq hscope, List.findSome?_cons, hin, hsignature]
  rfl

theorem Sound.resolveCall?_outer (h : t.Sound) (hscope : .scope scope parent ∈ t.facts)
    (hnone : ¬ ∃ params callee, .overload scope (foldName name) params callee ∈ t.facts) :
    t.resolveCall? scope name args = parent.bind (t.resolveCall? · name args) := by
  obtain ⟨overloads, hin, hsignature, hne⟩ := overloadsIn?_eq name hscope
  rw [if_pos (not_not.mp fun hnil => hnone (hne.mp hnil))] at hin
  rw [resolveCall?, lookupOverloads?, h.ancestors_eq hscope, List.findSome?_cons, hin]
  cases parent <;> rfl

end Lookups

/-- The trees say the same under the numbers `π`, and no node stands twice in a table. -/
structure Alike (π : Renaming) (t t' : ScopeTree) : Prop where
  embeds : Embeds π ∅ t t'
  scopeKeys : (t.nodeScopes.map Prod.fst).Nodup
  functionKeys : (t.nodeFunctions.map Prod.fst).Nodup
  loopKeys : (t.loopSlots.map Prod.fst).Nodup

namespace Alike

variable {π : Renaming} {t t' : ScopeTree} {scope : Nat} {name : String}

theorem facts (h : Alike π t t') : t'.facts = Fact.rename π '' t.facts := by
  rw [h.embeds.facts, Set.empty_union]

theorem scopeOf? (h : Alike π t t') (node : Nat) :
    t'.scopeOf? (π.node node) = (t.scopeOf? node).map π.scope := by
  refine lookup_of_mem_iff h.scopeKeys (fun k b => ?_) node
  change .nodeScope (π.node k) b ∈ t'.facts ↔ _
  rw [h.facts]
  constructor
  · rintro ⟨φ, hφ, heq⟩
    cases φ <;> simp only [Fact.rename, reduceCtorEq, Fact.nodeScope.injEq] at heq
    obtain ⟨hk, rfl⟩ := heq
    obtain rfl := π.node_injective hk
    exact ⟨_, hφ, rfl⟩
  · rintro ⟨i, hi, rfl⟩
    exact ⟨.nodeScope k i, hi, rfl⟩

theorem functionOf? (h : Alike π t t') (node : Nat) :
    t'.functionOf? (π.node node) = (t.functionOf? node).map π.function := by
  refine lookup_of_mem_iff h.functionKeys (fun k b => ?_) node
  change .nodeFunction (π.node k) b ∈ t'.facts ↔ _
  rw [h.facts]
  constructor
  · rintro ⟨φ, hφ, heq⟩
    cases φ <;> simp only [Fact.rename, reduceCtorEq, Fact.nodeFunction.injEq] at heq
    obtain ⟨hk, rfl⟩ := heq
    obtain rfl := π.node_injective hk
    exact ⟨_, hφ, rfl⟩
  · rintro ⟨i, hi, rfl⟩
    exact ⟨.nodeFunction k i, hi, rfl⟩

theorem loopSlotsOf? (h : Alike π t t') (node : Nat) : t'.loopSlotsOf? (π.node node) =
    (t.loopSlotsOf? node).map fun slots => ⟨π.var slots.array, π.var slots.index⟩ := by
  refine lookup_of_mem_iff h.loopKeys (fun k b => ?_) node
  change .loop (π.node k) b.array b.index ∈ t'.facts ↔ _
  rw [h.facts]
  constructor
  · rintro ⟨φ, hφ, heq⟩
    cases φ <;> simp only [Fact.rename, reduceCtorEq, Fact.loop.injEq] at heq
    obtain ⟨hk, harray, hindex⟩ := heq
    obtain rfl := π.node_injective hk
    obtain ⟨array, index⟩ := b
    cases harray
    cases hindex
    exact ⟨_, hφ, rfl⟩
  · rintro ⟨slots, hslots, rfl⟩
    exact ⟨.loop k slots.array slots.index, hslots, rfl⟩

/-- A variable, as far as the resolver sees it. -/
theorem variable_eq (h : Alike π t t') (id : Nat) :
    (t'.vars[π.var id]?).map (fun v => (v.type, v.storage.owner?)) =
      (t.vars[id]?).map fun v => (v.type, v.storage.owner?.map π.function) := by
  cases hv : t.vars[id]? with
  | some v =>
    have hfact : .var id v.type v.storage.owner? ∈ t.facts := by simp [mem_facts, Says, hv]
    exact h.embeds.rename_mem hfact
  | none =>
    obtain ⟨k, rfl⟩ := Nat.exists_eq_add_of_le (Array.getElem?_eq_none_iff.mp hv)
    rw [h.embeds.vars, Array.getElem?_eq_none (Nat.le_add_right ..)]
    rfl

theorem returnType? (h : Alike π t t') (id : Nat) :
    (t'.functions[π.function id]?).bind (·.returnType) = (t.functions[id]?).bind (·.returnType) := by
  cases hf : t.functions[id]? with
  | some f =>
    have hfact : .function id f.returnType ∈ t.facts := by simp [mem_facts, Says, hf]
    obtain ⟨f', hf', hresult⟩ := Option.map_eq_some_iff.mp (h.embeds.rename_mem hfact)
    rw [hf']
    exact hresult
  | none =>
    obtain ⟨k, rfl⟩ := Nat.exists_eq_add_of_le (Array.getElem?_eq_none_iff.mp hf)
    rw [h.embeds.functions, Array.getElem?_eq_none (Nat.le_add_right ..)]

theorem lookupVariable? (h : Alike π t t') (hname : ¬ HiddenName (foldName name)) (scope : Nat) :
    t'.lookupVariable? (π.scope scope) name = (t.lookupVariable? scope name).map π.var := by
  by_cases hscope : scope < t.scopes.size
  · exact h.embeds.lookupVariable? hname (sheltered_of_sound h.embeds.sound hscope nofun)
  · obtain ⟨k, rfl⟩ := Nat.exists_eq_add_of_le (Nat.not_lt.mp hscope)
    rw [h.embeds.scopes, ScopeTree.lookupVariable?, ScopeTree.lookupVariable?,
      ancestors_of_le (Nat.le_add_right ..), ancestors_of_le (Nat.le_add_right ..)]
    rfl

theorem signature? (h : Alike π t t') (scope : Nat) (key : String) (params : List Ty) :
    t'.signature? (π.scope scope) key params =
      (t.signature? scope key params).map (Callee.rename π) := by
  ext callee
  change .overload (π.scope scope) key params callee ∈ t'.facts ↔ _
  rw [h.facts, overload_mem_image, Option.map_eq_some_iff]
  exact exists_congr fun _ => and_congr_right fun _ => eq_comm

theorem resolveCall? (h : Alike π t t') (name : String) (args : List Ty) (scope : Nat) :
    (t'.resolveCall? (π.scope scope) name args).map (·.callee) =
      (t.resolveCall? scope name args).map (·.callee.rename π) := by
  induction scope using Nat.strong_induction_on with
  | _ scope ih =>
    by_cases hscope : scope < t.scopes.size
    · obtain ⟨parent, hfact⟩ := exists_parent hscope
      have hfact' : .scope (π.scope scope) (parent.map π.scope) ∈ t'.facts :=
        h.embeds.rename_mem hfact
      have hmap : (t.resolveCall? scope name args).map (·.callee.rename π) =
          ((t.resolveCall? scope name args).map (·.callee)).map (Callee.rename π) := by
        rw [Option.map_map]
        rfl
      by_cases hoffered : ∃ params callee, .overload scope (foldName name) params callee ∈ t.facts
      · obtain ⟨params, callee, hoverload⟩ := hoffered
        rw [hmap, h.embeds.sound.resolveCall?_here hfact ⟨params, callee, hoverload⟩,
          h.embeds.sound'.resolveCall?_here hfact' ⟨params, _, h.embeds.rename_mem hoverload⟩,
          h.signature?]
      · have hoffered' : ¬ ∃ params callee,
            .overload (π.scope scope) (foldName name) params callee ∈ t'.facts := by
          rw [h.facts]
          rintro ⟨params, _, hoverload⟩
          obtain ⟨callee, hoverload, -⟩ := overload_mem_image.mp hoverload
          exact hoffered ⟨params, callee, hoverload⟩
        rw [h.embeds.sound.resolveCall?_outer hfact hoffered,
          h.embeds.sound'.resolveCall?_outer hfact' hoffered']
        cases parent with
        | none => rfl
        | some p => exact ih p ((h.embeds.sound _ hfact).2 p rfl)
    · obtain ⟨k, rfl⟩ := Nat.exists_eq_add_of_le (Nat.not_lt.mp hscope)
      rw [h.embeds.scopes, ScopeTree.resolveCall?, ScopeTree.resolveCall?, lookupOverloads?,
        lookupOverloads?, ancestors_of_le (Nat.le_add_right ..),
        ancestors_of_le (Nat.le_add_right ..)]
      rfl

end Alike

end ScopeTree

/-- The fact with other types for variables and other results of functions. -/
def Fact.retype (types results : Nat → Option Ty → Option Ty) : Fact → Fact
  | .var id type owner => .var id (types id type) owner
  | .function id result => .function id (results id result)
  | φ => φ

namespace ScopeTree

/-- The tree with other types for variables and other results of functions. -/
def retype (t : ScopeTree) (types results : Nat → Option Ty → Option Ty) : ScopeTree :=
  { t with
    vars := t.vars.mapIdx fun id v => { v with type := types id v.type }
    functions := t.functions.mapIdx fun id f => { f with returnType := results id f.returnType }
    issued_eq := by rw [Array.size_mapIdx, t.issued_eq] }

theorem setVariableType_eq_retype (t : ScopeTree) (id : Nat) (type : Ty) :
    t.setVariableType id type =
      t.retype (fun k old => if id = k then some type else old) fun _ old => old := by
  have hvars : (t.setVariableType id type).vars = t.vars.mapIdx fun k v =>
      { v with type := if id = k then some type else v.type } := by
    apply Array.ext_getElem?
    intro k
    rw [vars_setVariableType, Array.getElem?_mapIdx]
  exact ScopeTree.ext rfl hvars (mapIdx_same _).symm rfl rfl rfl rfl rfl

theorem setReturnType_eq_retype (t : ScopeTree) (id : Nat) (type : Ty) :
    t.setReturnType id type =
      t.retype (fun _ old => old) fun k old => if id = k then some type else old := by
  have hfunctions : (t.setReturnType id type).functions = t.functions.mapIdx fun k f =>
      { f with returnType := if id = k then some type else f.returnType } := by
    apply Array.ext_getElem?
    intro k
    rw [functions_setReturnType, Array.getElem?_mapIdx]
  exact ScopeTree.ext rfl (mapIdx_same _).symm hfunctions rfl rfl rfl rfl rfl

section Retype

variable {π : Renaming} {types results types' results' : Nat → Option Ty → Option Ty}
  {t t' : ScopeTree}

theorem facts_retype (t : ScopeTree) (types results : Nat → Option Ty → Option Ty) :
    (t.retype types results).facts = Fact.retype types results '' t.facts := by
  apply Set.Subset.antisymm
  · intro φ hφ
    cases φ with
    | var id type owner =>
      obtain ⟨v', hv', heq⟩ := Option.map_eq_some_iff.mp hφ
      rw [retype, Array.getElem?_mapIdx] at hv'
      obtain ⟨v, hv, rfl⟩ := Option.map_eq_some_iff.mp hv'
      cases heq
      exact ⟨.var id v.type v.storage.owner?, by simp [mem_facts, Says, hv], rfl⟩
    | function id result =>
      obtain ⟨f', hf', rfl⟩ := Option.map_eq_some_iff.mp hφ
      rw [retype, Array.getElem?_mapIdx] at hf'
      obtain ⟨f, hf, rfl⟩ := Option.map_eq_some_iff.mp hf'
      exact ⟨.function id f.returnType, by simp [mem_facts, Says, hf], rfl⟩
    | scope i parent => exact ⟨.scope i parent, hφ, rfl⟩
    | name i key id => exact ⟨.name i key id, hφ, rfl⟩
    | overload i key params callee => exact ⟨.overload i key params callee, hφ, rfl⟩
    | nodeScope node i => exact ⟨.nodeScope node i, hφ, rfl⟩
    | nodeFunction node id => exact ⟨.nodeFunction node id, hφ, rfl⟩
    | loop node array index => exact ⟨.loop node array index, hφ, rfl⟩
  · rintro _ ⟨φ, hφ, rfl⟩
    cases φ with
    | var id type owner =>
      obtain ⟨v, hv, heq⟩ := Option.map_eq_some_iff.mp hφ
      cases heq
      simp [Fact.retype, mem_facts, Says, retype, hv]
    | function id result =>
      obtain ⟨f, hf, rfl⟩ := Option.map_eq_some_iff.mp hφ
      simp [Fact.retype, mem_facts, Says, retype, hf]
    | _ => exact hφ

theorem extent_retype (t : ScopeTree) (types results : Nat → Option Ty → Option Ty) :
    (t.retype types results).extent = t.extent := by
  simp [extent, retype]

theorem Sound.retype (h : t.Sound) (types results : Nat → Option Ty → Option Ty) :
    (t.retype types results).Sound := by
  rw [Sound, extent_retype, facts_retype, Set.forall_mem_image]
  intro φ hφ
  have hwithin := h φ hφ
  cases φ <;> exact hwithin

theorem Alike.retype (h : Alike π t t') (htypes : ∀ id, types' (π.var id) = types id)
    (hresults : ∀ id, results' (π.function id) = results id) :
    Alike π (t.retype types results) (t'.retype types' results') := by
  have hcommute (φ : Fact) :
      (φ.rename π).retype types' results' = (φ.retype types results).rename π := by
    cases φ <;> simp [Fact.rename, Fact.retype, htypes, hresults]
  have hsize := Extent.mk.inj (extent_retype t types results)
  have hsize' := Extent.mk.inj (extent_retype t' types' results')
  refine ⟨?_, h.scopeKeys, h.functionKeys, h.loopKeys⟩
  constructor
  case facts =>
    rw [facts_retype, facts_retype, h.facts, Set.image_image, Set.empty_union, Set.image_image,
      funext hcommute]
  case scopes => exact h.embeds.scopes
  case vars =>
    rw [hsize.2.1, hsize'.2.1]
    exact h.embeds.vars
  case functions =>
    rw [hsize.2.2, hsize'.2.2]
    exact h.embeds.functions
  case sound => exact h.embeds.sound.retype types results
  case sound' => exact h.embeds.sound'.retype types' results'

theorem Alike.setVariableType (h : Alike π t t') (id : Nat) (type : Ty) :
    Alike π (t.setVariableType id type) (t'.setVariableType (π.var id) type) := by
  rw [setVariableType_eq_retype, setVariableType_eq_retype]
  refine h.retype (fun k => ?_) fun _ => rfl
  simp only [π.var_injective.eq_iff]

theorem Alike.setReturnType (h : Alike π t t') (id : Nat) (type : Ty) :
    Alike π (t.setReturnType id type) (t'.setReturnType (π.function id) type) := by
  rw [setReturnType_eq_retype, setReturnType_eq_retype]
  refine h.retype (fun _ => rfl) fun k => ?_
  simp only [π.function_injective.eq_iff]

end Retype

end ScopeTree

end TurtleScript
