import TurtleScript.Proofs.Scope.Facts

/-!
# Scope trees under other numbers

A tree stands in another one if the facts of the other are its own facts under other numbers,
together with some more. New numbers are given out in step: what comes next in the one tree is
called what comes next in the other. Whatever is then added to both trees keeps the one in the
other, and a lookup has the same answer in both unless one of the additional names comes in
between.
-/
namespace TurtleScript

/-- Other numbers for scopes, variables, functions and nodes. -/
structure Renaming where
  scope : Nat → Nat
  var : Nat → Nat
  function : Nat → Nat
  node : Nat → Nat
  scope_injective : scope.Injective
  var_injective : var.Injective
  function_injective : function.Injective
  node_injective : node.Injective

def Callee.rename (π : Renaming) : Callee → Callee
  | .script id => .script (π.function id)
  | .native index => .native index

def Fact.rename (π : Renaming) : Fact → Fact
  | .scope i parent => .scope (π.scope i) (parent.map π.scope)
  | .name i key id => .name (π.scope i) key (π.var id)
  | .var id type owner => .var (π.var id) type (owner.map π.function)
  | .overload i key params callee => .overload (π.scope i) key params (callee.rename π)
  | .function id result => .function (π.function id) result
  | .nodeScope node i => .nodeScope (π.node node) (π.scope i)
  | .nodeFunction node id => .nodeFunction (π.node node) (π.function id)
  | .loop node array index => .loop (π.node node) (π.var array) (π.var index)

section Image

variable {π : Renaming} {F : Set Fact} {i id : Nat} {key : String} {params : List Ty}

theorem name_mem_image : .name (π.scope i) key id ∈ Fact.rename π '' F ↔
    ∃ id', .name i key id' ∈ F ∧ id = π.var id' := by
  constructor
  · rintro ⟨φ, hφ, heq⟩
    cases φ <;> simp only [Fact.rename, reduceCtorEq, Fact.name.injEq] at heq
    obtain ⟨hi, rfl, rfl⟩ := heq
    obtain rfl := π.scope_injective hi
    exact ⟨_, hφ, rfl⟩
  · rintro ⟨id', h, rfl⟩
    exact ⟨_, h, rfl⟩

theorem overload_mem_image {callee : Callee} :
    .overload (π.scope i) key params callee ∈ Fact.rename π '' F ↔
      ∃ callee', .overload i key params callee' ∈ F ∧ callee = callee'.rename π := by
  constructor
  · rintro ⟨φ, hφ, heq⟩
    cases φ <;> simp only [Fact.rename, reduceCtorEq, Fact.overload.injEq] at heq
    obtain ⟨hi, rfl, rfl, rfl⟩ := heq
    obtain rfl := π.scope_injective hi
    exact ⟨_, hφ, rfl⟩
  · rintro ⟨callee', h, rfl⟩
    exact ⟨_, h, rfl⟩

end Image

namespace ScopeTree

/-- The tree `t` stands in `t'` under the numbers `ρ`, and what `t'` has besides is among
`extra`. -/
structure Embeds (ρ : Renaming) (extra : Set Fact) (t t' : ScopeTree) : Prop where
  facts : t'.facts = extra ∪ Fact.rename ρ '' t.facts
  scopes : ∀ k, ρ.scope (t.scopes.size + k) = t'.scopes.size + k
  vars : ∀ k, ρ.var (t.vars.size + k) = t'.vars.size + k
  functions : ∀ k, ρ.function (t.functions.size + k) = t'.functions.size + k
  sound : t.Sound
  sound' : t'.Sound

theorem Adds.sound {d : Extent} {new : Set Fact} {t t' : ScopeTree} (h : Adds d new t t')
    (hs : t.Sound) (hwithin : ∀ φ ∈ new, φ.Within t'.extent) : t'.Sound := by
  intro φ hφ
  rw [h.facts] at hφ
  rcases hφ with hold | hnew
  · rw [h.extent]
    exact (hs φ hold).mono (Extent.le_add ..)
  · exact hwithin φ hnew

namespace Embeds

variable {ρ : Renaming} {extra new new' : Set Fact} {t t' t₁ t₁' : ScopeTree}
  {scope function id : Nat} {key name : String} {params : List Ty} {φ : Fact}

theorem rename_mem (h : Embeds ρ extra t t') (hφ : φ ∈ t.facts) : φ.rename ρ ∈ t'.facts := by
  rw [h.facts]
  exact .inr ⟨φ, hφ, rfl⟩

theorem extra_subset (h : Embeds ρ extra t t') : extra ⊆ t'.facts := by
  rw [h.facts]
  exact Set.subset_union_left

theorem scope_lt (h : Embeds ρ extra t t') (hscope : scope < t.scopes.size) :
    ρ.scope scope < t'.scopes.size := by
  obtain ⟨parent, hfact⟩ := exists_parent hscope
  exact (h.sound' _ (h.rename_mem hfact)).1

theorem function_lt (h : Embeds ρ extra t t') (hfunction : function < t.functions.size) :
    ρ.function function < t'.functions.size := by
  have hfact : .function function t.functions[function].returnType ∈ t.facts := by
    simp [mem_facts, Says, hfunction]
  exact h.sound' _ (h.rename_mem hfact)

theorem next_scope (h : Embeds ρ extra t t') : ρ.scope t.scopes.size = t'.scopes.size := h.scopes 0

theorem next_var (h : Embeds ρ extra t t') : ρ.var t.vars.size = t'.vars.size := h.vars 0

theorem next_function (h : Embeds ρ extra t t') :
    ρ.function t.functions.size = t'.functions.size := h.functions 0

/-- The same additions, each under its own numbers. -/
theorem add {d : Extent} (h : Embeds ρ extra t t') (hadds : Adds d new t t₁)
    (hadds' : Adds d new' t' t₁') (hnew : new' = Fact.rename ρ '' new)
    (hwithin : ∀ φ ∈ new, φ.Within t₁.extent) (hwithin' : ∀ φ ∈ new, (φ.rename ρ).Within t₁'.extent) :
    Embeds ρ extra t₁ t₁' := by
  have hextent := hadds.extent
  have hextent' := hadds'.extent
  rw [extent, extent, Extent.add_eq, Extent.mk.injEq] at hextent hextent'
  constructor
  case facts => rw [hadds'.facts, hadds.facts, h.facts, hnew, Set.image_union, Set.union_assoc]
  case scopes =>
    intro k
    rw [hextent.1, hextent'.1, Nat.add_assoc, Nat.add_assoc]
    exact h.scopes _
  case vars =>
    intro k
    rw [hextent.2.1, hextent'.2.1, Nat.add_assoc, Nat.add_assoc]
    exact h.vars _
  case functions =>
    intro k
    rw [hextent.2.2, hextent'.2.2, Nat.add_assoc, Nat.add_assoc]
    exact h.functions _
  case sound => exact hadds.sound h.sound hwithin
  case sound' =>
    apply hadds'.sound h.sound'
    rw [hnew]
    exact Set.forall_mem_image.mpr hwithin'

theorem named?_eq_some (h : Embeds ρ extra t t') {id : Nat} (hid : .name scope key id ∈ t.facts) :
    t'.named? key (ρ.scope scope) = some (ρ.var id) := (h.rename_mem hid).1

/-- A name is free if it is free in the smaller tree and not among the additional names. -/
theorem named?_eq_none (h : Embeds ρ extra t t') (hkey : ¬ HiddenName key) :
    t'.named? key (ρ.scope scope) = none ↔
      t.named? key scope = none ∧ ∀ id, .name (ρ.scope scope) key id ∉ extra := by
  constructor
  · intro hnone
    have hfree (id : Nat) : .name (ρ.scope scope) key id ∉ t'.facts := by
      rintro ⟨hsome, -⟩
      cases hnone.symm.trans hsome
    refine ⟨?_, fun id hid => hfree id (h.extra_subset hid)⟩
    cases hsmall : t.named? key scope with
    | none => rfl
    | some id =>
      have hfact : .name scope key id ∈ t.facts := ⟨hsmall, hkey⟩
      exact absurd (h.rename_mem hfact) (hfree _)
  · rintro ⟨hsmall, hextra⟩
    cases hbig : t'.named? key (ρ.scope scope) with
    | none => rfl
    | some id =>
      have hfact : .name (ρ.scope scope) key id ∈ t'.facts := ⟨hbig, hkey⟩
      rw [h.facts] at hfact
      rcases hfact with hfact | hfact
      · exact absurd hfact (hextra id)
      · obtain ⟨id', hid', -⟩ := name_mem_image.mp hfact
        cases hsmall.symm.trans hid'.1

/-- A signature is free if it is free in the smaller tree and not among the additional ones. -/
theorem signature?_eq_none (h : Embeds ρ extra t t') :
    t'.signature? (ρ.scope scope) key params = none ↔
      t.signature? scope key params = none ∧
        ∀ callee, .overload (ρ.scope scope) key params callee ∉ extra := by
  constructor
  · intro hnone
    have hfree (callee : Callee) : .overload (ρ.scope scope) key params callee ∉ t'.facts :=
      fun hsome => nomatch hnone.symm.trans hsome
    refine ⟨?_, fun callee hcallee => hfree callee (h.extra_subset hcallee)⟩
    cases hsmall : t.signature? scope key params with
    | none => rfl
    | some callee =>
      have hfact : .overload scope key params callee ∈ t.facts := hsmall
      exact absurd (h.rename_mem hfact) (hfree _)
  · rintro ⟨hsmall, hextra⟩
    cases hbig : t'.signature? (ρ.scope scope) key params with
    | none => rfl
    | some callee =>
      have hfact : .overload (ρ.scope scope) key params callee ∈ t'.facts := hbig
      rw [h.facts] at hfact
      rcases hfact with hfact | hfact
      · exact absurd hfact (hextra callee)
      · obtain ⟨callee', hcallee', -⟩ := overload_mem_image.mp hfact
        cases hsmall.symm.trans hcallee'

end Embeds

/-- What is there besides does not contradict the smaller tree. -/
structure Agrees (ρ : Renaming) (extra : Set Fact) (t : ScopeTree) : Prop where
  names : ∀ {scope id id' : Nat} {key : String}, .name scope key id ∈ t.facts →
    .name (ρ.scope scope) key id' ∈ extra → id' = ρ.var id
  overloads : ∀ {scope : Nat} {key : String} {params : List Ty} {callee callee' : Callee},
    .overload scope key params callee ∈ t.facts →
    .overload (ρ.scope scope) key params callee' ∈ extra → callee' = callee.rename ρ

theorem Agrees.anti {ρ : Renaming} {extra : Set Fact} {t t' : ScopeTree} (h : Agrees ρ extra t')
    (hsub : t.facts ⊆ t'.facts) : Agrees ρ extra t :=
  ⟨fun hname => h.names (hsub hname), fun hoverload => h.overloads (hsub hoverload)⟩

theorem Embeds.agrees {ρ : Renaming} {extra : Set Fact} {t t' : ScopeTree}
    (h : Embeds ρ extra t t') : Agrees ρ extra t :=
  ⟨fun hname hextra => name_unique (h.extra_subset hextra) (h.rename_mem hname),
    fun hoverload hextra => overload_unique (h.extra_subset hextra) (h.rename_mem hoverload)⟩

/-- On the way outward from a scope, the name is found before one of the additional names could
come in between. -/
inductive Sheltered (ρ : Renaming) (extra : Set Fact) (t : ScopeTree) (key : String) : Nat → Prop where
  | found {scope id : Nat} (name : .name scope key id ∈ t.facts) : Sheltered ρ extra t key scope
  | outer {scope : Nat} {parent : Option Nat} (fact : .scope scope parent ∈ t.facts)
      (apart : ∀ id, .name (ρ.scope scope) key id ∉ extra)
      (parent : ∀ p, parent = some p → Sheltered ρ extra t key p) : Sheltered ρ extra t key scope

section Sheltered

variable {ρ : Renaming} {extra : Set Fact} {t t' t₁ : ScopeTree} {scope : Nat} {key name : String}

theorem Sheltered.mono (h : Sheltered ρ extra t key scope) (hsub : t.facts ⊆ t₁.facts) :
    Sheltered ρ extra t₁ key scope := by
  induction h with
  | found hname => exact .found (hsub hname)
  | outer hfact hapart _ ih => exact .outer (hsub hfact) hapart ih

/-- Without additional names a lookup meets none. -/
theorem sheltered_of_sound (ht : t.Sound) (hscope : scope < t.scopes.size)
    (hextra : ∀ i id, .name (ρ.scope i) key id ∈ extra → ∃ id', .name i key id' ∈ t.facts) :
    Sheltered ρ extra t key scope := by
  induction scope using Nat.strong_induction_on with
  | _ scope ih =>
    by_cases hfound : ∃ id, .name scope key id ∈ t.facts
    · obtain ⟨id, hid⟩ := hfound
      exact .found hid
    · obtain ⟨parent, hfact⟩ := exists_parent hscope
      refine .outer hfact (fun id hid => hfound (hextra scope id hid)) fun p hp => ?_
      have hlt := (ht _ hfact).2 p hp
      exact ih p hlt (Nat.lt_trans hlt hscope)

theorem Embeds.lookupVariable? (h : Embeds ρ extra t t') (hkey : ¬ HiddenName (foldName name))
    (hs : Sheltered ρ extra t (foldName name) scope) :
    t'.lookupVariable? (ρ.scope scope) name = (t.lookupVariable? scope name).map ρ.var := by
  have hstep {scope : Nat} {parent : Option Nat} (hfact : .scope scope parent ∈ t.facts) :
      t'.lookupVariable? (ρ.scope scope) name = (t'.named? (foldName name) (ρ.scope scope)).or
        ((parent.map ρ.scope).bind (t'.lookupVariable? · name)) := by
    have hfact' : .scope (ρ.scope scope) (parent.map ρ.scope) ∈ t'.facts := h.rename_mem hfact
    exact h.sound'.lookupVariable?_eq hfact' name
  induction hs with
  | found hname =>
    obtain ⟨parent, hfact⟩ := exists_parent (lt_of_name hname)
    rw [hstep hfact, h.sound.lookupVariable?_eq hfact, hname.1, h.named?_eq_some hname]
    rfl
  | @outer scope parent hfact hapart _ ih =>
    rw [hstep hfact, h.sound.lookupVariable?_eq hfact]
    cases hname : t.named? (foldName name) scope with
    | some id =>
      rw [h.named?_eq_some ⟨hname, hkey⟩]
      rfl
    | none =>
      rw [(h.named?_eq_none hkey).mpr ⟨hname, hapart⟩, Option.none_or, Option.none_or]
      cases parent with
      | none => rfl
      | some p => exact ih p rfl

end Sheltered

section Same

variable {ρ : Renaming} {extra : Set Fact} {t t' t₁ t₁' : ScopeTree} {scope function id id' : Nat}
  {name name' : String} {type : Option Ty} {span : Span} {n n' : Extent}

theorem image_localFacts (hvar : ρ.var n.vars = n'.vars) (hscope : scope < n.scopes)
    (hscope' : ρ.scope scope < n'.scopes)
    (hname : foldName name' = foldName name ∨ HiddenName (foldName name) ∧ HiddenName (foldName name')) :
    localFacts n' (ρ.scope scope) (ρ.function function) name' type =
      Fact.rename ρ '' localFacts n scope function name type := by
  refine Set.ext fun φ => ?_
  constructor
  · rintro (rfl | ⟨rfl, -, hvisible⟩)
    · exact ⟨_, .inl rfl, by simp [Fact.rename, hvar]⟩
    · have hsame := hname.resolve_right fun h => hvisible h.2
      rw [hsame] at hvisible ⊢
      exact ⟨_, .inr ⟨rfl, hscope, hvisible⟩, by simp [Fact.rename, hvar]⟩
  · rintro ⟨_, (rfl | ⟨rfl, -, hvisible⟩), rfl⟩
    · exact .inl (by simp [Fact.rename, hvar])
    · have hsame := hname.resolve_right fun h => hvisible h.1
      rw [← hsame] at hvisible ⊢
      exact .inr ⟨by simp [Fact.rename, hvar], hscope', hvisible⟩

theorem image_overloadFacts {o : Overload} (hscope : scope < n.scopes)
    (hscope' : ρ.scope scope < n'.scopes) :
    overloadFacts n' (ρ.scope scope) { o with callee := o.callee.rename ρ } =
      Fact.rename ρ '' overloadFacts n scope o := by
  refine Set.ext fun φ => ?_
  constructor
  · rintro ⟨rfl, -⟩
    exact ⟨_, ⟨rfl, hscope⟩, rfl⟩
  · rintro ⟨_, ⟨rfl, -⟩, rfl⟩
    exact ⟨rfl, hscope'⟩

theorem Embeds.declareLocal (h : Embeds ρ extra t t') (hscope : scope < t.scopes.size)
    (hfunction : function < t.functions.size)
    (hname : foldName name' = foldName name ∨ HiddenName (foldName name) ∧ HiddenName (foldName name'))
    (hok : t.declareLocal scope function name type span = .ok (id, t₁))
    (hok' : t'.declareLocal (ρ.scope scope) (ρ.function function) name' type span =
      .ok (id', t₁')) : Embeds ρ extra t₁ t₁' ∧ id' = ρ.var id := by
  obtain ⟨rfl, hadds⟩ := adds_declareLocal hok
  obtain ⟨rfl, hadds'⟩ := adds_declareLocal hok'
  have hvar := h.next_var
  refine ⟨h.add hadds hadds' (image_localFacts hvar hscope (h.scope_lt hscope) hname) ?_ ?_,
    hvar.symm⟩
  · rw [hadds.extent]
    rintro _ (rfl | ⟨rfl, -⟩)
    · exact ⟨Nat.lt_succ_self _, fun f hf => Option.mem_some.mp hf ▸ hfunction⟩
    · exact ⟨hscope, Nat.lt_succ_self _⟩
  · rw [hadds'.extent]
    rintro _ (rfl | ⟨rfl, -⟩)
    · refine ⟨Nat.lt_succ_of_le (Nat.le_of_eq hvar), fun f hf => ?_⟩
      exact Option.mem_some.mp hf ▸ h.function_lt hfunction
    · exact ⟨h.scope_lt hscope, Nat.lt_succ_of_le (Nat.le_of_eq hvar)⟩

/-- A hidden variable, under a name that is free in both trees. -/
theorem Embeds.declareHidden (type : Option Ty) (span : Span) (h : Embeds ρ extra t t')
    (hscope : scope < t.scopes.size) (hfunction : function < t.functions.size)
    (hname : HiddenName (foldName name)) (hname' : HiddenName (foldName name'))
    (hfree : t.named? (foldName name) scope = none)
    (hfree' : t'.named? (foldName name') (ρ.scope scope) = none) :
    ∃ t₁ t₁', t.declareLocal scope function name type span = .ok (t.vars.size, t₁) ∧
      t'.declareLocal (ρ.scope scope) (ρ.function function) name' type span =
        .ok (ρ.var t.vars.size, t₁') ∧ Embeds ρ extra t₁ t₁' := by
  obtain ⟨⟨id, t₁⟩, hok⟩ := declareLocal_isOk.mpr hfree
  obtain ⟨⟨id', t₁'⟩, hok'⟩ := declareLocal_isOk.mpr hfree'
  obtain ⟨hembeds, rfl⟩ := h.declareLocal hscope hfunction (.inr ⟨hname, hname'⟩) hok hok'
  obtain ⟨rfl, -⟩ := adds_declareLocal hok
  exact ⟨t₁, t₁', hok, hok', hembeds⟩

theorem Embeds.declareOverload {o : Overload} (h : Embeds ρ extra t t')
    (hscope : scope < t.scopes.size) (hcallee : o.callee.Within t.functions.size)
    (hok : t.declareOverload scope o = .ok t₁)
    (hok' : t'.declareOverload (ρ.scope scope) { o with callee := o.callee.rename ρ } = .ok t₁') :
    Embeds ρ extra t₁ t₁' := by
  have hadds := adds_declareOverload hok
  have hadds' := adds_declareOverload hok'
  refine h.add hadds hadds' (image_overloadFacts hscope (h.scope_lt hscope)) ?_ ?_
  · rw [hadds.extent]
    rintro _ ⟨rfl, -⟩
    exact ⟨hscope, hcallee⟩
  · rw [hadds'.extent]
    rintro _ ⟨rfl, -⟩
    refine ⟨h.scope_lt hscope, ?_⟩
    cases hcase : o.callee with
    | native => trivial
    | script id =>
      rw [hcase] at hcallee
      exact h.function_lt hcallee

theorem Embeds.addScope {node : Nat} (h : Embeds ρ extra t t') (hscope : scope < t.scopes.size) :
    Embeds ρ extra (t.addScope scope function node)
      (t'.addScope (ρ.scope scope) (ρ.function function) (ρ.node node)) := by
  refine h.add adds_addScope adds_addScope ?_ ?_ ?_
  · rw [Set.image_pair, Fact.rename, Fact.rename, h.next_scope, Option.map_some]
  · rw [adds_addScope.extent]
    rintro _ (rfl | rfl)
    · exact ⟨Nat.lt_succ_self _, fun p hp => Option.mem_some.mp hp ▸ hscope⟩
    · exact Nat.lt_succ_self _
  · rw [adds_addScope.extent]
    rintro _ (rfl | rfl)
    · rw [Fact.rename, h.next_scope, Option.map_some]
      exact ⟨Nat.lt_succ_self _, fun p hp => Option.mem_some.mp hp ▸ h.scope_lt hscope⟩
    · rw [Fact.rename, h.next_scope]
      exact Nat.lt_succ_self _

/-- What is sheltered where a new scope lies is sheltered in the new scope. -/
theorem Embeds.sheltered_new {key : String} (h : Embeds ρ extra t t')
    (hs : Sheltered ρ extra t key scope) (hsub : t.facts ⊆ t₁.facts)
    (hfact : .scope t.scopes.size (some scope) ∈ t₁.facts) :
    Sheltered ρ extra t₁ key t.scopes.size := by
  refine .outer hfact (fun id hextra => ?_) fun p hp => ?_
  · -- the number of the scope is new in the other tree, too
    have hlt := lt_of_name (h.extra_subset hextra)
    rw [h.next_scope] at hlt
    exact Nat.lt_irrefl _ hlt
  · cases hp
    exact hs.mono hsub

theorem Embeds.addFunctionNode {node : Nat} (h : Embeds ρ extra t t') :
    Embeds ρ extra ((t.pushFunction name span).2.addFunctionNode node t.functions.size)
      ((t'.pushFunction name span).2.addFunctionNode (ρ.node node) t'.functions.size) := by
  refine h.add adds_addFunctionNode adds_addFunctionNode ?_ ?_ ?_
  · rw [Set.image_pair, Fact.rename, Fact.rename, h.next_function]
  · rw [adds_addFunctionNode.extent]
    rintro _ (rfl | rfl) <;> exact Nat.lt_succ_self _
  · rw [adds_addFunctionNode.extent]
    rintro _ (rfl | rfl) <;> rw [Fact.rename, h.next_function] <;> exact Nat.lt_succ_self _

theorem Embeds.setParams {count : Nat} (h : Embeds ρ extra t t') :
    Embeds ρ extra (t.setParams id count) (t'.setParams id' count) :=
  h.add adds_setParams adds_setParams (Set.image_empty _).symm nofun nofun

theorem Embeds.addLoop {node array index : Nat} (h : Embeds ρ extra t t') (harray : array < t.vars.size)
    (hindex : index < t.vars.size) (harray' : ρ.var array < t'.vars.size)
    (hindex' : ρ.var index < t'.vars.size) :
    Embeds ρ extra (t.addLoop node ⟨array, index⟩)
      (t'.addLoop (ρ.node node) ⟨ρ.var array, ρ.var index⟩) := by
  refine h.add adds_addLoop adds_addLoop ?_ ?_ ?_
  · rw [Set.image_singleton, Fact.rename]
  · rintro _ rfl
    exact ⟨harray, hindex⟩
  · rintro _ rfl
    exact ⟨harray', hindex'⟩

end Same

end ScopeTree

end TurtleScript
