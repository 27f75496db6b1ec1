import TurtleScript.Proofs.Scope.Lockstep
import TurtleScript.Proofs.Scope.Representation

/-!
# Walking two nodes in the other order

Two nodes that stand next to each other in a scope may be walked in either order, unless a loop
in the one seeks a variable that the other declares: both orders meet a problem or neither does,
and without problems the two trees say the same under other numbers. What is walked afterwards
keeps this, and so it holds of the trees of two programs that differ in the order of two members
of a block.
-/
namespace TurtleScript

open ScopeTree

namespace Renaming

/-- Other numbers for the nodes only. -/
def ofNode (ν : Nat → Nat) (hν : ν.Injective) : Renaming where
  scope k := k
  var k := k
  function k := k
  node := ν
  scope_injective _ _ h := h
  var_injective _ _ h := h
  function_injective _ _ h := h
  node_injective := hν

/-- Numbers from `n` on are given out `d` later. -/
def later (n d k : Nat) : Nat := if k < n then k else k + d

section Numbers

variable {n d a b k : Nat}

theorem later_of_lt (h : k < n) : later n d k = k := if_pos h

theorem later_add (n d k : Nat) : later n d (n + k) = n + d + k := by
  rw [later, if_neg (by omega)]
  omega

theorem later_injective (n d : Nat) : (later n d).Injective := by
  intro k m h
  unfold later at h
  grind

theorem lt_of_later_lt (h : later n d k < n + d) : k < n := by
  unfold later at h
  grind

theorem rotate_of_lt (h : k < n + a) : Expr.rotate n a b k = later n b k := by
  unfold Expr.rotate later
  grind

theorem rotate_later (h : k < n + b) : Expr.rotate n a b (later n a k) = k := by
  unfold Expr.rotate later
  grind

theorem rotate_add {m m' : Nat} (hm : m = n + a + b) (hm' : m' = n + b + a) (k : Nat) :
    Expr.rotate n a b (m + k) = m' + k := by
  rw [Expr.rotate_eq_self (.inr (by omega))]
  omega

theorem rotate_injective (n a b : Nat) : (Expr.rotate n a b).Injective :=
  Function.LeftInverse.injective (Expr.rotate_rotate n a b)

end Numbers

/-- What is given out from `n` on is given out `d` later. -/
def shift (n d : Extent) (ν : Nat → Nat) (hν : ν.Injective) : Renaming where
  scope := later n.scopes d.scopes
  var := later n.vars d.vars
  function := later n.functions d.functions
  node := ν
  scope_injective := later_injective ..
  var_injective := later_injective ..
  function_injective := later_injective ..
  node_injective := hν

theorem shift_scope_of_lt {n d : Extent} {ν : Nat → Nat} {hν : ν.Injective} {k : Nat}
    (h : k < n.scopes) : (shift n d ν hν).scope k = k := later_of_lt h

/-- Of what is given out from `n` on, the first `d` come after the next `d'`. -/
def rotate (n d d' : Extent) (ν : Nat → Nat) (hν : ν.Injective) : Renaming where
  scope := Expr.rotate n.scopes d.scopes d'.scopes
  var := Expr.rotate n.vars d.vars d'.vars
  function := Expr.rotate n.functions d.functions d'.functions
  node := ν
  scope_injective := rotate_injective ..
  var_injective := rotate_injective ..
  function_injective := rotate_injective ..
  node_injective := hν

def comp (π ρ : Renaming) : Renaming where
  scope := π.scope ∘ ρ.scope
  var := π.var ∘ ρ.var
  function := π.function ∘ ρ.function
  node := π.node ∘ ρ.node
  scope_injective := π.scope_injective.comp ρ.scope_injective
  var_injective := π.var_injective.comp ρ.var_injective
  function_injective := π.function_injective.comp ρ.function_injective
  node_injective := π.node_injective.comp ρ.node_injective

/-- Two renamings agree on the nodes and on what is given out below `n`. -/
structure Like (n : Extent) (π ρ : Renaming) : Prop where
  scope : ∀ k < n.scopes, π.scope k = ρ.scope k
  var : ∀ k < n.vars, π.var k = ρ.var k
  function : ∀ k < n.functions, π.function k = ρ.function k
  node : π.node = ρ.node

theorem Like.refl (n : Extent) (π : Renaming) : Like n π π :=
  ⟨fun _ _ => rfl, fun _ _ => rfl, fun _ _ => rfl, rfl⟩

theorem Like.anti {n m : Extent} {π ρ : Renaming} (h : Like m π ρ) (hle : n ≤ m) : Like n π ρ :=
  ⟨fun k hk => h.scope k (Nat.lt_of_lt_of_le hk hle.1),
    fun k hk => h.var k (Nat.lt_of_lt_of_le hk hle.2.1),
    fun k hk => h.function k (Nat.lt_of_lt_of_le hk hle.2.2), h.node⟩

end Renaming

open Renaming

theorem Fact.rename_rename (π ρ : Renaming) (φ : Fact) :
    (φ.rename ρ).rename π = φ.rename (π.comp ρ) := by
  cases φ with
  | overload i key params callee => cases callee <;> rfl
  | _ => simp [rename, comp]

theorem Callee.rename_congr {n : Extent} {π ρ : Renaming} (h : Like n π ρ) {callee : Callee}
    (hcallee : callee.Within n.functions) : callee.rename π = callee.rename ρ := by
  cases callee with
  | script id => rw [rename, rename, h.function id hcallee]
  | native => rfl

theorem Fact.rename_congr {n : Extent} {π ρ : Renaming} (h : Like n π ρ) {φ : Fact}
    (hφ : φ.Within n) : φ.rename π = φ.rename ρ := by
  cases φ with
  | scope i parent =>
    have hparent : parent.map π.scope = parent.map ρ.scope :=
      Option.map_congr fun p hp => h.scope p (Nat.lt_trans (hφ.2 p hp) hφ.1)
    rw [rename, rename, h.scope i hφ.1, hparent]
  | name i key id => rw [rename, rename, h.scope i hφ.1, h.var id hφ.2]
  | var id type owner =>
    have howner : owner.map π.function = owner.map ρ.function :=
      Option.map_congr fun f hf => h.function f (hφ.2 f hf)
    rw [rename, rename, h.var id hφ.1, howner]
  | overload i key params callee =>
    rw [rename, rename, h.scope i hφ.1, Callee.rename_congr h hφ.2]
  | function id result => rw [rename, rename, h.function id hφ]
  | nodeScope node i => rw [rename, rename, h.scope i hφ, h.node]
  | nodeFunction node id => rw [rename, rename, h.function id hφ, h.node]
  | loop node array index => rw [rename, rename, h.var array hφ.1, h.var index hφ.2, h.node]

theorem ScopeTree.Sound.image_rename {t : ScopeTree} {π ρ : Renaming} (ht : t.Sound)
    (h : Like t.extent π ρ) : Fact.rename π '' t.facts = Fact.rename ρ '' t.facts :=
  Set.image_congr fun φ hφ => Fact.rename_congr h (ht φ hφ)

namespace Expr

variable {key : String} {e : Expr}

theorem declares_iff : e.Declares key ↔
    (∃ l name type, e = .var l name (some type) ∧ foldName name = key) ∨
      e.opens = false ∧ ∃ c ∈ e.visited, c.Declares key := by
  constructor
  · rintro (⟨l, type, hname⟩ | ⟨hshut, hc, hdeclares⟩)
    · exact .inl ⟨l, _, type, rfl, hname⟩
    · exact .inr ⟨hshut, _, hc, hdeclares⟩
  · rintro (⟨l, name, type, rfl, hname⟩ | ⟨hshut, c, hc, hdeclares⟩)
    · exact .here l type hname
    · exact .inside hshut hc hdeclares

theorem seeks_iff : e.Seeks key ↔
    (∃ l name, e.loopVariable? = some (.var l name none) ∧ foldName name = key) ∨
      ∃ pre c post, e.visited = pre ++ c :: post ∧ ¬ e.Binds key ∧ (∀ d ∈ pre, ¬ d.Declares key) ∧
        c.Seeks key := by
  constructor
  · rintro (⟨hloop, hname⟩ | ⟨hvisited, hbinds, hbefore, hseeks⟩)
    · exact .inl ⟨_, _, hloop, hname⟩
    · exact .inr ⟨_, _, _, hvisited, hbinds, hbefore, hseeks⟩
  · rintro (⟨l, name, hloop, hname⟩ | ⟨pre, c, post, hvisited, hbinds, hbefore, hseeks⟩)
    · exact .loop hloop hname
    · exact .inside hvisited hbinds hbefore hseeks

theorem opens_relabel (ν : Nat → Nat) (e : Expr) : (e.relabel ν).opens = e.opens := by
  cases e <;> rfl

theorem loopVariable?_relabel (ν : Nat → Nat) (e : Expr) :
    (e.relabel ν).loopVariable? = e.loopVariable?.map (relabel ν) := by
  cases e <;> rfl

/-- A variable stays one, with or without a type. -/
theorem var_of_relabel {ν : Nat → Nat} {l : Label} {name : String} {d : Option Expr}
    (h : e.relabel ν = .var l name d) : ∃ l' d', e = .var l' name d' ∧ d = d'.map (relabel ν) := by
  cases e with
  | var l' name' d' =>
    cases h
    exact ⟨l', d', rfl, relabelOption_eq ν d'⟩
  | _ => cases h

theorem declaration_of_relabel {ν : Nat → Nat} {l : Label} {name : String} {type : Expr}
    (h : e.relabel ν = .var l name (some type)) : ∃ l' type', e = .var l' name (some type') := by
  obtain ⟨l', d', rfl, hd⟩ := var_of_relabel h
  obtain ⟨type', rfl, -⟩ := Option.map_eq_some_iff.mp hd.symm
  exact ⟨l', type', rfl⟩

theorem declares_relabel (ν : Nat → Nat) (e : Expr) :
    (e.relabel ν).Declares key ↔ e.Declares key := by
  induction e using children_induction with
  | step e ih =>
    rw [declares_iff, declares_iff, opens_relabel, visited_relabel]
    apply or_congr
    · constructor
      · rintro ⟨l, name, type, hvar, hname⟩
        obtain ⟨l', type', rfl⟩ := declaration_of_relabel hvar
        exact ⟨l', name, type', rfl, hname⟩
      · rintro ⟨l, name, type, rfl, hname⟩
        exact ⟨_, name, _, rfl, hname⟩
    · simp only [List.mem_map, exists_exists_and_eq_and]
      exact and_congr_right fun _ => exists_congr fun c =>
        and_congr_right fun hc => ih c (visited_subset hc)

theorem binds_relabel (ν : Nat → Nat) (e : Expr) : (e.relabel ν).Binds key ↔ e.Binds key := by
  constructor
  · rintro ⟨l, name, type, hname, hloop | ⟨l', name', params, body, hfunction, hparam⟩⟩
    · rw [loopVariable?_relabel] at hloop
      obtain ⟨item, hitem, hvar⟩ := Option.map_eq_some_iff.mp hloop
      obtain ⟨l', type', rfl⟩ := declaration_of_relabel hvar
      exact ⟨l', name, type', hname, .inl hitem⟩
    · cases e with
      | function l₀ name₀ params₀ body₀ =>
        cases hfunction
        rw [relabelList_eq] at hparam
        obtain ⟨param, hmem, hvar⟩ := List.mem_map.mp hparam
        obtain ⟨l', type', rfl⟩ := declaration_of_relabel hvar
        exact ⟨l', name, type', hname, .inr ⟨l₀, name', params₀, body₀, rfl, hmem⟩⟩
      | _ => cases hfunction
  · rintro ⟨l, name, type, hname, hloop | ⟨l', name', params, body, rfl, hparam⟩⟩
    · have hitem := loopVariable?_relabel ν e
      rw [hloop] at hitem
      exact ⟨_, name, _, hname, .inl hitem⟩
    · have hmem := List.mem_map_of_mem (f := relabel ν) hparam
      rw [← relabelList_eq] at hmem
      exact ⟨_, name, _, hname, .inr ⟨_, _, _, _, rfl, hmem⟩⟩

theorem seeks_relabel (ν : Nat → Nat) (e : Expr) : (e.relabel ν).Seeks key ↔ e.Seeks key := by
  induction e using children_induction with
  | step e ih =>
    rw [seeks_iff, seeks_iff, loopVariable?_relabel, visited_relabel, binds_relabel]
    apply or_congr
    · constructor
      · rintro ⟨l, name, hloop, hname⟩
        obtain ⟨item, hitem, hvar⟩ := Option.map_eq_some_iff.mp hloop
        obtain ⟨l', d', rfl, hd⟩ := var_of_relabel hvar
        cases Option.map_eq_none_iff.mp hd.symm
        exact ⟨l', name, hitem, hname⟩
      · rintro ⟨l, name, hloop, hname⟩
        rw [hloop]
        exact ⟨_, name, rfl, hname⟩
    · constructor
      · rintro ⟨_, _, _, hvisited, hbinds, hbefore, hseeks⟩
        obtain ⟨pre, rest, hrest, rfl, hmap⟩ := List.map_eq_append_iff.mp hvisited
        obtain ⟨c, post, rfl, rfl, rfl⟩ := List.map_eq_cons_iff.mp hmap
        have hc : c ∈ e.children := visited_subset (by rw [hrest]; simp)
        refine ⟨pre, c, post, hrest, hbinds, fun d hd hdeclares => ?_, (ih c hc).mp hseeks⟩
        exact hbefore _ (List.mem_map_of_mem hd) ((declares_relabel ν d).mpr hdeclares)
      · rintro ⟨pre, c, post, hvisited, hbinds, hbefore, hseeks⟩
        have hc : c ∈ e.children := visited_subset (by rw [hvisited]; simp)
        refine ⟨pre.map (relabel ν), c.relabel ν, post.map (relabel ν), ?_, hbinds, ?_,
          (ih c hc).mpr hseeks⟩
        · rw [hvisited, List.map_append, List.map_cons]
        · rintro _ hmem hdeclares
          obtain ⟨d, hd, rfl⟩ := List.mem_map.mp hmem
          exact hbefore d hd ((declares_relabel ν d).mp hdeclares)

theorem unhidden_relabel (ν : Nat → Nat) (e : Expr) : (e.relabel ν).Unhidden ↔ e.Unhidden := by
  constructor
  · intro h l name d hmem
    exact h _ name _ (mem_nodes_relabel.mpr ⟨_, hmem, rfl⟩)
  · intro h l name d hmem
    obtain ⟨f, hf, hvar⟩ := mem_nodes_relabel.mp hmem
    obtain ⟨l', d', rfl, -⟩ := var_of_relabel hvar
    exact h l' name d' hf

end Expr

namespace ScopeTree

variable {ν : Nat → Nat} {hν : ν.Injective} {t t' : ScopeTree} {d : Extent}

/-- A tree that does not change under other numbers for the nodes stands in every tree that it
grew to, and numbers are given out later there. -/
theorem embeds_shift (h : Embeds (ofNode ν hν) ∅ t t) (hsub : t.facts ⊆ t'.facts)
    (hd : t'.extent = t.extent + d) (hsound : t'.Sound) :
    Embeds (shift t.extent d ν hν) t'.facts t t' := by
  rw [extent, extent, Extent.add_eq, Extent.mk.injEq] at hd
  constructor
  case facts =>
    refine (Set.union_eq_left.mpr ?_).symm
    rintro _ ⟨φ, hφ, rfl⟩
    have hlike : Like t.extent (shift t.extent d ν hν) (ofNode ν hν) :=
      ⟨fun _ => later_of_lt, fun _ => later_of_lt, fun _ => later_of_lt, rfl⟩
    rw [Fact.rename_congr hlike (h.sound φ hφ)]
    exact hsub (h.rename_mem hφ)
  case scopes => exact fun k => (later_add ..).trans (by rw [hd.1])
  case vars => exact fun k => (later_add ..).trans (by rw [hd.2.1])
  case functions => exact fun k => (later_add ..).trans (by rw [hd.2.2])
  case sound => exact h.sound
  case sound' => exact hsound

theorem agrees_empty {ρ : Renaming} : Agrees ρ ∅ t := ⟨fun _ h => h.elim, fun _ h => h.elim⟩

/-- A name or a signature that two trees have in one of the first scopes stands for the same in
both, which is among the first, too. -/
structure Compatible (n : Extent) (t t' : ScopeTree) : Prop where
  names : ∀ {scope id id' : Nat} {key : String}, scope < n.scopes → .name scope key id ∈ t.facts →
    .name scope key id' ∈ t'.facts → id = id' ∧ id < n.vars
  overloads : ∀ {scope : Nat} {key : String} {params : List Ty} {callee callee' : Callee},
    scope < n.scopes → .overload scope key params callee ∈ t.facts →
    .overload scope key params callee' ∈ t'.facts → callee = callee' ∧ callee.Within n.functions

theorem Compatible.symm {n : Extent} (h : Compatible n t t') : Compatible n t' t where
  names hscope hname hname' := by
    obtain ⟨rfl, hid⟩ := h.names hscope hname' hname
    exact ⟨rfl, hid⟩
  overloads hscope hoverload hoverload' := by
    obtain ⟨rfl, hcallee⟩ := h.overloads hscope hoverload' hoverload
    exact ⟨rfl, hcallee⟩

/-- Other numbers for the nodes do not matter. -/
theorem compatible_congr {n : Extent} {t₁ : ScopeTree} (ht : Embeds (ofNode ν hν) ∅ t' t₁) :
    Compatible n t t' ↔ Compatible n t t₁ := by
  have hname {scope id : Nat} {key : String} :
      .name scope key id ∈ t₁.facts ↔ .name scope key id ∈ t'.facts := by
    rw [ht.facts, Set.empty_union]
    refine (name_mem_image (π := ofNode ν hν)).trans ⟨?_, fun h => ⟨id, h, rfl⟩⟩
    rintro ⟨_, h, rfl⟩
    exact h
  have hoverload {scope : Nat} {key : String} {params : List Ty} {callee : Callee} :
      .overload scope key params callee ∈ t₁.facts ↔
        .overload scope key params callee ∈ t'.facts := by
    have hself (callee : Callee) : callee.rename (ofNode ν hν) = callee := by cases callee <;> rfl
    rw [ht.facts, Set.empty_union]
    refine (overload_mem_image (π := ofNode ν hν)).trans ⟨?_, fun h => ⟨callee, h, (hself _).symm⟩⟩
    rintro ⟨callee', h, rfl⟩
    rwa [hself]
  constructor
  · exact fun h => ⟨fun hscope h' h₁ => h.names hscope h' (hname.mp h₁),
      fun hscope h' h₁ => h.overloads hscope h' (hoverload.mp h₁)⟩
  · exact fun h => ⟨fun hscope h' h₁ => h.names hscope h' (hname.mpr h₁),
      fun hscope h' h₁ => h.overloads hscope h' (hoverload.mpr h₁)⟩

theorem agrees_shift_iff {n : Extent} (ht : t.Sound) (hd : t.extent = n + d) :
    Agrees (shift n d ν hν) t.facts t' ↔ Compatible n t' t := by
  rw [Sound, hd, Extent.add_eq] at ht
  constructor
  · refine fun h => ⟨fun {scope id id' key} hscope hname hname' => ?_,
      fun {scope key params callee callee'} hscope hoverload hoverload' => ?_⟩
    · have hid : id' = later n.vars d.vars id := by
        refine h.names hname ?_
        rwa [shift_scope_of_lt hscope]
      have hlt : id < n.vars := lt_of_later_lt (hid ▸ (ht _ hname').2)
      rw [later_of_lt hlt] at hid
      exact ⟨hid.symm, hlt⟩
    · have hcallee : callee' = callee.rename (shift n d ν hν) := by
        refine h.overloads hoverload ?_
        rwa [shift_scope_of_lt hscope]
      subst hcallee
      cases callee with
      | native index => exact ⟨rfl, trivial⟩
      | script id =>
        have hlt : id < n.functions := lt_of_later_lt (ht _ hoverload').2
        exact ⟨congrArg Callee.script (later_of_lt hlt).symm, hlt⟩
  · refine fun h => ⟨fun {scope id id' key} hname hname' => ?_,
      fun {scope key params callee callee'} hoverload hoverload' => ?_⟩
    · have hscope : scope < n.scopes := lt_of_later_lt (ht _ hname').1
      rw [shift_scope_of_lt hscope] at hname'
      obtain ⟨rfl, hid⟩ := h.names hscope hname hname'
      exact (later_of_lt hid).symm
    · have hscope : scope < n.scopes := lt_of_later_lt (ht _ hoverload').1
      rw [shift_scope_of_lt hscope] at hoverload'
      obtain ⟨rfl, hcallee⟩ := h.overloads hscope hoverload hoverload'
      cases callee with
      | native index => rfl
      | script id => exact congrArg Callee.script (later_of_lt hcallee).symm

theorem exists_extent {t t' : ScopeTree} (h : t.extent ≤ t'.extent) :
    ∃ d, t'.extent = t.extent + d := by
  obtain ⟨⟨i, hi⟩, ⟨j, hj⟩, k, hk⟩ :=
    And.imp Nat.exists_eq_add_of_le (And.imp Nat.exists_eq_add_of_le Nat.exists_eq_add_of_le) h
  refine ⟨⟨i, j, k⟩, ?_⟩
  rw [Extent.add_eq, ← hi, ← hj, ← hk]

theorem extent_of_embeds_shift {n d d' : Extent} {extra : Set Fact} {t t' : ScopeTree}
    (h : Embeds (shift n d ν hν) extra t t') (hd' : t.extent = n + d') :
    t'.extent = n + d + d' := by
  obtain ⟨hscopes, hvars, hfunctions⟩ := Extent.mk.inj hd'
  have hscope := h.next_scope
  have hvar := h.next_var
  have hfunction := h.next_function
  rw [hscopes] at hscope
  rw [hvars] at hvar
  rw [hfunctions] at hfunction
  rw [extent, ← hscope, ← hvar, ← hfunction]
  exact congr (congr (congrArg Extent.mk (later_add ..)) (later_add ..)) (later_add ..)

theorem extent_of_embeds_ofNode {extra : Set Fact} (h : Embeds (ofNode ν hν) extra t t') :
    t'.extent = t.extent := by
  rw [extent, ← h.next_scope, ← h.next_var, ← h.next_function]
  rfl

/-- Two trees that grew by the same two parts, in the one order and in the other. -/
theorem embeds_rotate {n d d' : Extent} {tX tY tY' t₁ t₂ : ScopeTree} (hd : tX.extent = n + d)
    (hd' : tY.extent = n + d') (hY : Embeds (ofNode ν hν) ∅ tY tY')
    (h₁ : Embeds (shift n d id Function.injective_id) tX.facts tY t₁)
    (h₂ : Embeds (shift n d' ν hν) tY'.facts tX t₂) : Embeds (rotate n d d' ν hν) ∅ t₁ t₂ := by
  have hX : Fact.rename (rotate n d d' ν hν) '' tX.facts =
      Fact.rename (shift n d' ν hν) '' tX.facts := by
    refine h₂.sound.image_rename ?_
    rw [hd]
    exact ⟨fun _ => rotate_of_lt, fun _ => rotate_of_lt, fun _ => rotate_of_lt, rfl⟩
  have hY' : Fact.rename (rotate n d d' ν hν) ''
      (Fact.rename (shift n d id Function.injective_id) '' tY.facts) = tY'.facts := by
    rw [hY.facts, Set.empty_union, Set.image_image, funext (Fact.rename_rename _ _)]
    refine hY.sound.image_rename ?_
    rw [hd']
    exact ⟨fun _ => rotate_later, fun _ => rotate_later, fun _ => rotate_later, rfl⟩
  have hsize := Extent.mk.inj (extent_of_embeds_shift h₁ hd')
  have hsize' := Extent.mk.inj (extent_of_embeds_shift h₂ hd)
  constructor
  case facts => rw [Set.empty_union, h₂.facts, h₁.facts, Set.image_union, hX, hY', Set.union_comm]
  case scopes => exact rotate_add hsize.1 hsize'.1
  case vars => exact rotate_add hsize.2.1 hsize'.2.1
  case functions => exact rotate_add hsize.2.2 hsize'.2.2
  case sound => exact h₁.sound'
  case sound' => exact h₂.sound'

end ScopeTree

namespace Building

/-- The walk stands in `scope` of `function` and has met no problem, and other numbers for the
nodes change nothing of what it has built. -/
structure Steady (ν : Nat → Nat) (hν : ν.Injective) (scope function : Nat) (b : Building) : Prop where
  clean : b.problems = []
  scope_lt : scope < b.tree.scopes.size
  function_lt : function < b.tree.functions.size
  embeds : Embeds (ofNode ν hν) ∅ b.tree b.tree

theorem Alongside.clean_iff_clean {ρ : Renaming} {b b' : Building} (h : Alongside ρ ∅ b b') :
    b'.problems = [] ↔ b.problems = [] := by
  rw [h.clean_iff, and_iff_left agrees_empty]

section Pair

variable {ν : Nat → Nat} {hν : ν.Injective} {scope function : Nat} {b c : Building} {x y : Expr}

/-- The walk over a node, and over the node with other numbers. -/
theorem Steady.relabel (h : Steady ν hν scope function b) (hx : x.Unhidden) :
    Alongside (ofNode ν hν) ∅ (visit scope function x b)
      (visit scope function (x.relabel ν) b) :=
  alongside_visit x hx h.embeds h.clean h.clean h.scope_lt h.function_lt fun _ _ =>
    sheltered_of_sound h.embeds.sound h.scope_lt nofun

/-- Without other numbers, everything built is as it was. -/
theorem Steady.plain (h : Steady ν hν scope function b) :
    Steady id Function.injective_id scope function b := by
  have hself (φ : Fact) : φ.rename (ofNode id Function.injective_id) = φ := by
    cases φ with
    | overload i key params callee => cases callee <;> rfl
    | _ => simp [Fact.rename, ofNode]
  refine ⟨h.clean, h.scope_lt, h.function_lt, ?_, fun _ => rfl, fun _ => rfl, fun _ => rfl,
    h.embeds.sound, h.embeds.sound⟩
  rw [Set.empty_union, funext hself, Set.image_id']

/-- The walk over a node after another walk that grew the tree by `d`. -/
theorem Steady.after {d : Extent} {declared : String → Prop} (h : Steady ν hν scope function b)
    (hleads : Leads (fun i key => i = scope ∧ declared key ∨ b.tree.scopes.size ≤ i) b c)
    (hclean : c.problems = []) (hsound : c.tree.Sound) (hd : c.tree.extent = b.tree.extent + d)
    (hy : y.Unhidden) (hseeks : ∀ key, declared key → ¬ y.Seeks key) :
    Alongside (shift b.tree.extent d ν hν) c.tree.facts (visit scope function y b)
      (visit scope function (y.relabel ν) c) := by
  have hembeds := embeds_shift h.embeds hleads.facts hd hsound
  have hvisit := alongside_visit y hy hembeds h.clean hclean h.scope_lt h.function_lt
    fun key hkey => sheltered_of_sound h.embeds.sound h.scope_lt fun i id hname => ?_
  · have hscope : (shift b.tree.extent d ν hν).scope scope = scope := later_of_lt h.scope_lt
    have hfunction : (shift b.tree.extent d ν hν).function function = function :=
      later_of_lt h.function_lt
    rwa [hscope, hfunction] at hvisit
  -- a name of a scope that was there before is new only if it is declared here
  · have hi : i < b.tree.scopes.size := by
      refine lt_of_later_lt (Nat.lt_of_lt_of_eq (lt_of_name hname) ?_)
      exact congrArg Extent.scopes hd
    rw [shift_scope_of_lt hi] at hname
    rcases hleads.names hname with hold | ⟨-, hdeclared⟩ | hnew
    · exact ⟨id, hold⟩
    · exact absurd hkey (hseeks key hdeclared)
    · exact absurd hi (Nat.not_lt.mpr hnew)

/-- Two nodes in the one order and, with other numbers, in the other. -/
theorem Steady.exchange (h : Steady ν hν scope function b) (hx : x.Unhidden) (hy : y.Unhidden)
    (hxy : ∀ key, x.Declares key → ¬ y.Seeks key) (hyx : ∀ key, y.Declares key → ¬ x.Seeks key) :
    ∃ π, Like b.tree.extent π (ofNode ν hν) ∧
      Alongside π ∅ (visit scope function y (visit scope function x b))
        (visit scope function (x.relabel ν) (visit scope function (y.relabel ν) b)) := by
  have hleadsX := leads_visit x h.scope_lt h.function_lt
  have hleadsY := leads_visit (y.relabel ν) h.scope_lt h.function_lt
  have hrelabelX := h.relabel hx
  have hrelabelY := h.relabel hy
  generalize hbX : visit scope function x b = bX at *
  generalize hbY : visit scope function (y.relabel ν) b = bY at *
  obtain ⟨d, hd⟩ := exists_extent hleadsX.extent
  obtain ⟨d', hd'⟩ := exists_extent hleadsY.extent
  refine ⟨rotate b.tree.extent d d' ν hν, ⟨fun k hk => ?_, fun k hk => ?_, fun k hk => ?_, rfl⟩, ?_⟩
  iterate 3 exact Expr.rotate_eq_self (.inl hk)
  have hgrownX : Grown bX (visit scope function y bX) := grown_visit scope function y
  have hgrownY : Grown bY (visit scope function (x.relabel ν) bY) := grown_visit scope function _
  -- each walk, seen from the walk over its second node alone
  have hsecond (hclean : bX.problems = []) :
      Alongside (Renaming.shift b.tree.extent d id Function.injective_id) bX.tree.facts
        (visit scope function y b) (visit scope function y bX) := by
    have hsound := (hrelabelX.embeds (hrelabelX.clean_iff_clean.mpr hclean)).sound
    have hafter := h.plain.after hleadsX hclean hsound hd hy hxy
    rwa [show y.relabel id = y from Expr.relabel_id y] at hafter
  have hsecond' (hclean : bY.problems = []) :
      Alongside (Renaming.shift b.tree.extent d' ν hν) bY.tree.facts bX
        (visit scope function (x.relabel ν) bY) := by
    rw [← hbX]
    refine h.after hleadsY hclean (hrelabelY.embeds hclean).sound' hd' hx fun key hdeclares => ?_
    exact hyx key ((Expr.declares_relabel ν y).mp hdeclares)
  by_cases hX : bX.problems = []
  · by_cases hY : bY.problems = []
    · have hY' := hrelabelY.embeds hY
      have hextent := extent_of_embeds_ofNode hY'
      have h₁ := hsecond hX
      have h₂ := hsecond' hY
      have hclean : (visit scope function (x.relabel ν) bY).problems = [] ↔
          (visit scope function y bX).problems = [] := by
        have hsoundX := (hrelabelX.embeds (hrelabelX.clean_iff_clean.mpr hX)).sound
        rw [h₁.clean_iff, h₂.clean_iff, agrees_shift_iff hsoundX hd,
          agrees_shift_iff hY'.sound' hd', ← compatible_congr hY']
        exact and_congr (iff_of_true hX (hrelabelY.clean_iff_clean.mp hY)) ⟨.symm, .symm⟩
      refine ⟨hclean.trans (and_iff_left agrees_empty).symm, fun hc => ?_⟩
      exact embeds_rotate hd (hextent ▸ hd') hY' (h₁.embeds (hclean.mp hc)) (h₂.embeds hc)
    · refine .of_problem (fun hc _ => hY ?_) fun hc => hY (hgrownY.clean hc)
      exact hrelabelY.clean_iff_clean.mpr ((hsecond hX).clean_iff.mp hc).1
  · refine .of_problem (fun hc _ => hX (hgrownX.clean hc)) fun hc => hX ?_
    exact ((hsecond' (hgrownY.clean hc)).clean_iff.mp hc).1

end Pair

end Building

end TurtleScript
