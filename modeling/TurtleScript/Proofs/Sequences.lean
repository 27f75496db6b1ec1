/-!
# Lists, arrays and options

Facts about tables and sequences that do not depend on what is in them: what a list finds under a
key or at a place is still found when the list has grown, and a view of an array follows its
changes.
-/
namespace TurtleScript

/-- Entries under different keys are found. -/
theorem lookup_of_mem {β : Type} {xs : List (Nat × β)} {k : Nat} {v : β}
    (hnodup : (xs.map Prod.fst).Nodup) (h : (k, v) ∈ xs) : xs.lookup k = some v := by
  induction xs with
  | nil => cases h
  | cons x xs ih =>
    obtain ⟨hx, hxs⟩ := List.nodup_cons.mp hnodup
    rcases List.mem_cons.mp h with rfl | h
    · simp
    · have hne : k ≠ x.1 := fun he => hx (he ▸ List.mem_map_of_mem h)
      rw [List.lookup_cons, beq_false_of_ne hne]
      exact ih hxs h

theorem mem_of_lookup {β : Type} {xs : List (Nat × β)} {k : Nat} {v : β}
    (h : xs.lookup k = some v) : (k, v) ∈ xs := by
  obtain ⟨l₁, l₂, rfl, -⟩ := List.lookup_eq_some_iff.mp h
  simp

/-- A value that occurs once has one key. -/
theorem fst_eq_of_snd_eq {xs : List (Nat × Nat)} {a b k : Nat} (hnodup : (xs.map Prod.snd).Nodup)
    (ha : (a, k) ∈ xs) (hb : (b, k) ∈ xs) : a = b := by
  induction xs with
  | nil => cases ha
  | cons x xs ih =>
    obtain ⟨hx, hxs⟩ := List.nodup_cons.mp hnodup
    have hother {c : Nat} (hc : (c, k) ∈ xs) : x.2 ≠ k := fun he =>
      hx (List.mem_map.mpr ⟨(c, k), hc, he.symm⟩)
    rcases List.mem_cons.mp ha with rfl | hax <;> rcases List.mem_cons.mp hb with hbx | hbx
    · exact (congrArg Prod.fst hbx).symm
    · exact absurd rfl (hother hbx)
    · exact absurd (congrArg Prod.snd hbx).symm (hother hax)
    · exact ih hxs hax hbx

/-- A table whose keys have other numbers. -/
theorem lookup_of_mem_iff {α β : Type} {table : List (Nat × α)} {table' : List (Nat × β)}
    {ν : Nat → Nat} {f : α → β} (hkeys : (table.map Prod.fst).Nodup)
    (h : ∀ k b, (ν k, b) ∈ table' ↔ ∃ a, (k, a) ∈ table ∧ b = f a) (k : Nat) :
    table'.lookup (ν k) = (table.lookup k).map f := by
  cases hlookup' : table'.lookup (ν k) with
  | some b =>
    obtain ⟨a, ha, rfl⟩ := (h k b).mp (mem_of_lookup hlookup')
    rw [lookup_of_mem hkeys ha]
    rfl
  | none =>
    cases hlookup : table.lookup k with
    | none => rfl
    | some a =>
      have hmem := (h k (f a)).mpr ⟨a, mem_of_lookup hlookup, rfl⟩
      simpa using List.lookup_eq_none_iff.mp hlookup' _ hmem

theorem getElem?_of_prefix {β : Type} {xs ys : List β} {k : Nat} {x : β} (h : xs <+: ys)
    (hx : xs[k]? = some x) : ys[k]? = some x := by
  obtain ⟨zs, rfl⟩ := h
  rw [List.getElem?_append_left (List.getElem?_eq_some_iff.mp hx).1, hx]

theorem idxOf?_prefix {α : Type} [DecidableEq α] {xs ys : List α} (h : xs <+: ys) {a : α} {n : Nat}
    (ha : xs.idxOf? a = some n) : ys.idxOf? a = some n := by
  obtain ⟨zs, rfl⟩ := h
  rw [List.idxOf?, List.findIdx?_append, ← List.idxOf?, ha]
  rfl

theorem idxOf?_of_mem {α : Type} [DecidableEq α] {xs : List α} {a : α} (h : a ∈ xs) :
    xs.idxOf? a = some (xs.idxOf a) :=
  List.findIdx?_eq_some_iff_findIdx_eq.mpr ⟨List.idxOf_lt_length_iff.mpr h, rfl⟩

theorem length_of_mapM {α β : Type} {f : α → Option β} {as : List α} {bs : List β}
    (h : as.mapM f = some bs) : bs.length = as.length := by
  induction as generalizing bs with
  | nil =>
    cases h
    rfl
  | cons a as ih =>
    rw [List.mapM_cons] at h
    obtain ⟨b, -, h⟩ := Option.bind_eq_some_iff.mp h
    obtain ⟨rest, hrest, h⟩ := Option.bind_eq_some_iff.mp h
    cases h
    exact congrArg (· + 1) (ih hrest)

theorem getElem?_push_of_some {β : Type} {xs : Array β} {x y : β} {k : Nat}
    (h : xs[k]? = some x) : (xs.push y)[k]? = some x := by
  have hlt := (Array.getElem?_eq_some_iff.mp h).1
  rw [Array.getElem?_push, if_neg (by omega), h]

theorem of_getElem?_push {β : Type} {xs : Array β} {x y : β} {k : Nat}
    (h : (xs.push y)[k]? = some x) : xs[k]? = some x ∨ k = xs.size ∧ x = y := by
  rw [Array.getElem?_push] at h
  split at h
  case isTrue hk => exact .inr ⟨hk, (Option.some.inj h).symm⟩
  case isFalse => exact .inl h

theorem mapIdx_same {β : Type} (xs : Array β) : (xs.mapIdx fun _ x => x) = xs := by
  refine Array.ext_getElem? fun k => ?_
  rw [Array.getElem?_mapIdx, Option.map_id']

theorem map_modify {α β : Type} {xs : Array α} {i : Nat} {f : α → α} {g : α → β} (f' : β → β)
    (h : ∀ x, g (f x) = f' (g x)) : (xs.modify i f).map g = (xs.map g).modify i f' := by
  refine Array.ext_getElem? fun k => ?_
  simp only [Array.getElem?_map, Array.getElem?_modify]
  split
  · rw [Option.map_map, Option.map_map]
    exact congrArg (Option.map · _) (funext h)
  · rfl

theorem map_modify_of_same {α β : Type} {xs : Array α} {i : Nat} {f : α → α} {g : α → β}
    (h : ∀ x, g (f x) = g x) : (xs.modify i f).map g = xs.map g := by
  refine Array.ext_getElem? fun k => ?_
  rw [map_modify id h, Array.getElem?_modify, Option.map_id_fun, id, ite_self]

theorem isSome_eq_of_map {α β : Type} {o o' : Option α} {b : β}
    (h : o.map (fun _ => b) = o'.map fun _ => b) : o.isSome = o'.isSome := by
  simpa using congrArg Option.isSome h

theorem toList_append_inj {α : Type} {o o' : Option α} {xs ys : List α}
    (hsome : o.isSome = o'.isSome) (h : o.toList ++ xs = o'.toList ++ ys) : o = o' ∧ xs = ys := by
  cases o <;> cases o' <;> simp_all

theorem toList_inj {α : Type} {o o' : Option α} : o.toList = o'.toList ↔ o = o' := by
  cases o <;> cases o' <;> simp

end TurtleScript
