import Mathlib.Algebra.Group.Nat.Defs
import TurtleScript.Machine.Step
import TurtleScript.Proofs.Sequences

/-!
# Constants by their numbers

A pool may be searched from its start for every constant. One that is used for a whole program
keeps an index beside its values: constants are looked up by a key, and what is found is a number
of 32 bits. The two give the same numbers as long as these suffice, and hold the same values: each
constant once, where it first occurred.
-/
namespace TurtleScript

namespace Constant

/-- What constants are told apart by. -/
inductive Key where
  | boolean (b : Bool)
  | double (bits : UInt64)
  | string (s : String)
deriving DecidableEq, Repr

def key : Constant → Key
  | .boolean b => .boolean b
  | .double d => .double d.bits
  | .string s => .string s

def Key.constant : Key → Constant
  | .boolean b => .boolean b
  | .double bits => .double ⟨bits⟩
  | .string s => .string s

theorem constant_key (c : Constant) : c.key.constant = c := by cases c <;> rfl

theorem key_inj {a b : Constant} : a.key = b.key ↔ a = b :=
  ⟨fun h => by rw [← constant_key a, h, constant_key], congrArg key⟩

end Constant

/-- A pool with the numbers of its constants by their keys. -/
structure IndexedPool where
  values : Array Constant := #[]
  index : List (Constant.Key × UInt32) := []
deriving DecidableEq, Repr

/-- The number of `c`, which is added to the values and to the index if it is new. -/
def IndexedPool.intern (p : IndexedPool) (c : Constant) : UInt32 × IndexedPool :=
  match p.index.lookup c.key with
  | some id => (id, p)
  | none =>
    let id := UInt32.ofNat p.values.size
    (id, { values := p.values.push c, index := (c.key, id) :: p.index })

/-- Interns one constant after another. -/
def internAll {P ι : Type} (intern : P → Constant → ι × P) (p : P) : List Constant → List ι × P
  | [] => ([], p)
  | c :: cs =>
    let (id, p) := intern p c
    let (ids, p) := internAll intern p cs
    (id :: ids, p)

namespace Pool

variable {p : Pool} {c : Constant} {cs seen : List Constant}

theorem intern_of_mem (h : c ∈ p.values) : p.intern c = (p.values.idxOf c, p) := by
  rw [intern, idxOf?_of_mem h]

theorem intern_of_not_mem (h : c ∉ p.values) :
    p.intern c = (p.values.idxOf c, ⟨p.values ++ [c]⟩) := by
  rw [intern, List.idxOf?_eq_none_iff.mpr h, List.idxOf_eq_length h]

/-- A pool that holds what was seen, each constant once, goes on to hold what comes next. -/
theorem intern_values (h : p.values = seen.eraseDups) :
    (p.intern c).2.values = (seen ++ [c]).eraseDups := by
  have hmem : c ∈ p.values ↔ c ∈ seen := by rw [h, List.mem_eraseDups]
  rw [List.eraseDups_append]
  by_cases hc : c ∈ p.values
  · have hold : [c].removeAll seen = [] := by simp [List.removeAll, hmem.mp hc]
    rw [intern_of_mem hc, hold, List.eraseDups_nil, List.append_nil, h]
  · have hnew : [c].removeAll seen = [c] := by simp [List.removeAll, mt hmem.mpr hc]
    rw [intern_of_not_mem hc, hnew, h]
    simp [List.eraseDups_cons]

theorem nodup_intern (h : p.values.Nodup) : (p.intern c).2.values.Nodup := by
  by_cases hc : c ∈ p.values
  · rwa [intern_of_mem hc]
  · rw [intern_of_not_mem hc]
    exact List.nodup_append.mpr ⟨h, by simp, by simpa using fun a ha => ne_of_mem_of_not_mem ha hc⟩

theorem internAll_values (h : p.values = seen.eraseDups) :
    (internAll intern p cs).2.values = (seen ++ cs).eraseDups := by
  induction cs generalizing p seen with
  | nil => rw [internAll, List.append_nil, h]
  | cons c cs ih =>
    rw [internAll, ih (intern_values h), List.append_assoc, List.singleton_append]

theorem values_prefix_intern : p.values <+: (p.intern c).2.values := by
  by_cases hc : c ∈ p.values
  · exact intern_of_mem hc ▸ List.prefix_rfl
  · rw [intern_of_not_mem hc]
    exact List.prefix_append _ _

theorem values_prefix_internAll : p.values <+: (internAll intern p cs).2.values := by
  induction cs generalizing p with
  | nil => exact List.prefix_rfl
  | cons c cs ih => exact values_prefix_intern.trans ih

theorem idxOf_intern :
    c ∈ (p.intern c).2.values ∧ (p.intern c).2.values.idxOf c = (p.intern c).1 := by
  by_cases hc : c ∈ p.values
  · rw [intern_of_mem hc]
    exact ⟨hc, rfl⟩
  · rw [intern_of_not_mem hc]
    refine ⟨List.mem_append_right _ (List.mem_singleton_self c), ?_⟩
    rw [List.idxOf_append, if_neg hc, List.idxOf_cons_self, Nat.zero_add]
    exact (List.idxOf_eq_length hc).symm

/-- The numbers given on the way are those that the last pool has. -/
theorem internAll_ids :
    (internAll intern p cs).1 = cs.map ((internAll intern p cs).2.values.idxOf ·) := by
  induction cs generalizing p with
  | nil => rfl
  | cons c cs ih =>
    obtain ⟨hmem, hid⟩ := idxOf_intern (p := p) (c := c)
    obtain ⟨rest, hrest⟩ := (values_prefix_internAll : _ <+: (internAll intern (p.intern c).2 cs).2.values)
    have hlast : (internAll intern (p.intern c).2 cs).2.values.idxOf c = (p.intern c).1 := by
      rw [← hrest, List.idxOf_append, if_pos hmem, hid]
    rw [internAll, List.map_cons, hlast, ← ih]

theorem nodup_internAll (h : p.values.Nodup) : (internAll intern p cs).2.values.Nodup := by
  induction cs generalizing p with
  | nil => exact h
  | cons c cs ih => exact ih (nodup_intern h)

end Pool

namespace IndexedPool

variable {p : IndexedPool} {q : Pool}

/-- The pools hold the same values, and the index finds of each the number that searching does. -/
structure InStep (p : IndexedPool) (q : Pool) : Prop where
  values : p.values.toList = q.values
  index (c : Constant) : p.index.lookup c.key =
    if c ∈ q.values then some (UInt32.ofNat (q.values.idxOf c)) else none

theorem InStep.intern (h : InStep p q) (c : Constant) :
    (p.intern c).1 = UInt32.ofNat (q.intern c).1 ∧ InStep (p.intern c).2 (q.intern c).2 := by
  have hsize : p.values.size = q.values.length := by rw [← h.values, Array.length_toList]
  by_cases hc : c ∈ q.values
  · have hfound : p.intern c = (UInt32.ofNat (q.values.idxOf c), p) := by
      rw [IndexedPool.intern, h.index, if_pos hc]
    rw [hfound, Pool.intern_of_mem hc]
    exact ⟨rfl, h⟩
  · have hadded : p.intern c = (UInt32.ofNat q.values.length,
        ⟨p.values.push c, (c.key, UInt32.ofNat q.values.length) :: p.index⟩) := by
      rw [IndexedPool.intern, h.index, if_neg hc, hsize]
    rw [hadded, Pool.intern_of_not_mem hc, List.idxOf_eq_length hc]
    refine ⟨rfl, by simp [h.values], fun d => ?_⟩
    by_cases hd : d = c
    · subst hd
      simp [List.idxOf_append, hc]
    · have hne : (d.key == c.key) = false := by simpa [Constant.key_inj] using hd
      rw [List.lookup_cons, hne]
      simp only [h.index, List.mem_append, List.mem_singleton, hd, or_false, List.idxOf_append]
      split <;> rfl

theorem InStep.internAll (h : InStep p q) (cs : List Constant) :
    (internAll IndexedPool.intern p cs).1 = (internAll Pool.intern q cs).1.map UInt32.ofNat ∧
      InStep (internAll IndexedPool.intern p cs).2 (internAll Pool.intern q cs).2 := by
  induction cs generalizing p q with
  | nil => exact ⟨rfl, h⟩
  | cons c cs ih =>
    obtain ⟨hid, hnext⟩ := h.intern c
    obtain ⟨hids, hlast⟩ := ih hnext
    exact ⟨by simp [internAll, hid, hids], hlast⟩

theorem inStep_empty : InStep {} {} := ⟨rfl, fun _ => by simp⟩

/-- The pool of a sequence of constants. -/
def ofList (cs : List Constant) : IndexedPool := (internAll intern {} cs).2

/-- The numbers that the constants of a sequence were given. -/
def numbers (cs : List Constant) : List UInt32 := (internAll intern {} cs).1

section Sequence

variable {cs : List Constant}

theorem internAll_pool : (internAll Pool.intern {} cs).2.values = cs.eraseDups :=
  Pool.internAll_values (rfl : _ = List.eraseDups [])

theorem values_ofList : (ofList cs).values.toList = cs.eraseDups :=
  (inStep_empty.internAll cs).2.values.trans internAll_pool

theorem numbers_eq : numbers cs = cs.map fun c => UInt32.ofNat (cs.eraseDups.idxOf c) := by
  rw [numbers, (inStep_empty.internAll cs).1, Pool.internAll_ids, internAll_pool, List.map_map]
  rfl

variable (h : cs.eraseDups.length < 2 ^ 32)
include h

theorem toNat_idxOf {c : Constant} (hc : c ∈ cs) :
    (UInt32.ofNat (cs.eraseDups.idxOf c)).toNat = cs.eraseDups.idxOf c := by
  have hlt := List.idxOf_lt_length_iff.mpr (List.mem_eraseDups.mpr hc)
  exact UInt32.toNat_ofNat_of_lt' (Nat.lt_trans hlt h)

theorem toNat_numbers : (numbers cs).map UInt32.toNat = (internAll Pool.intern {} cs).1 := by
  rw [numbers_eq, Pool.internAll_ids, internAll_pool, List.map_map]
  exact List.map_congr_left fun c hc => toNat_idxOf h hc

/-- What the numbers stand for, now and after any further constants. -/
theorem getElem?_numbers (more : List Constant) : (numbers cs).map (fun id =>
    (internAll intern (ofList cs) more).2.values[id.toNat]?) = cs.map some := by
  have hstep := ((inStep_empty.internAll cs).2.internAll more).2
  rw [numbers_eq, List.map_map]
  refine List.map_congr_left fun c hc => ?_
  have hlt := List.idxOf_lt_length_iff.mpr (List.mem_eraseDups.mpr hc)
  rw [Function.comp_apply, toNat_idxOf h hc, ← Array.getElem?_toList, ofList, hstep.values,
    Pool.internAll_values internAll_pool, List.eraseDups_append, List.getElem?_append_left hlt,
    List.getElem?_eq_getElem hlt, List.getElem_idxOf hlt]

theorem getElem?_number (i : Nat) :
    ((numbers cs)[i]?.map fun id => (ofList cs).values[id.toNat]?) = cs[i]?.map some := by
  rw [← List.getElem?_map, ← List.getElem?_map]
  exact congrArg (·[i]?) (getElem?_numbers h [])

theorem numbers_inj (i j : Nat) : (numbers cs)[i]? = (numbers cs)[j]? ↔ cs[i]? = cs[j]? := by
  constructor
  · intro hij
    have hsame := getElem?_number h i
    rw [hij, getElem?_number h j] at hsame
    exact (Option.map_injective (fun _ _ => Option.some.inj) hsame).symm
  · intro hij
    rw [numbers_eq, List.getElem?_map, List.getElem?_map, hij]

/-- Loading by a number loads the constant that was given it. -/
theorem execute_loadConst {σ : Type} {m : Machine σ} (hm : m.module.constants = (ofList cs).values)
    {i : Nat} {c : Constant} {id : UInt32} {operand : Int32} (hc : cs[i]? = some c)
    (hid : (numbers cs)[i]? = some id) (ho : operand.toInt = id.toNat) (here : Nat) (s : State σ) :
    m.execute here (.loadConst operand) s = Exec.push (.ofConstant c) s := by
  have hvalue := getElem?_number h i
  rw [hid, hc, Option.map_some, Option.map_some, Option.some.injEq] at hvalue
  have hindex : Int32.index? operand = some id.toNat := by
    rw [Int32.index?, ho, if_pos (Int.natCast_nonneg _), Int.toNat_natCast]
  change m.loadConst operand s = _
  rw [Machine.loadConst, hindex, Option.bind_some, hm, hvalue]
  rfl

end Sequence

/-- The values are the first occurrences of what was interned, in order and each once. A number
stands for the constant it was given for, bit for bit, whatever is interned later, and loading by
it loads that constant; constants share a number exactly if they are the same. A pool that is
searched gives the same numbers and holds the same values. -/
theorem ofList_numbers (cs : List Constant) (h : cs.eraseDups.length < 2 ^ 32) :
    (ofList cs).values.toList = cs.eraseDups ∧
    (ofList cs).values.toList.Nodup ∧
    (∀ more, (numbers cs).map (fun id =>
      (internAll intern (ofList cs) more).2.values[id.toNat]?) = cs.map some) ∧
    (∀ i j : Nat, (numbers cs)[i]? = (numbers cs)[j]? ↔ cs[i]? = cs[j]?) ∧
    (∀ (σ : Type) (m : Machine σ) (i : Nat) (c : Constant) (id : UInt32) (operand : Int32),
      m.module.constants = (ofList cs).values → cs[i]? = some c → (numbers cs)[i]? = some id →
      operand.toInt = id.toNat →
      ∀ here s, m.execute here (.loadConst operand) s = Exec.push (.ofConstant c) s) ∧
    internAll Pool.intern {} cs =
      ((numbers cs).map UInt32.toNat, ⟨(ofList cs).values.toList⟩) := by
  have hnodup : (ofList cs).values.toList.Nodup := by
    rw [values_ofList, ← internAll_pool]
    exact Pool.nodup_internAll List.nodup_nil
  refine ⟨values_ofList, hnodup, getElem?_numbers h, numbers_inj h, ?_, ?_⟩
  · intro σ m i c id operand hm hc hid ho
    exact execute_loadConst h hm hc hid ho
  · rw [toNat_numbers h, values_ofList, ← internAll_pool]

/-- Both zeros, a pattern that is no number twice, and a text and a truth value that print alike. -/
def alike : List Constant :=
  [.double ⟨0⟩, .double ⟨0x8000000000000000⟩, .double ⟨0x7ff8000000000001⟩, .string "true",
    .boolean true, .double ⟨0x7ff8000000000001⟩]

theorem ofList_numbers_alike :
    alike.eraseDups.length < 2 ^ 32 ∧
      (ofList alike).values.toList = alike.take 5 ∧ numbers alike = [0, 1, 2, 3, 4, 2] ∧
      ∀ (m : Machine Unit), m.module.constants = (ofList alike).values →
        ∀ here s, m.execute here (.loadConst 2) s =
          Exec.push (.double ⟨0x7ff8000000000001⟩) s := by
  have h : alike.eraseDups.length < 2 ^ 32 := by decide
  obtain ⟨hvalues, -, -, -, hload, -⟩ := ofList_numbers alike h
  refine ⟨h, hvalues.trans (by decide), by decide, fun m hm => ?_⟩
  exact hload Unit m 5 _ 2 2 hm rfl (by decide) (by decide)

end IndexedPool

end TurtleScript
