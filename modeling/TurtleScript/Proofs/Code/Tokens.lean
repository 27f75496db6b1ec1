import TurtleScript.Code.Builder
import TurtleScript.Proofs.Monad

/-!
# Code as a list of tokens

A function under construction is a list of instructions and of marks of no width. To
append is to append a token, to acquire a marker is to append a mark, and to put an
instruction at a marker is to put it right after the mark. A jump knows the mark it aims
at, and its distance is read off the list. Releasing a marker changes nothing here.

Marks are only ever appended, so they stand in the order of their numbers. This is what
the rule of the builder for two places with one index amounts to.
-/
namespace TurtleScript

inductive Token where
  /-- An instruction, and the mark that it aims at if it is a jump with a target. -/
  | instr (i : Instr) (target : Option Nat)
  | mark (id : Nat)
deriving DecidableEq, Repr

theorem Instr.withDelta_withDelta (a b : Int32) (i : Instr) :
    (i.withDelta a).withDelta b = i.withDelta b := by
  cases i <;> rfl

namespace Tokens

/-- The instructions with their targets. -/
def instrs (ts : List Token) : List (Instr × Option Nat) :=
  ts.filterMap fun
    | .instr i target => some (i, target)
    | .mark _ => none

def marks (ts : List Token) : List Nat :=
  ts.filterMap fun
    | .instr _ _ => none
    | .mark id => some id

/-- The number of instructions before a mark. -/
def placeOf (id : Nat) : List Token → Nat
  | [] => 0
  | .mark k :: ts => if k = id then 0 else placeOf id ts
  | .instr _ _ :: ts => placeOf id ts + 1

/-- The instruction number `index`, aimed at the place of its target. -/
def resolve (place : Nat → Nat) (index : Nat) : Instr × Option Nat → Instr
  | (i, none) => i
  | (i, some target) => i.withDelta (Int32.ofInt (place target - index : Int))

/-- The code that the tokens stand for. -/
def render (ts : List Token) : List Instr := (instrs ts).mapIdx (resolve fun id => placeOf id ts)

section Lists

variable {xs ys : List Token} {id : Nat}

@[simp, grind =] theorem instrs_nil : instrs [] = [] := rfl

@[simp, grind =] theorem instrs_instr (i : Instr) (target : Option Nat) (ts : List Token) :
    instrs (.instr i target :: ts) = (i, target) :: instrs ts := rfl

@[simp, grind =] theorem instrs_mark (k : Nat) (ts : List Token) :
    instrs (.mark k :: ts) = instrs ts := rfl

@[simp, grind =] theorem instrs_append (xs ys : List Token) :
    instrs (xs ++ ys) = instrs xs ++ instrs ys :=
  List.filterMap_append

@[simp, grind =] theorem marks_nil : marks [] = [] := rfl

@[simp, grind =] theorem marks_instr (i : Instr) (target : Option Nat) (ts : List Token) :
    marks (.instr i target :: ts) = marks ts := rfl

@[simp, grind =] theorem marks_mark (k : Nat) (ts : List Token) :
    marks (.mark k :: ts) = k :: marks ts := rfl

@[simp, grind =] theorem marks_append (xs ys : List Token) :
    marks (xs ++ ys) = marks xs ++ marks ys :=
  List.filterMap_append

theorem placeOf_append_of_mem (h : id ∈ marks xs) (ys : List Token) :
    placeOf id (xs ++ ys) = placeOf id xs := by
  induction xs with
  | nil => cases h
  | cons t xs ih =>
    cases t with
    | instr i target => exact congrArg (· + 1) (ih h)
    | mark k =>
      simp only [List.cons_append, placeOf]
      split
      · rfl
      · rename_i hk
        exact ih ((List.mem_cons.mp h).resolve_left (Ne.symm hk))

theorem placeOf_append_of_not_mem (h : id ∉ marks xs) (ys : List Token) :
    placeOf id (xs ++ ys) = (instrs xs).length + placeOf id ys := by
  induction xs with
  | nil => exact (Nat.zero_add _).symm
  | cons t xs ih =>
    cases t with
    | instr i target =>
      rw [List.cons_append, placeOf, ih h, instrs_instr, List.length_cons]
      omega
    | mark k =>
      simp only [marks_mark, List.mem_cons, not_or] at h
      rw [List.cons_append, placeOf, if_neg (Ne.symm h.1), ih h.2, instrs_mark]

theorem placeOf_le (id : Nat) (xs : List Token) : placeOf id xs ≤ (instrs xs).length := by
  induction xs with
  | nil => exact Nat.le_refl _
  | cons t xs ih =>
    cases t with
    | instr i target => exact Nat.succ_le_succ ih
    | mark k =>
      simp only [placeOf]
      split
      · exact Nat.zero_le _
      · exact ih

theorem exists_split (h : id ∈ marks xs) : ∃ as bs, xs = as ++ .mark id :: bs := by
  induction xs with
  | nil => cases h
  | cons t xs ih =>
    cases t with
    | instr i target =>
      obtain ⟨as, bs, rfl⟩ := ih h
      exact ⟨.instr i target :: as, bs, rfl⟩
    | mark k =>
      rcases List.mem_cons.mp h with rfl | h
      · exact ⟨[], xs, rfl⟩
      · obtain ⟨as, bs, rfl⟩ := ih h
        exact ⟨.mark k :: as, bs, rfl⟩

theorem length_render (ts : List Token) : (render ts).length = (instrs ts).length := by
  rw [render, List.length_mapIdx]

theorem getElem?_render (ts : List Token) (k : Nat) :
    (render ts)[k]? = (instrs ts)[k]?.map (resolve (fun id => placeOf id ts) k) := by
  rw [render, List.getElem?_mapIdx]

end Lists

/-- The tokens of a builder. -/
structure Refines (ts : List Token) (b : CodeBuilder) : Prop where
  code : b.code.toList = render ts
  marks : marks ts = List.range b.nextMarker
  live : ∀ a ∈ b.live, a.id < b.nextMarker ∧ a.index = placeOf a.id ts
  /-- Every jump of the builder is a token that aims at the same mark. -/
  aimed : ∀ j ∈ b.jumps, j.target.id < b.nextMarker ∧ j.target.index = placeOf j.target.id ts ∧
    ∃ i, (instrs ts)[j.site]? = some (i, some j.target.id)
  jumps : ∀ (site : Nat) (i : Instr) (target : Nat), (instrs ts)[site]? = some (i, some target) →
    ∃ j ∈ b.jumps, j.site = site ∧ j.target.id = target

theorem refines_start (function : Nat) : Refines [] { function } where
  code := rfl
  marks := rfl
  live := nofun
  aimed := nofun
  jumps := nofun

section Split

variable {xs ys : List Token} {id n : Nat}

/-- The marks before a mark are the smaller ones. -/
theorem mem_marks_left (h : marks (xs ++ .mark id :: ys) = List.range n) (k : Nat) :
    k ∈ marks xs ↔ k < id := by
  rw [marks_append, marks_mark] at h
  have hlen : (marks xs).length = id := by
    have hget := congrArg (·[(marks xs).length]?) h
    simp only [List.getElem?_append_right (Nat.le_refl _), Nat.sub_self,
      List.getElem?_cons_zero] at hget
    obtain ⟨_, hid⟩ := List.getElem?_eq_some_iff.mp hget.symm
    rwa [List.getElem_range] at hid
  have htake := congrArg (List.take (marks xs).length) h
  rw [List.take_left, List.take_range, hlen] at htake
  have hle : id ≤ n := by
    have := congrArg List.length h
    simp only [List.length_append, List.length_cons, List.length_range] at this
    omega
  rw [htake, List.mem_range]
  omega

theorem not_mem_marks_left (h : marks (xs ++ .mark id :: ys) = List.range n) {k : Nat}
    (hk : id ≤ k) : k ∉ marks xs := by
  rw [mem_marks_left h]
  omega

theorem placeOf_mark (h : marks (xs ++ .mark id :: ys) = List.range n) :
    placeOf id (xs ++ .mark id :: ys) = (instrs xs).length := by
  rw [placeOf_append_of_not_mem (not_mem_marks_left h (Nat.le_refl id)), placeOf, if_pos rfl]
  rfl

/-- A token after a mark moves the places of the larger marks. -/
theorem placeOf_insert (h : marks (xs ++ .mark id :: ys) = List.range n) (i : Instr)
    (target : Option Nat) (k : Nat) :
    placeOf k (xs ++ .mark id :: .instr i target :: ys) =
      if id < k then placeOf k (xs ++ .mark id :: ys) + 1 else placeOf k (xs ++ .mark id :: ys) := by
  by_cases hk : k < id
  · have hmem := (mem_marks_left h k).mpr hk
    rw [placeOf_append_of_mem hmem, placeOf_append_of_mem hmem, if_neg (by omega)]
  · have hmem := not_mem_marks_left h (Nat.not_lt.mp hk)
    rw [placeOf_append_of_not_mem hmem, placeOf_append_of_not_mem hmem, placeOf, placeOf]
    split
    · rw [if_neg (by omega)]
    · rw [if_pos (by omega), placeOf]
      omega

/-- The places of the marks around a mark. -/
theorem placeOf_around (h : marks (xs ++ .mark id :: ys) = List.range n) (k : Nat) :
    (k < id → placeOf k (xs ++ .mark id :: ys) ≤ (instrs xs).length) ∧
    (id < k → (instrs xs).length ≤ placeOf k (xs ++ .mark id :: ys)) := by
  constructor
  · intro hk
    rw [placeOf_append_of_mem ((mem_marks_left h k).mpr hk)]
    exact placeOf_le k xs
  · intro hk
    rw [placeOf_append_of_not_mem (not_mem_marks_left h (Nat.le_of_lt hk))]
    exact Nat.le_add_right _ _

/-- The builder's rule for a place after an insertion. -/
theorem index_shift (h : marks (xs ++ .mark id :: ys) = List.range n) (i : Instr)
    (target : Option Nat) {a spot : Anchor} (hid : spot.id = id)
    (hspot : spot.index = (instrs xs).length)
    (ha : a.index = placeOf a.id (xs ++ .mark id :: ys)) :
    (a.shift spot).index = placeOf a.id (xs ++ .mark id :: .instr i target :: ys) := by
  obtain ⟨hleft, hright⟩ := placeOf_around h a.id
  have hself : a.id = id → a.index = (instrs xs).length := fun he => by
    rw [ha, he]
    exact placeOf_mark h
  rw [placeOf_insert h, Anchor.shift, hid]
  split
  · rename_i hs
    rw [if_pos (by omega), ← ha]
  · rename_i hs
    rw [if_neg (by omega), ← ha]

theorem id_shift (a spot : Anchor) : (a.shift spot).id = a.id := by
  rw [Anchor.shift]
  split <;> rfl

end Split

/-- Aiming jumps whose distances are a function of their sites. -/
theorem getElem?_foldl_aim (js : List AimedJump) (code : Array Instr) (delta : Nat → Int32)
    (h : ∀ j ∈ js, j.delta = delta j.site) (k : Nat) :
    (js.foldl AimedJump.aim code)[k]? =
      code[k]?.map fun i => if js.any (·.site = k) then i.withDelta (delta k) else i := by
  induction js generalizing code with
  | nil => simp
  | cons j js ih =>
    obtain ⟨hj, hjs⟩ := List.forall_mem_cons.mp h
    rw [List.foldl_cons, ih _ hjs, AimedJump.aim, Array.getElem?_modify, hj]
    by_cases hk : j.site = k
    · subst hk
      cases code[j.site]? with
      | none => simp
      | some i =>
        by_cases hany : js.any (·.site = j.site) = true <;>
          simp [hany, Instr.withDelta_withDelta]
    · simp [hk]

/-- The distance that the tokens give to the instruction number `k`. -/
def deltaAt (ts : List Token) (k : Nat) : Int32 :=
  match (instrs ts)[k]? with
  | some (_, some target) => Int32.ofInt (placeOf target ts - k : Int)
  | _ => 0

/-- Aiming the right jumps gives every instruction its distance. -/
theorem toList_foldl_aim {ts : List Token} {js : List AimedJump} {code : Array Instr}
    (hcode : ∀ k : Nat, code[k]?.map (·.withDelta 0) = (instrs ts)[k]?.map (·.1.withDelta 0))
    (hplain : ∀ (k : Nat) (i : Instr), (instrs ts)[k]? = some (i, none) → code[k]? = some i)
    (haimed : ∀ j ∈ js, j.target.index = placeOf j.target.id ts ∧
      ∃ i, (instrs ts)[j.site]? = some (i, some j.target.id))
    (hjumps : ∀ (site : Nat) (i : Instr) (target : Nat),
      (instrs ts)[site]? = some (i, some target) → ∃ j ∈ js, j.site = site) :
    (js.foldl AimedJump.aim code).toList = render ts := by
  have hdelta : ∀ j ∈ js, j.delta = deltaAt ts j.site := by
    intro j hj
    obtain ⟨hindex, i, hi⟩ := haimed j hj
    simp only [AimedJump.delta, deltaAt, hi, hindex]
  refine List.ext_getElem? fun k => ?_
  rw [Array.getElem?_toList, getElem?_foldl_aim js code _ hdelta, getElem?_render]
  cases hk : (instrs ts)[k]? with
  | none =>
    have := hcode k
    rw [hk, Option.map_none, Option.map_eq_none_iff] at this
    rw [this]
    rfl
  | some p =>
    obtain ⟨i, target⟩ := p
    cases target with
    | none =>
      have hnone : ¬ js.any (·.site = k) = true := by
        intro hany
        obtain ⟨j, hj, hsite⟩ := List.any_eq_true.mp hany
        obtain ⟨_, i', hi'⟩ := haimed j hj
        rw [of_decide_eq_true hsite, hk] at hi'
        cases hi'
      rw [hplain k i hk]
      simp only [Option.map_some, if_neg hnone, resolve]
    | some target =>
      obtain ⟨j, hj, hsite⟩ := hjumps k i target hk
      have hany : js.any (·.site = k) = true :=
        List.any_eq_true.mpr ⟨j, hj, decide_eq_true hsite⟩
      have hc := hcode k
      rw [hk, Option.map_some, Option.map_eq_some_iff] at hc
      obtain ⟨x, hx, hxi⟩ := hc
      have hw := congrArg (Instr.withDelta (deltaAt ts k)) hxi
      rw [Instr.withDelta_withDelta, Instr.withDelta_withDelta] at hw
      have hd : deltaAt ts k = Int32.ofInt (placeOf target ts - k : Int) := by
        simp only [deltaAt, hk]
      simp only [hx, Option.map_some, if_pos hany, resolve]
      rw [hw, hd]

theorem resolve_withDelta (place : Nat → Nat) (k : Nat) (p : Instr × Option Nat) :
    (resolve place k p).withDelta 0 = p.1.withDelta 0 := by
  obtain ⟨i, target⟩ := p
  cases target with
  | none => rfl
  | some target => exact Instr.withDelta_withDelta ..

section Steps

variable {b b' : CodeBuilder} {xs ys ts : List Token} {id : Nat}

theorem Refines.getElem?_code (h : Refines ts b) (k : Nat) :
    b.code[k]? = (instrs ts)[k]?.map (resolve (fun id => placeOf id ts) k) := by
  rw [← Array.getElem?_toList, h.code, getElem?_render]

/-- An instruction depends on the places of the marks so far alone. -/
theorem Refines.getElem?_code_of_place (h : Refines ts b) {place : Nat → Nat}
    (hplace : ∀ id < b.nextMarker, place id = placeOf id ts) (k : Nat) :
    b.code[k]? = (instrs ts)[k]?.map (resolve place k) := by
  rw [h.getElem?_code]
  cases hp : (instrs ts)[k]? with
  | none => rfl
  | some p =>
    obtain ⟨i, target⟩ := p
    cases target with
    | none => rfl
    | some target =>
      obtain ⟨j, hj, -, rfl⟩ := h.jumps k i target hp
      simp only [Option.map_some, resolve, hplace _ (h.aimed j hj).1]

theorem Refines.size_code (h : Refines ts b) : b.code.size = (instrs ts).length := by
  rw [← Array.length_toList, h.code, length_render]

/-- Where an instruction stands after one was put in at `n`. -/
def moved (n k : Nat) : Nat := if n ≤ k then k + 1 else k

theorem eq_or_moved (n site : Nat) : site = n ∨ ∃ k, moved n k = site := by
  rcases Nat.lt_trichotomy site n with hlt | heq | hgt
  · exact .inr ⟨site, if_neg (by omega)⟩
  · exact .inl heq
  · refine .inr ⟨site - 1, ?_⟩
    rw [moved, if_pos (by omega), Nat.sub_add_cancel (by omega)]

theorem getElem?_instrs_moved (i : Instr) (k : Nat) :
    (instrs (xs ++ .mark id :: .instr i none :: ys))[moved (instrs xs).length k]? =
      (instrs (xs ++ .mark id :: ys))[k]? := by
  simp only [instrs_append, instrs_mark, instrs_instr, moved]
  split
  · rw [List.getElem?_append_right (by omega), List.getElem?_append_right (by omega),
      Nat.sub_add_comm (by omega), List.getElem?_cons_succ]
  · rw [List.getElem?_append_left (by omega), List.getElem?_append_left (by omega)]

section Array

variable {code : Array Instr} {n : Nat} {i : Instr} (hn : n ≤ code.size)

include hn

theorem getElem?_insert_self : (code.insertIdxIfInBounds n i)[n]? = some i := by
  rw [Array.insertIdxIfInBounds, dif_pos hn, Array.getElem?_insertIdx, if_neg (Nat.lt_irrefl n),
    if_pos rfl, if_pos hn]

theorem getElem?_insert_moved (k : Nat) :
    (code.insertIdxIfInBounds n i)[moved n k]? = code[k]? := by
  rw [Array.insertIdxIfInBounds, dif_pos hn, Array.getElem?_insertIdx, moved]
  split
  · rw [if_neg (by omega), if_neg (by omega), Nat.add_sub_cancel]
  · rw [if_pos (by omega)]

end Array

/-- To insert an instruction is to put it after the mark. -/
theorem Refines.insert (h : Refines (xs ++ .mark id :: ys) b) {spot : Anchor} (hid : spot.id = id)
    (hspot : spot.index = (instrs xs).length) (i : Instr) :
    Refines (xs ++ .mark id :: .instr i none :: ys) (b.insert spot i) := by
  have hle : spot.index ≤ b.code.size := by
    rw [h.size_code, hspot]
    simp
  have hself : (instrs (xs ++ .mark id :: .instr i none :: ys))[spot.index]? = some (i, none) := by
    simp [hspot]
  have hmoved (k : Nat) : (instrs (xs ++ .mark id :: .instr i none :: ys))[moved spot.index k]? =
      (instrs (xs ++ .mark id :: ys))[k]? := by
    rw [hspot]
    exact getElem?_instrs_moved i k
  have haimed : ∀ j ∈ b.jumps.map (·.shift spot), j.target.id < b.nextMarker ∧
      j.target.index = placeOf j.target.id (xs ++ .mark id :: .instr i none :: ys) ∧
      ∃ i', (instrs (xs ++ .mark id :: .instr i none :: ys))[j.site]? =
        some (i', some j.target.id) := by
    intro j' hj'
    obtain ⟨j, hj, rfl⟩ := List.mem_map.mp hj'
    obtain ⟨hlt, hindex, i', hi'⟩ := h.aimed j hj
    simp only [AimedJump.shift, id_shift]
    exact ⟨hlt, index_shift h.marks i none hid hspot hindex, i', (hmoved j.site).trans hi'⟩
  have hjumps : ∀ (site : Nat) (i' : Instr) (target : Nat),
      (instrs (xs ++ .mark id :: .instr i none :: ys))[site]? = some (i', some target) →
      ∃ j ∈ b.jumps.map (·.shift spot), j.site = site ∧ j.target.id = target := by
    intro site i' target hsite
    rcases eq_or_moved spot.index site with rfl | ⟨k, rfl⟩
    · cases hself.symm.trans hsite
    · obtain ⟨j, hj, rfl, hjt⟩ := h.jumps k i' target ((hmoved k).symm.trans hsite)
      exact ⟨j.shift spot, List.mem_map_of_mem hj, rfl, (id_shift j.target spot).trans hjt⟩
  constructor
  case code =>
    -- an instruction of the new code is the inserted one or an old one
    refine toList_foldl_aim (fun k => ?_) (fun k i' hk => ?_) (fun j hj => (haimed j hj).2)
      fun site i' target hsite => ?_
    · rcases eq_or_moved spot.index k with rfl | ⟨q, rfl⟩
      · rw [hself, getElem?_insert_self hle]
        rfl
      · rw [hmoved, getElem?_insert_moved hle, h.getElem?_code, Option.map_map]
        exact congrFun (congrArg _ (funext fun p => resolve_withDelta _ q p)) _
    · rcases eq_or_moved spot.index k with rfl | ⟨q, rfl⟩
      · cases hself.symm.trans hk
        exact getElem?_insert_self hle
      · rw [hmoved] at hk
        rw [getElem?_insert_moved hle, h.getElem?_code, hk]
        rfl
    · obtain ⟨j, hj, hjs, _⟩ := hjumps site i' target hsite
      exact ⟨j, hj, hjs⟩
  case marks =>
    change Tokens.marks _ = List.range b.nextMarker
    rw [← h.marks]
    simp
  case live =>
    intro a ha
    obtain ⟨a', ha', rfl⟩ := List.mem_map.mp ha
    obtain ⟨hlt, hindex⟩ := h.live a' ha'
    split
    · rename_i he
      refine ⟨hlt, ?_⟩
      rw [placeOf_insert h.marks, if_neg (by omega), hindex]
    · rw [id_shift]
      exact ⟨hlt, index_shift h.marks i none hid hspot hindex⟩
  case aimed => exact haimed
  case jumps => exact hjumps

/-- To aim an instruction is to give its token a target. -/
theorem Refines.aim {i : Instr} (h : Refines (xs ++ .instr i none :: ys) b) {target : Anchor}
    (ht : target ∈ b.live) :
    Refines (xs ++ .instr i (some target.id) :: ys)
      { b with
        code := AimedJump.aim b.code ⟨(instrs xs).length, target⟩
        jumps := b.jumps ++ [⟨(instrs xs).length, target⟩] } := by
  obtain ⟨hlt, hindex⟩ := h.live target ht
  have hplace (k : Nat) : placeOf k (xs ++ .instr i (some target.id) :: ys) =
      placeOf k (xs ++ .instr i none :: ys) := by
    by_cases hk : k ∈ Tokens.marks xs
    · rw [placeOf_append_of_mem hk, placeOf_append_of_mem hk]
    · rw [placeOf_append_of_not_mem hk, placeOf_append_of_not_mem hk]
      rfl
  have hsite : (instrs (xs ++ .instr i (some target.id) :: ys))[(instrs xs).length]? =
      some (i, some target.id) := by
    simp
  have hother {k : Nat} (hk : k ≠ (instrs xs).length) :
      (instrs (xs ++ .instr i (some target.id) :: ys))[k]? =
        (instrs (xs ++ .instr i none :: ys))[k]? := by
    simp only [instrs_append, instrs_instr, List.getElem?_append, List.getElem?_cons]
    split
    · rfl
    · rw [if_neg (by omega), if_neg (by omega)]
  have hplain : (instrs (xs ++ .instr i none :: ys))[(instrs xs).length]? = some (i, none) := by
    simp
  constructor
  case code =>
    refine List.ext_getElem? fun k => ?_
    rw [Array.getElem?_toList, AimedJump.aim, Array.getElem?_modify, h.getElem?_code,
      getElem?_render, funext hplace]
    by_cases hk : (instrs xs).length = k
    · subst hk
      rw [if_pos rfl, hsite, hplain]
      simp only [Option.map_some, resolve, AimedJump.delta, hindex]
    · rw [if_neg hk, hother (Ne.symm hk)]
  case marks =>
    change Tokens.marks _ = List.range b.nextMarker
    rw [← h.marks]
    simp
  case live =>
    intro a ha
    rw [hplace]
    exact h.live a ha
  case aimed =>
    intro j hj
    rcases List.mem_append.mp hj with hj | hj
    · obtain ⟨hjlt, hjindex, i', hi'⟩ := h.aimed j hj
      have hne : j.site ≠ (instrs xs).length := by
        intro he
        rw [he, hplain] at hi'
        cases hi'
      rw [hplace, hother hne]
      exact ⟨hjlt, hjindex, i', hi'⟩
    · obtain rfl := List.mem_singleton.mp hj
      rw [hplace]
      exact ⟨hlt, hindex, i, hsite⟩
  case jumps =>
    intro site i' target' hs
    by_cases hk : site = (instrs xs).length
    · rw [hk, hsite] at hs
      cases hs
      exact ⟨_, List.mem_append_right _ (List.mem_singleton_self _), hk.symm, rfl⟩
    · rw [hother hk] at hs
      obtain ⟨j, hj, hjs, hjt⟩ := h.jumps site i' target' hs
      exact ⟨j, List.mem_append_left _ hj, hjs, hjt⟩

theorem Refines.push (h : Refines ts b) (i : Instr) :
    Refines (ts ++ [.instr i none]) { b with code := b.code.push i } := by
  have hplace {k : Nat} (hk : k < b.nextMarker) : placeOf k (ts ++ [.instr i none]) = placeOf k ts :=
    placeOf_append_of_mem (by rw [h.marks]; exact List.mem_range.mpr hk) _
  have hat {k : Nat} (hk : k ≠ (instrs ts).length) :
      (instrs (ts ++ [.instr i none]))[k]? = (instrs ts)[k]? := by
    rw [instrs_append, List.getElem?_append]
    split
    · rfl
    · rw [List.getElem?_eq_none (by simp; omega), List.getElem?_eq_none (by omega)]
  have hold {site : Nat} {i' : Instr} {target : Nat} :
      (instrs (ts ++ [.instr i none]))[site]? = some (i', some target) ↔
        (instrs ts)[site]? = some (i', some target) := by
    by_cases hk : site = (instrs ts).length
    · simp [hk]
    · rw [hat hk]
  constructor
  case code =>
    refine List.ext_getElem? fun k => ?_
    rw [Array.getElem?_toList, Array.getElem?_push, getElem?_render, h.size_code]
    by_cases hk : k = (instrs ts).length
    · rw [if_pos hk, hk]
      simp [resolve]
    · rw [if_neg hk, hat hk]
      exact h.getElem?_code_of_place (fun _ => hplace) k
  case marks =>
    change Tokens.marks _ = List.range b.nextMarker
    rw [← h.marks]
    simp
  case live =>
    intro a ha
    obtain ⟨hlt, hindex⟩ := h.live a ha
    exact ⟨hlt, hindex.trans (hplace hlt).symm⟩
  case aimed =>
    intro j hj
    obtain ⟨hlt, hindex, i', hi'⟩ := h.aimed j hj
    exact ⟨hlt, hindex.trans (hplace hlt).symm, i', hold.mpr hi'⟩
  case jumps =>
    intro site i' target hs
    exact h.jumps site i' target (hold.mp hs)

theorem Refines.mark (h : Refines ts b) :
    Refines (ts ++ [.mark b.nextMarker])
      { b with
        live := b.live ++ [{ id := b.nextMarker, index := b.code.size }]
        nextMarker := b.nextMarker + 1 } := by
  have hplace {k : Nat} (hk : k < b.nextMarker) :
      placeOf k (ts ++ [.mark b.nextMarker]) = placeOf k ts :=
    placeOf_append_of_mem (by rw [h.marks]; exact List.mem_range.mpr hk) _
  have hnew : placeOf b.nextMarker (ts ++ [.mark b.nextMarker]) = b.code.size := by
    rw [placeOf_append_of_not_mem (by rw [h.marks]; simp), h.size_code, placeOf, if_pos rfl]
    rfl
  have hinstrs : instrs (ts ++ [.mark b.nextMarker]) = instrs ts := by simp
  constructor
  case code =>
    refine List.ext_getElem? fun k => ?_
    rw [Array.getElem?_toList, getElem?_render, hinstrs]
    exact h.getElem?_code_of_place (fun _ => hplace) k
  case marks =>
    change Tokens.marks _ = List.range (b.nextMarker + 1)
    rw [List.range_succ, ← h.marks]
    simp
  case live =>
    intro a ha
    rcases List.mem_append.mp ha with ha | ha
    · obtain ⟨hlt, hindex⟩ := h.live a ha
      exact ⟨Nat.lt_succ_of_lt hlt, hindex.trans (hplace hlt).symm⟩
    · obtain rfl := List.mem_singleton.mp ha
      exact ⟨Nat.lt_succ_self _, hnew.symm⟩
  case aimed =>
    intro j hj
    obtain ⟨hlt, hindex, hi⟩ := h.aimed j hj
    exact ⟨Nat.lt_succ_of_lt hlt, hindex.trans (hplace hlt).symm, hinstrs ▸ hi⟩
  case jumps =>
    intro site i target hs
    exact h.jumps site i target (hinstrs ▸ hs)

theorem Refines.erase (h : Refines ts b) (a : Anchor) :
    Refines ts { b with live := b.live.erase a } :=
  { h with live := fun a' ha' => h.live a' (List.mem_of_mem_erase ha') }

end Steps

section Operations

open CodeBuilder

variable {b b' : CodeBuilder} {xs ys ts : List Token}

theorem anchor_eq_ok_iff {m : Marker} {a : Anchor} :
    anchor m b = .ok a b' ↔
      b' = b ∧ m.function = b.function ∧ b.live.find? (·.id = m.id) = some a := by
  constructor
  · intro h
    obtain ⟨b₁, b₂, hget, hk⟩ := EStateM.bind_eq_ok h
    cases hget
    by_cases hf : m.function = b.function
    · rw [if_neg (not_not_intro hf)] at hk
      cases hfind : b.live.find? (·.id = m.id) with
      | none => simp only [hfind] at hk; cases hk
      | some a' =>
        simp only [hfind] at hk
        obtain ⟨rfl, rfl⟩ := EStateM.pure_eq_ok hk
        exact ⟨rfl, hf, rfl⟩
    · rw [if_pos hf] at hk
      cases hk
  · rintro ⟨rfl, hf, hfind⟩
    refine (EStateM.bind_ok rfl).trans ?_
    rw [if_neg (not_not_intro hf)]
    simp only [hfind]
    rfl

theorem anchor_eq_ok {m : Marker} {a : Anchor} (h : anchor m b = .ok a b') :
    b' = b ∧ a ∈ b.live ∧ a.id = m.id := by
  obtain ⟨rfl, -, hfind⟩ := anchor_eq_ok_iff.mp h
  have hid : a.id = m.id := by simpa using List.find?_some hfind
  exact ⟨rfl, List.mem_of_find?_eq_some hfind, hid⟩

theorem anchor_ok {m : Marker} (hf : m.function = b.function)
    (hid : m.id ∈ b.live.map (·.id)) : ∃ a, anchor m b = .ok a b := by
  obtain ⟨x, hx, hxid⟩ := List.mem_map.mp hid
  have hsome : (b.live.find? (·.id = m.id)).isSome :=
    List.find?_isSome.mpr ⟨x, hx, decide_eq_true hxid⟩
  obtain ⟨a, hfind⟩ := Option.isSome_iff_exists.mp hsome
  exact ⟨a, anchor_eq_ok_iff.mpr ⟨rfl, hf, hfind⟩⟩

theorem aim_refines {i : Instr} {target : Marker} {u : Unit}
    (hr : Refines (xs ++ .instr i none :: ys) b)
    (h : CodeBuilder.aim (instrs xs).length target b = .ok u b') :
    Refines (xs ++ .instr i (some target.id) :: ys) b' ∧
      b'.nextMarker = b.nextMarker ∧ b'.function = b.function := by
  obtain ⟨a, b₁, ha, hk⟩ := EStateM.bind_eq_ok h
  obtain ⟨rfl, hlive, hid⟩ := anchor_eq_ok ha
  cases hk
  exact ⟨hid ▸ hr.aim hlive, rfl, rfl⟩

theorem place_refines {m : Marker} {i : Instr} {k : Nat} (hr : Refines (xs ++ .mark m.id :: ys) b)
    (h : place m i b = .ok k b') :
    Refines (xs ++ .mark m.id :: .instr i none :: ys) b' ∧ k = (instrs xs).length ∧
      b'.nextMarker = b.nextMarker ∧ b'.function = b.function := by
  obtain ⟨spot, b₁, ha, hk⟩ := EStateM.bind_eq_ok h
  obtain ⟨rfl, hlive, hid⟩ := anchor_eq_ok ha
  cases hk
  have hspot : spot.index = (instrs xs).length := by
    rw [(hr.live spot hlive).2, hid]
    exact placeOf_mark hr.marks
  exact ⟨hr.insert hid hspot i, hspot, rfl, rfl⟩

theorem placeJump_refines {m target : Marker} {kind : JumpKind} {u : Unit}
    (hr : Refines (xs ++ .mark m.id :: ys) b) (h : placeJump m kind target b = .ok u b') :
    Refines (xs ++ .mark m.id :: .instr (.jump kind 0) (some target.id) :: ys) b' ∧
      b'.nextMarker = b.nextMarker ∧ b'.function = b.function := by
  obtain ⟨site, b₁, hp, haim⟩ := EStateM.bind_eq_ok h
  obtain ⟨hinsert, rfl, hnext, hfun⟩ := place_refines hr hp
  have hsplit (target : Option Nat) : xs ++ .mark m.id :: .instr (.jump kind 0) target :: ys =
      (xs ++ [.mark m.id]) ++ .instr (.jump kind 0) target :: ys := by simp
  rw [hsplit] at hinsert ⊢
  have hsite : (instrs xs).length = (instrs (xs ++ [.mark m.id])).length := by simp
  rw [hsite] at haim
  obtain ⟨href, hnext', hfun'⟩ := aim_refines hinsert haim
  exact ⟨href, hnext'.trans hnext, hfun'.trans hfun⟩

theorem emitJump_refines {target : Marker} {kind : JumpKind} {k : Nat}
    (hr : Refines ts b) (h : emitJump kind target b = .ok k b') :
    Refines (ts ++ [.instr (.jump kind 0) (some target.id)]) b' ∧
      b'.nextMarker = b.nextMarker ∧ b'.function = b.function := by
  obtain ⟨site, b₁, hemit, hk⟩ := EStateM.bind_eq_ok h
  cases hemit
  obtain ⟨u, b₂, haim, hp⟩ := EStateM.bind_eq_ok hk
  obtain ⟨_, rfl⟩ := EStateM.pure_eq_ok hp
  rw [hr.size_code] at haim
  obtain ⟨href, hnext, hfun⟩ := aim_refines (hr.push (.jump kind 0)) haim
  exact ⟨href, hnext, hfun⟩

theorem release_refines {m : Marker} {u : Unit} (hr : Refines ts b)
    (h : release m b = .ok u b') :
    Refines ts b' ∧ b'.nextMarker = b.nextMarker ∧ b'.function = b.function := by
  obtain ⟨spot, b₁, ha, hk⟩ := EStateM.bind_eq_ok h
  obtain ⟨rfl, _, _⟩ := anchor_eq_ok ha
  cases hk
  exact ⟨hr.erase spot, rfl, rfl⟩

end Operations

end Tokens

end TurtleScript
