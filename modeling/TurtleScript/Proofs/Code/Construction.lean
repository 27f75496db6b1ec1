import Mathlib.Algebra.Group.Nat.Defs
import TurtleScript.Proofs.Code.Tokens

/-!
# Every construction is a list of tokens

Whatever is done to the code of a function, in any order, its code can be read off a list of
tokens that knows nothing of indices: an instruction is appended or put right after a mark, a
marker is a mark at the end of the list with a name, and to release a marker is to forget the
name. The tokens of an earlier moment are still there at every later one, so a jump keeps its
target although the code around it grows and although nobody can name the target any more.
-/
namespace TurtleScript

namespace Tokens

/-- Puts a token right after a mark. -/
def insertAfter (id : Nat) (new : Token) : List Token → List Token
  | [] => []
  | .mark k :: ts => if k = id then .mark k :: new :: ts else .mark k :: insertAfter id new ts
  | .instr i target :: ts => .instr i target :: insertAfter id new ts

theorem insertAfter_split {id : Nat} {xs ys : List Token} (h : id ∉ marks xs) (new : Token) :
    insertAfter id new (xs ++ .mark id :: ys) = xs ++ .mark id :: new :: ys := by
  induction xs with
  | nil => exact if_pos rfl
  | cons t xs ih =>
    cases t with
    | instr i target => exact congrArg (_ :: ·) (ih h)
    | mark k =>
      simp only [marks_mark, List.mem_cons, not_or] at h
      rw [List.cons_append, insertAfter, if_neg (Ne.symm h.1), ih h.2, List.cons_append]

theorem sublist_insertAfter (id : Nat) (new : Token) (ts : List Token) :
    ts.Sublist (insertAfter id new ts) := by
  induction ts with
  | nil => exact .slnil
  | cons t ts ih =>
    cases t with
    | instr i target => exact ih.cons_cons _
    | mark k =>
      rw [insertAfter]
      split
      · exact (List.sublist_cons_self new ts).cons_cons _
      · exact ih.cons_cons _

end Tokens

namespace CodeBuilder

/-- What can be done to code under construction. -/
inductive Operation where
  | emit (i : Instr)
  | emitJump (kind : JumpKind) (target : Marker)
  | acquire
  | place (spot : Marker) (i : Instr)
  | placeJump (spot : Marker) (kind : JumpKind) (target : Marker)
  | release (m : Marker)
deriving DecidableEq, Repr

def Operation.perform : Operation → Build Unit
  | .emit i => do let _ ← CodeBuilder.emit i
  | .emitJump kind target => do let _ ← CodeBuilder.emitJump kind target
  | .acquire => do let _ ← CodeBuilder.acquire
  | .place spot i => do let _ ← CodeBuilder.place spot i
  | .placeJump spot kind target => CodeBuilder.placeJump spot kind target
  | .release m => CodeBuilder.release m

def performAll : List Operation → Build Unit
  | [] => pure ()
  | op :: ops => do
    op.perform
    performAll ops

end CodeBuilder

open CodeBuilder (Operation performAll)

/-- The tokens of a function under construction and the marks that have a name. -/
structure Draft where
  tokens : List Token := []
  names : List Nat := []
deriving DecidableEq, Repr

namespace Draft

open Tokens

def step (d : Draft) : Operation → Draft
  | .emit i => { d with tokens := d.tokens ++ [.instr i none] }
  | .emitJump kind target =>
    { d with tokens := d.tokens ++ [.instr (.jump kind 0) (some target.id)] }
  | .acquire =>
    { tokens := d.tokens ++ [.mark (marks d.tokens).length]
      names := d.names ++ [(marks d.tokens).length] }
  | .place spot i => { d with tokens := insertAfter spot.id (.instr i none) d.tokens }
  | .placeJump spot kind target =>
    { d with tokens := insertAfter spot.id (.instr (.jump kind 0) (some target.id)) d.tokens }
  | .release m => { d with names := d.names.erase m.id }

def after (ops : List Operation) : Draft := ops.foldl step {}

theorem tokens_sublist_step (d : Draft) (op : Operation) :
    d.tokens.Sublist (d.step op).tokens := by
  cases op with
  | emit | emitJump | acquire => exact List.sublist_append_left _ _
  | place | placeJump => exact sublist_insertAfter _ _ _
  | release => exact .refl _

theorem tokens_sublist_foldl (d : Draft) (ops : List Operation) :
    d.tokens.Sublist (ops.foldl step d).tokens := by
  induction ops generalizing d with
  | nil => exact .refl _
  | cons op ops ih => exact (d.tokens_sublist_step op).trans (ih (d.step op))

/-- Nothing that was written is ever taken back. -/
theorem tokens_sublist_after {earlier ops : List Operation} (h : earlier <+: ops) :
    (after earlier).tokens.Sublist (after ops).tokens := by
  obtain ⟨later, rfl⟩ := h
  rw [after, after, List.foldl_append]
  exact tokens_sublist_foldl _ later

/-- The builder is in the state that the draft describes. -/
structure Describes (function : Nat) (d : Draft) (b : CodeBuilder) : Prop where
  refines : Refines d.tokens b
  names : b.live.map (·.id) = d.names
  function : b.function = function
  /-- Only jumps have a target, and it is a mark of the draft. -/
  aimed : ∀ i target, (i, some target) ∈ instrs d.tokens →
    (∃ kind, i = .jump kind 0) ∧ target ∈ marks d.tokens

theorem describes_start (function : Nat) : Describes function {} { function } where
  refines := refines_start function
  names := rfl
  function := rfl
  aimed := nofun

section Steps

variable {function : Nat} {d : Draft} {b b' : CodeBuilder}

theorem ids_insert (b : CodeBuilder) (spot : Anchor) (i : Instr) :
    (b.insert spot i).live.map (·.id) = b.live.map (·.id) := by
  refine (List.map_map ..).trans (List.map_congr_left fun a _ => ?_)
  simp only [Function.comp_apply]
  split
  · rfl
  · exact id_shift a spot

theorem ids_place {m : Marker} {i : Instr} {k : Nat} (h : CodeBuilder.place m i b = .ok k b') :
    b'.live.map (·.id) = b.live.map (·.id) := by
  obtain ⟨spot, b₁, ha, hk⟩ := EStateM.bind_eq_ok h
  obtain ⟨rfl, -, -⟩ := anchor_eq_ok ha
  cases hk
  exact ids_insert _ spot i

theorem live_aim {site : Nat} {target : Marker} {u : Unit}
    (h : CodeBuilder.aim site target b = .ok u b') :
    b'.live = b.live ∧ target.id ∈ b.live.map (·.id) := by
  obtain ⟨a, b₁, ha, hk⟩ := EStateM.bind_eq_ok h
  obtain ⟨rfl, hlive, hid⟩ := anchor_eq_ok ha
  cases hk
  exact ⟨rfl, List.mem_map.mpr ⟨a, hlive, hid⟩⟩

/-- The place that is found is the first of its name, so it is the one that is erased. -/
theorem ids_erase {live : List Anchor} {id : Nat} {a : Anchor}
    (hfind : live.find? (·.id = id) = some a) :
    (live.erase a).map (·.id) = (live.map (·.id)).erase id := by
  induction live with
  | nil => rfl
  | cons x live ih =>
    rw [List.find?_cons] at hfind
    by_cases hx : x.id = id
    · simp only [hx, decide_true] at hfind
      cases hfind
      rw [List.erase_cons_head, List.map_cons, hx, List.erase_cons_head]
    · simp only [hx, decide_false] at hfind
      have hid : a.id = id := by simpa using List.find?_some hfind
      have hne : x ≠ a := fun he => hx (he ▸ hid)
      rw [List.erase_cons_tail (by simpa using hne), List.map_cons, List.map_cons,
        List.erase_cons_tail (by simpa using hx), ih hfind]

/-- A name in use is the name of a mark. -/
theorem Describes.mem_marks (h : Describes function d b) {id : Nat} (hid : id ∈ b.live.map (·.id)) :
    id ∈ marks d.tokens := by
  obtain ⟨a, ha, rfl⟩ := List.mem_map.mp hid
  rw [h.refines.marks]
  exact List.mem_range.mpr (h.refines.live a ha).1

theorem Describes.split (h : Describes function d b) {m : Marker} {a : Anchor}
    (ha : CodeBuilder.anchor m b = .ok a b') :
    ∃ xs ys, d.tokens = xs ++ .mark m.id :: ys ∧
      ∀ new, insertAfter m.id new (xs ++ .mark m.id :: ys) = xs ++ .mark m.id :: new :: ys := by
  obtain ⟨-, hlive, hid⟩ := anchor_eq_ok ha
  obtain ⟨xs, ys, hsplit⟩ := exists_split (h.mem_marks (List.mem_map.mpr ⟨a, hlive, hid⟩))
  have hmarks := h.refines.marks
  rw [hsplit] at hmarks
  exact ⟨xs, ys, hsplit, insertAfter_split (not_mem_marks_left hmarks (Nat.le_refl _))⟩

theorem Describes.emit (h : Describes function d b) {i : Instr} {u : Unit}
    (hop : (Operation.emit i).perform b = .ok u b') :
    Describes function (d.step (.emit i)) b' := by
  cases hop
  refine ⟨h.refines.push i, h.names, h.function, fun i' target hmem => ?_⟩
  simp only [step, instrs_append, instrs_instr, instrs_nil, marks_append, marks_instr, marks_nil,
    List.append_nil, List.mem_append, List.mem_singleton, Prod.mk.injEq, reduceCtorEq, and_false,
    or_false] at hmem ⊢
  exact h.aimed i' target hmem

theorem Describes.acquire (h : Describes function d b) {u : Unit}
    (hop : Operation.acquire.perform b = .ok u b') :
    Describes function (d.step .acquire) b' := by
  cases hop
  have hnext : (marks d.tokens).length = b.nextMarker := by
    rw [h.refines.marks, List.length_range]
  refine ⟨?_, ?_, h.function, fun i target hmem => ?_⟩
  · simp only [step, hnext]
    exact h.refines.mark
  · simp only [step, hnext, List.map_append, List.map_cons, List.map_nil, h.names]
  · simp only [step, instrs_append, instrs_mark, instrs_nil, List.append_nil] at hmem
    obtain ⟨hjump, hmark⟩ := h.aimed i target hmem
    exact ⟨hjump, by simp only [step, marks_append]; exact List.mem_append_left _ hmark⟩

theorem Describes.emitJump (h : Describes function d b) {kind : JumpKind} {target : Marker}
    {u : Unit} (hop : (Operation.emitJump kind target).perform b = .ok u b') :
    Describes function (d.step (.emitJump kind target)) b' := by
  obtain ⟨k, b₁, hjump, hk⟩ := EStateM.bind_eq_ok hop
  obtain ⟨-, rfl⟩ := EStateM.pure_eq_ok hk
  obtain ⟨href, -, hfun⟩ := emitJump_refines h.refines hjump
  obtain ⟨site, b₂, hemit, hk₂⟩ := EStateM.bind_eq_ok hjump
  cases hemit
  obtain ⟨_, b₃, haim, hk₃⟩ := EStateM.bind_eq_ok hk₂
  obtain ⟨-, rfl⟩ := EStateM.pure_eq_ok hk₃
  obtain ⟨hlive, hmem⟩ := live_aim haim
  refine ⟨href, ?_, hfun.trans h.function, fun i t ht => ?_⟩
  · rw [hlive]
    exact h.names
  · simp only [step, instrs_append, instrs_instr, instrs_nil, marks_append, marks_instr, marks_nil,
      List.append_nil, List.mem_append, List.mem_singleton, Prod.mk.injEq, Option.some.injEq]
      at ht ⊢
    rcases ht with ht | ⟨rfl, rfl⟩
    · exact h.aimed i t ht
    · exact ⟨⟨kind, rfl⟩, h.mem_marks hmem⟩

theorem Describes.place (h : Describes function d b) {spot : Marker} {i : Instr} {u : Unit}
    (hop : (Operation.place spot i).perform b = .ok u b') :
    Describes function (d.step (.place spot i)) b' := by
  obtain ⟨k, b₁, hplace, hk⟩ := EStateM.bind_eq_ok hop
  obtain ⟨-, rfl⟩ := EStateM.pure_eq_ok hk
  obtain ⟨a, b₂, ha, -⟩ := EStateM.bind_eq_ok hplace
  obtain ⟨xs, ys, hsplit, hinsert⟩ := h.split ha
  have hr := h.refines
  rw [hsplit] at hr
  obtain ⟨href, -, -, hfun⟩ := place_refines hr hplace
  refine ⟨?_, (ids_place hplace).trans h.names, hfun.trans h.function, fun i' t ht => ?_⟩
  · simp only [step, hsplit, hinsert]
    exact href
  · have haimed := h.aimed i' t
    simp only [step, hinsert, hsplit, instrs_append, instrs_mark, instrs_instr, marks_append,
      marks_mark, marks_instr, List.mem_append, List.mem_cons, Prod.mk.injEq, reduceCtorEq,
      and_false, false_or] at ht haimed ⊢
    exact haimed ht

theorem Describes.placeJump (h : Describes function d b) {spot target : Marker} {kind : JumpKind}
    {u : Unit} (hop : (Operation.placeJump spot kind target).perform b = .ok u b') :
    Describes function (d.step (.placeJump spot kind target)) b' := by
  obtain ⟨k, b₁, hplace, haim⟩ := EStateM.bind_eq_ok hop
  obtain ⟨a, b₂, ha, -⟩ := EStateM.bind_eq_ok hplace
  obtain ⟨xs, ys, hsplit, hinsert⟩ := h.split ha
  have hr := h.refines
  rw [hsplit] at hr
  obtain ⟨href, -, hfun⟩ := placeJump_refines hr hop
  obtain ⟨hlive, hmem⟩ := live_aim haim
  rw [ids_place hplace] at hmem
  have hmark := h.mem_marks hmem
  refine ⟨?_, ?_, hfun.trans h.function, fun i t ht => ?_⟩
  · simp only [step, hsplit, hinsert]
    exact href
  · rw [hlive]
    exact (ids_place hplace).trans h.names
  · have haimed := h.aimed i t
    simp only [step, hinsert, hsplit, instrs_append, instrs_mark, instrs_instr, marks_append,
      marks_mark, marks_instr, List.mem_append, List.mem_cons, Prod.mk.injEq,
      Option.some.injEq] at ht haimed hmark ⊢
    rcases ht with ht | ⟨rfl, rfl⟩ | ht
    · exact haimed (.inl ht)
    · exact ⟨⟨kind, rfl⟩, hmark⟩
    · exact haimed (.inr ht)

theorem Describes.release (h : Describes function d b) {m : Marker} {u : Unit}
    (hop : (Operation.release m).perform b = .ok u b') :
    Describes function (d.step (.release m)) b' := by
  obtain ⟨href, -, hfun⟩ := release_refines h.refines hop
  obtain ⟨spot, b₁, ha, hk⟩ := EStateM.bind_eq_ok hop
  obtain ⟨rfl, -, hfind⟩ := anchor_eq_ok_iff.mp ha
  cases hk
  refine ⟨href, ?_, hfun.trans h.function, h.aimed⟩
  simp only [step, ← h.names]
  exact ids_erase hfind

theorem Describes.perform (h : Describes function d b) {op : Operation} {u : Unit}
    (hop : op.perform b = .ok u b') : Describes function (d.step op) b' := by
  cases op with
  | emit => exact h.emit hop
  | emitJump => exact h.emitJump hop
  | acquire => exact h.acquire hop
  | place => exact h.place hop
  | placeJump => exact h.placeJump hop
  | release => exact h.release hop

theorem Describes.performAll (h : Describes function d b) {ops : List Operation} {u : Unit}
    (hops : CodeBuilder.performAll ops b = .ok u b') :
    Describes function (ops.foldl step d) b' := by
  induction ops generalizing d b with
  | nil =>
    obtain ⟨-, rfl⟩ := EStateM.pure_eq_ok hops
    exact h
  | cons op ops ih =>
    obtain ⟨_, b₁, hop, hrest⟩ := EStateM.bind_eq_ok hops
    exact ih (h.perform hop) hrest

/-- The markers in use are the marks with a name, each at its place. -/
theorem Describes.index_eq_ok_iff (h : Describes function d b) {m : Marker} {n : Nat} :
    CodeBuilder.index m b = .ok n b' ↔
      b' = b ∧ m.function = function ∧ m.id ∈ d.names ∧ n = placeOf m.id d.tokens := by
  constructor
  · intro hindex
    obtain ⟨a, b₁, ha, hk⟩ := EStateM.bind_eq_ok hindex
    obtain ⟨rfl, rfl⟩ := EStateM.pure_eq_ok hk
    obtain ⟨-, hf, -⟩ := anchor_eq_ok_iff.mp ha
    obtain ⟨rfl, hlive, hid⟩ := anchor_eq_ok ha
    refine ⟨rfl, hf.trans h.function, ?_, hid ▸ (h.refines.live a hlive).2⟩
    rw [← h.names]
    exact List.mem_map.mpr ⟨a, hlive, hid⟩
  · rintro ⟨rfl, hf, hname, rfl⟩
    rw [← h.names] at hname
    obtain ⟨a, ha⟩ := anchor_ok (hf.trans h.function.symm) hname
    obtain ⟨-, hlive, hid⟩ := anchor_eq_ok ha
    refine (EStateM.bind_ok ha).trans ?_
    rw [(h.refines.live a hlive).2, hid]
    rfl

/-- The operand of a jump is the distance, as long as the code is not too long for it. -/
theorem Describes.getElem?_jump (h : Describes function d b) (hsize : b.code.size < 2 ^ 31)
    {k target : Nat} {i : Instr} (hk : (instrs d.tokens)[k]? = some (i, some target)) :
    ∃ kind delta, i = .jump kind 0 ∧ target ∈ marks d.tokens ∧
      b.code[k]? = some (.jump kind delta) ∧
      delta.toInt = (placeOf target d.tokens : Int) - k := by
  obtain ⟨⟨kind, rfl⟩, hmark⟩ := h.aimed i target (List.mem_of_getElem? hk)
  have hcode := h.refines.getElem?_code k
  rw [hk, Option.map_some] at hcode
  refine ⟨kind, Int32.ofInt (placeOf target d.tokens - k : Int), rfl, hmark, hcode, ?_⟩
  have hplace := placeOf_le target d.tokens
  obtain ⟨hlt, -⟩ := List.getElem?_eq_some_iff.mp hk
  rw [h.refines.size_code] at hsize
  exact Int32.toInt_ofInt_of_le (by omega) (by omega)

end Steps

/-- Code that was constructed in any way is the instructions of its draft in order. Markers in
use stand where their marks stand, jumps with a target carry the distance to its mark, whether
or not the mark still has a name, and all other instructions are as they were written. -/
theorem performAll_refines (function : Nat) (ops : List Operation) (b : CodeBuilder)
    (h : performAll ops { function } = .ok () b) (hsize : b.code.size < 2 ^ 31) :
    b.code.size = (instrs (after ops).tokens).length ∧
    (∀ (k : Nat) i, (instrs (after ops).tokens)[k]? = some (i, none) → b.code[k]? = some i) ∧
    (∀ (k : Nat) i target, (instrs (after ops).tokens)[k]? = some (i, some target) →
      ∃ kind delta, i = .jump kind 0 ∧ target ∈ marks (after ops).tokens ∧
        b.code[k]? = some (.jump kind delta) ∧
        delta.toInt = (placeOf target (after ops).tokens : Int) - k) ∧
    (∀ m n, CodeBuilder.index m b = .ok n b ↔
      m.function = function ∧ m.id ∈ (after ops).names ∧ n = placeOf m.id (after ops).tokens) ∧
    (∀ m b', CodeBuilder.acquire b = .ok m b' →
      (after (ops ++ [.acquire])).tokens = (after ops).tokens ++ [.mark m.id]) ∧
    ∀ earlier, earlier <+: ops → (after earlier).tokens.Sublist (after ops).tokens := by
  have hd : Describes function (after ops) b := (describes_start function).performAll h
  refine ⟨hd.refines.size_code, fun k i hk => ?_, fun k i target => hd.getElem?_jump hsize,
    fun m n => ?_, fun m b' hm => ?_, fun earlier => tokens_sublist_after⟩
  · rw [hd.refines.getElem?_code, hk]
    rfl
  · rw [hd.index_eq_ok_iff]
    exact and_iff_right rfl
  · cases hm
    rw [after, List.foldl_append]
    simp only [List.foldl_cons, List.foldl_nil, step]
    rw [← after, hd.refines.marks, List.length_range]

/-- A loop whose exit is put in place only after the jump back, with all names forgotten. -/
def looped : List Operation :=
  [.acquire, .emit (.pushInt 1), .acquire, .emit .dup, .emitJump .always ⟨0, 7⟩, .acquire,
    .placeJump ⟨1, 7⟩ .ifFalse ⟨2, 7⟩, .release ⟨2, 7⟩, .place ⟨0, 7⟩ .dup, .release ⟨1, 7⟩]

def loopedBuilder : CodeBuilder where
  function := 7
  code := #[.dup, .pushInt 1, .jump .ifFalse 3, .dup, .jump .always (-4)]
  live := [⟨0, 0⟩]
  jumps := [⟨4, ⟨0, 0⟩⟩, ⟨2, ⟨2, 5⟩⟩]
  nextMarker := 3

/-- The exit of the loop aims past an instruction that was put in after its target was released. -/
theorem performAll_refines_looped :
    performAll looped { function := 7 } = .ok () loopedBuilder ∧
    loopedBuilder.code.size < 2 ^ 31 ∧ 2 ∉ (after looped).names ∧
    (∃ kind delta, Instr.jump .ifFalse 0 = .jump kind 0 ∧ 2 ∈ marks (after looped).tokens ∧
      loopedBuilder.code[2]? = some (.jump kind delta) ∧
      delta.toInt = (placeOf 2 (after looped).tokens : Int) - (2 : Nat)) ∧
    CodeBuilder.index ⟨0, 7⟩ loopedBuilder = .ok 0 loopedBuilder := by
  have hrun : performAll looped { function := 7 } = .ok () loopedBuilder := by decide +kernel
  have hsize : loopedBuilder.code.size < 2 ^ 31 := by decide
  obtain ⟨-, -, hjumps, hindex, -, -⟩ := performAll_refines 7 looped loopedBuilder hrun hsize
  exact ⟨hrun, hsize, by decide, hjumps 2 _ 2 rfl, (hindex ⟨0, 7⟩ 0).mpr (by decide)⟩

end Draft

end TurtleScript
