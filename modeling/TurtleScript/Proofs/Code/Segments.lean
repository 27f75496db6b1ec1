import Mathlib.Algebra.Group.Nat.Defs
import TurtleScript.Proofs.Code.Tokens

/-!
# Segments of code

A segment is a piece of the token list whose jumps stay inside. It stands for the same
instructions wherever it is put, so the code of a construct is made of the codes of its
parts and a few jumps over them. There are four shapes with jumps: two branches, one
branch, a loop with its test at the bottom, and a loop that tests after its body.
-/
namespace TurtleScript

/-- The operand of a jump over a distance. -/
def distance (d : Int) : Int32 := Int32.ofInt d

/-- Jumps of at most this distance fit in an operand. -/
theorem toInt_distance {d : Int} (h : d.natAbs < 2 ^ 31) : (distance d).toInt = d :=
  Int32.toInt_ofInt_of_le (by omega) (by omega)

namespace Code

/-- A test, the code for true and the code for false. -/
def branch (test yes no : List Instr) : List Instr :=
  test ++ .jump .ifFalse (distance (yes.length + 2)) ::
    (yes ++ .jump .always (distance (no.length + 1)) :: no)

/-- A test and the code for true. -/
def skip (test yes : List Instr) : List Instr :=
  test ++ .jump .ifFalse (distance (yes.length + 1)) :: yes

/-- A body and the test after which it is run again; the test is made first. -/
def loop (kind : JumpKind) (body test : List Instr) : List Instr :=
  .jump .always (distance (body.length + 1)) ::
    (body ++ (test ++ [.jump kind (distance (-(body.length + test.length)))]))

/-- A body that ends with a test, run again if the test fails. -/
def again (body : List Instr) : List Instr :=
  body ++ [.jump .ifFalse (distance (-body.length))]

end Code

namespace Tokens

/-- The code of tokens that start at `index`, with the places of marks given. -/
def renderWith (place : Nat → Nat) (index : Nat) : List Token → List Instr
  | [] => []
  | .mark _ :: ts => renderWith place index ts
  | .instr i target :: ts => resolve place index (i, target) :: renderWith place (index + 1) ts

section

variable {xs ys ts : List Token} {place : Nat → Nat} {index : Nat}

theorem renderWith_eq (place : Nat → Nat) (index : Nat) (ts : List Token) :
    renderWith place index ts = (instrs ts).mapIdx fun k p => resolve place (index + k) p := by
  induction ts generalizing index with
  | nil => rfl
  | cons t ts ih =>
    cases t with
    | mark k => rw [renderWith, instrs_mark, ih]
    | instr i target =>
      rw [renderWith, instrs_instr, List.mapIdx_cons, ih]
      simp only [Nat.add_zero, Nat.add_assoc, Nat.add_comm 1]

theorem render_eq (ts : List Token) : render ts = renderWith (fun id => placeOf id ts) 0 ts := by
  rw [renderWith_eq, render]
  simp only [Nat.zero_add]

theorem renderWith_append (place : Nat → Nat) (index : Nat) (xs ys : List Token) :
    renderWith place index (xs ++ ys) =
      renderWith place index xs ++ renderWith place (index + (instrs xs).length) ys := by
  induction xs generalizing index with
  | nil => rfl
  | cons t xs ih =>
    cases t with
    | mark k => rw [List.cons_append, renderWith, renderWith, ih, instrs_mark]
    | instr i target =>
      rw [List.cons_append, renderWith, renderWith, ih, instrs_instr, List.length_cons,
        List.cons_append]
      simp only [Nat.add_assoc, Nat.add_comm 1]

/-- The places that a part of the list gives to its own marks are enough for it. -/
theorem renderWith_of_closed (htargets : ∀ i t, (i, some t) ∈ instrs ts → t ∈ marks ts)
    (hplace : ∀ t ∈ marks ts, place t = index + placeOf t ts) :
    renderWith place index ts = render ts := by
  rw [renderWith_eq, render]
  refine List.ext_getElem? fun k => ?_
  rw [List.getElem?_mapIdx, List.getElem?_mapIdx]
  cases hk : (instrs ts)[k]? with
  | none => rfl
  | some p =>
    obtain ⟨i, target⟩ := p
    cases target with
    | none => rfl
    | some t =>
      have ht := hplace t (htargets i t (List.mem_of_getElem? hk))
      simp only [Option.map_some, resolve, ht]
      rw [show ((index + placeOf t ts : Nat) : Int) - ((index + k : Nat) : Int) =
        (placeOf t ts : Int) - k by omega]

theorem placeOf_skip {k : Nat} (h : ∀ t ∈ marks xs, t < k) (ys : List Token) :
    placeOf k (xs ++ ys) = (instrs xs).length + placeOf k ys :=
  placeOf_append_of_not_mem (fun hk => Nat.lt_irrefl k (h k hk)) ys

theorem placeOf_mark_ne {j k : Nat} (h : j ≠ k) (ts : List Token) :
    placeOf k (.mark j :: ts) = placeOf k ts := by
  rw [placeOf, if_neg h]

theorem placeOf_mark_self (k : Nat) (ts : List Token) : placeOf k (.mark k :: ts) = 0 := by
  rw [placeOf, if_pos rfl]

end

/-- Tokens whose marks lie between two numbers, whose jumps stay inside, and the code they
stand for. -/
structure Segment (lo hi : Nat) (ts : List Token) (code : List Instr) : Prop where
  le : lo ≤ hi
  marks : ∀ t ∈ marks ts, lo ≤ t ∧ t < hi
  targets : ∀ i t, (i, some t) ∈ instrs ts → t ∈ Tokens.marks ts
  render : render ts = code

namespace Segment

variable {lo mid hi : Nat} {xs ys ts : List Token} {as bs code : List Instr}

theorem length (h : Segment lo hi ts code) : (instrs ts).length = code.length := by
  rw [← h.render, length_render]

theorem nil (n : Nat) : Segment n n [] [] where
  le := Nat.le_refl n
  marks := nofun
  targets := nofun
  render := rfl

theorem instr (n : Nat) (i : Instr) : Segment n n [.instr i none] [i] where
  le := Nat.le_refl n
  marks := nofun
  targets := by simp
  render := rfl

theorem append (hx : Segment lo mid xs as) (hy : Segment mid hi ys bs) :
    Segment lo hi (xs ++ ys) (as ++ bs) where
  le := Nat.le_trans hx.le hy.le
  marks := by
    intro t ht
    rcases List.mem_append.mp (marks_append xs ys ▸ ht) with ht | ht
    · exact ⟨(hx.marks t ht).1, Nat.lt_of_lt_of_le (hx.marks t ht).2 hy.le⟩
    · exact ⟨Nat.le_trans hx.le (hy.marks t ht).1, (hy.marks t ht).2⟩
  targets := by
    intro i t ht
    rw [marks_append]
    rcases List.mem_append.mp (instrs_append xs ys ▸ ht) with ht | ht
    · exact List.mem_append_left _ (hx.targets i t ht)
    · exact List.mem_append_right _ (hy.targets i t ht)
  render := by
    rw [render_eq, renderWith_append, renderWith_of_closed hx.targets, renderWith_of_closed hy.targets,
      hx.render, hy.render]
    · intro t ht
      rw [Nat.zero_add]
      refine placeOf_append_of_not_mem (fun hm => ?_) ys
      have := (hx.marks t hm).2
      have := (hy.marks t ht).1
      omega
    · intro t ht
      rw [Nat.zero_add, placeOf_append_of_mem ht]

/-- Whether a number is among the marks, from the bounds of two segments. -/
theorem lt_of_mem (h : Segment lo mid ts code) {k : Nat} (hk : mid ≤ k) :
    ∀ t ∈ Tokens.marks ts, t < k :=
  fun t ht => Nat.lt_of_lt_of_le (h.marks t ht).2 hk

section Jumps

variable {test yes no body : List Instr} {tc ty tn tb : List Token} {a b d : Nat}

theorem skip (hc : Segment lo a tc test) (hy : Segment (a + 1) b ty yes) :
    Segment lo (b + 1)
      (tc ++ .mark a :: .instr (.jump .ifFalse 0) (some b) :: (ty ++ [.mark b]))
      (Code.skip test yes) where
  le := by have := hc.le; have := hy.le; omega
  marks := by
    intro t ht
    have := hc.marks t
    have := hy.marks t
    have := hc.le
    have := hy.le
    grind
  targets := by
    intro i t ht
    have := hc.targets i t
    have := hy.targets i t
    grind
  render := by
    have hle := hy.le
    have hb : placeOf b (tc ++ .mark a :: .instr (.jump .ifFalse 0) (some b) :: (ty ++ [.mark b])) =
        test.length + (yes.length + 1) := by
      rw [placeOf_skip (hc.lt_of_mem (by omega)), placeOf_mark_ne (by omega), placeOf,
        placeOf_skip (hy.lt_of_mem (by omega)), placeOf_mark_self, hc.length, hy.length, Nat.add_zero]
    rw [render_eq, renderWith_append, renderWith_of_closed hc.targets, hc.render, Code.skip]
    · simp only [renderWith, renderWith_append, resolve, hb, List.append_nil, hc.length]
      rw [renderWith_of_closed hy.targets, hy.render]
      · simp only [Instr.withDelta, distance]
        rw [show ((test.length + (yes.length + 1) : Nat) : Int) - ((0 + test.length : Nat) : Int) =
          (yes.length : Int) + 1 by omega]
      · intro t ht
        have hbt := hy.marks t ht
        rw [placeOf_skip (hc.lt_of_mem (by omega)), placeOf_mark_ne (by omega), placeOf,
          placeOf_append_of_mem ht, hc.length]
        omega
    · intro t ht
      rw [placeOf_append_of_mem ht, Nat.zero_add]

theorem branch (hc : Segment lo a tc test) (hy : Segment (a + 1) b ty yes)
    (hn : Segment (b + 2) d tn no) :
    Segment lo (d + 1)
      (tc ++ .mark a :: .instr (.jump .ifFalse 0) (some (b + 1)) ::
        (ty ++ .mark b :: .instr (.jump .always 0) (some d) :: .mark (b + 1) :: (tn ++ [.mark d])))
      (Code.branch test yes no) where
  le := by have := hc.le; have := hy.le; have := hn.le; omega
  marks := by
    intro t ht
    have := hc.marks t
    have := hy.marks t
    have := hn.marks t
    have := hc.le
    have := hy.le
    have := hn.le
    grind
  targets := by
    intro i t ht
    have := hc.targets i t
    have := hy.targets i t
    have := hn.targets i t
    grind
  render := by
    have hyle := hy.le
    have hnle := hn.le
    -- the two targets
    have helse : placeOf (b + 1) (tc ++ .mark a :: .instr (.jump .ifFalse 0) (some (b + 1)) ::
        (ty ++ .mark b :: .instr (.jump .always 0) (some d) :: .mark (b + 1) :: (tn ++ [.mark d]))) =
        test.length + (yes.length + 1 + 1) := by
      rw [placeOf_skip (hc.lt_of_mem (by omega)), placeOf_mark_ne (by omega), placeOf,
        placeOf_skip (hy.lt_of_mem (by omega)), placeOf_mark_ne (by omega), placeOf,
        placeOf_mark_self, hc.length, hy.length]
    have hstop : placeOf d (tc ++ .mark a :: .instr (.jump .ifFalse 0) (some (b + 1)) ::
        (ty ++ .mark b :: .instr (.jump .always 0) (some d) :: .mark (b + 1) :: (tn ++ [.mark d]))) =
        test.length + (yes.length + (no.length + 1) + 1) := by
      rw [placeOf_skip (hc.lt_of_mem (by omega)), placeOf_mark_ne (by omega), placeOf,
        placeOf_skip (hy.lt_of_mem (by omega)), placeOf_mark_ne (by omega), placeOf,
        placeOf_mark_ne (by omega), placeOf_skip (hn.lt_of_mem (by omega)), placeOf_mark_self,
        hc.length, hy.length, hn.length]
    rw [render_eq, renderWith_append, renderWith_of_closed hc.targets, hc.render, Code.branch]
    · simp only [renderWith, renderWith_append, resolve, helse, hstop, List.append_nil, hc.length,
        hy.length]
      rw [renderWith_of_closed hy.targets, hy.render, renderWith_of_closed hn.targets, hn.render]
      · simp only [Instr.withDelta, distance]
        rw [show ((test.length + (yes.length + 1 + 1) : Nat) : Int) -
            ((0 + test.length : Nat) : Int) = (yes.length : Int) + 2 by omega,
          show ((test.length + (yes.length + (no.length + 1) + 1) : Nat) : Int) -
            ((0 + test.length + 1 + yes.length : Nat) : Int) = (no.length : Int) + 1 by omega]
      · intro t ht
        have hbt := hn.marks t ht
        rw [placeOf_skip (hc.lt_of_mem (by omega)), placeOf_mark_ne (by omega), placeOf,
          placeOf_skip (hy.lt_of_mem (by omega)), placeOf_mark_ne (by omega), placeOf,
          placeOf_mark_ne (by omega), placeOf_append_of_mem ht, hc.length, hy.length]
        omega
      · intro t ht
        have hbt := hy.marks t ht
        rw [placeOf_skip (hc.lt_of_mem (by omega)), placeOf_mark_ne (by omega), placeOf,
          placeOf_append_of_mem ht, hc.length]
        omega
    · intro t ht
      rw [placeOf_append_of_mem ht, Nat.zero_add]

theorem loop (kind : JumpKind) (hb : Segment (lo + 2) a tb body) (hc : Segment (a + 1) b tc test) :
    Segment lo b
      (.mark lo :: .instr (.jump .always 0) (some a) :: .mark (lo + 1) ::
        (tb ++ .mark a :: (tc ++ [.instr (.jump kind 0) (some (lo + 1))])))
      (Code.loop kind body test) where
  le := by have := hc.le; have := hb.le; omega
  marks := by
    intro t ht
    have := hc.marks t
    have := hb.marks t
    have := hc.le
    have := hb.le
    grind
  targets := by
    intro i t ht
    have := hc.targets i t
    have := hb.targets i t
    grind
  render := by
    have hble := hb.le
    have hcle := hc.le
    have htest : placeOf a (.mark lo :: .instr (.jump .always 0) (some a) :: .mark (lo + 1) ::
        (tb ++ .mark a :: (tc ++ [.instr (.jump kind 0) (some (lo + 1))]))) = body.length + 1 := by
      rw [placeOf_mark_ne (by omega), placeOf, placeOf_mark_ne (by omega),
        placeOf_skip (hb.lt_of_mem (by omega)), placeOf_mark_self, hb.length, Nat.add_zero]
    have hstart : placeOf (lo + 1) (.mark lo :: .instr (.jump .always 0) (some a) ::
        .mark (lo + 1) :: (tb ++ .mark a :: (tc ++ [.instr (.jump kind 0) (some (lo + 1))]))) =
        1 := by
      rw [placeOf_mark_ne (by omega), placeOf, placeOf_mark_self]
    rw [render_eq, Code.loop]
    simp only [renderWith, renderWith_append, resolve, htest, hstart, hb.length, hc.length]
    rw [renderWith_of_closed hb.targets, hb.render, renderWith_of_closed hc.targets, hc.render]
    · simp only [Instr.withDelta, distance]
      rw [show ((body.length + 1 : Nat) : Int) - ((0 : Nat) : Int) = (body.length : Int) + 1 by omega,
        show ((1 : Nat) : Int) - ((0 + 1 + body.length + test.length : Nat) : Int) =
          -((body.length : Int) + test.length) by omega]
    · intro t ht
      have hbt := hc.marks t ht
      rw [placeOf_mark_ne (by omega), placeOf, placeOf_mark_ne (by omega),
        placeOf_skip (hb.lt_of_mem (by omega)), placeOf_mark_ne (by omega),
        placeOf_append_of_mem ht, hb.length]
      omega
    · intro t ht
      have hbt := hb.marks t ht
      rw [placeOf_mark_ne (by omega), placeOf, placeOf_mark_ne (by omega), placeOf_append_of_mem ht]
      omega

theorem again (hb : Segment (lo + 1) hi tb body) :
    Segment lo hi (.mark lo :: (tb ++ [.instr (.jump .ifFalse 0) (some lo)])) (Code.again body) where
  le := by have := hb.le; omega
  marks := by
    intro t ht
    have := hb.marks t
    have := hb.le
    grind
  targets := by
    intro i t ht
    have := hb.targets i t
    grind
  render := by
    rw [render_eq, Code.again]
    simp only [renderWith, renderWith_append, resolve, placeOf_mark_self, hb.length]
    rw [renderWith_of_closed hb.targets, hb.render]
    · simp only [Instr.withDelta, distance]
      rw [show ((0 : Nat) : Int) - ((0 + body.length : Nat) : Int) = -(body.length : Int) by omega]
    · intro t ht
      have hbt := hb.marks t ht
      rw [placeOf_mark_ne (by omega), placeOf_append_of_mem ht, Nat.zero_add]

end Jumps

end Segment

end Tokens

end TurtleScript
