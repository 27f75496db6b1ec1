import TurtleScript.Proofs.Image.Codec

/-!
# Code in bytes

Instructions in both directions, the bytes at which they start, and jumps between
their two forms. The forms of a jump have one length, so the places in a function are
the same in both.
-/
namespace TurtleScript

theorem Opcode.byte_of_ofByte? {b : UInt8} {op : Opcode} (h : Opcode.ofByte? b = some op) :
    op.byte = b := by
  have hp := List.find?_some h
  exact of_decide_eq_true hp

theorem Instr.length_operands (i : Instr) : i.operands.length = i.opcode.arity := by
  cases i with
  | arith op => cases op <;> rfl
  | compare op => cases op <;> rfl
  | logic op => cases op <;> rfl
  | jump kind _ => cases kind <;> rfl
  | _ => rfl

theorem Instr.parts_of_ofParts? {op : Opcode} {operands : List Int32} {i : Instr}
    (h : Instr.ofParts? op operands = some i) : i.opcode = op ∧ i.operands = operands := by
  match operands with
  | [] => cases op <;> cases h <;> exact ⟨rfl, rfl⟩
  | [a] => cases op <;> cases h <;> exact ⟨rfl, rfl⟩
  | [a, b] => cases op <;> cases h <;> exact ⟨rfl, rfl⟩
  | a :: b :: c :: rest => cases op <;> cases h

/-- The byte after the last instruction counts as the place of one. -/
def JumpsInside (code : List Instr) : Prop :=
  ∀ (index : Nat) (kind : JumpKind) (delta : Int32), code[index]? = some (.jump kind delta) →
    0 ≤ (index : Int) + delta.toInt ∧ (index : Int) + delta.toInt ≤ code.length

namespace Image

theorem length_instr (i : Instr) : (instr i).length = i.encodedLength := by
  have hw (l : List Int32) : (l.flatMap fun a => word32 a.toUInt32).length = 4 * l.length := by
    induction l with
    | nil => rfl
    | cons a l ih =>
      rw [List.flatMap_cons, List.length_append, ih, word32, length_word, List.length_cons]
      omega
  rw [instr, List.length_cons, hw, Instr.length_operands, Instr.encodedLength]
  omega

theorem encodedLength_pos (i : Instr) : 0 < i.encodedLength := by
  rw [Instr.encodedLength]
  omega

theorem length_flatMap_instr (code : List Instr) :
    (code.flatMap instr).length = encodedLength code := by
  induction code with
  | nil => rfl
  | cons i is ih => rw [List.flatMap_cons, List.length_append, ih, length_instr, encodedLength]

theorem length_le_encodedLength (code : List Instr) : code.length ≤ encodedLength code := by
  induction code with
  | nil => exact Nat.le_refl 0
  | cons i is ih =>
    have := encodedLength_pos i
    rw [List.length_cons, encodedLength]
    omega

namespace Read

theorem concat_ok {α : Type} (w : α → List UInt8) (as : List α) :
    concat (fun a => .ok (w a)) as = .ok (as.flatMap w) := by
  induction as with
  | nil => rfl
  | cons a as ih =>
    rw [concat, ih]
    rfl

theorem instr_codec : Codec Read.instr fun i => .ok (Image.instr i) where
  reads {i bytes} h := by
    cases h
    refine (byte_codec.reads rfl).after ?_
    have hm := many_reads operand_codec (concat_ok _ i.operands)
    rw [Instr.length_operands] at hm
    intro position rest
    rw [Opcode.ofByte?_byte]
    simp only
    rw [hm.bind_apply, Instr.ofParts?_parts]
    rfl
  writes {c d i} h := by
    obtain ⟨b, c1, h1, r1⟩ := bind_eq_ok h
    obtain ⟨bytes, w1, t1⟩ := byte_codec.writes h1
    cases w1
    cases ho : Opcode.ofByte? b with
    | none => simp only [ho] at r1; cases r1
    | some op =>
      simp only [ho] at r1
      obtain ⟨operands, c2, h2, r2⟩ := bind_eq_ok r1
      obtain ⟨_, bytes, w2, t2⟩ := many_eq_ok operand_codec h2
      rw [concat_ok] at w2
      cases w2
      cases hp : Instr.ofParts? op operands with
      | none => simp only [hp] at r2; cases r2
      | some j =>
        simp only [hp] at r2
        obtain ⟨rfl, rfl⟩ := pure_eq_ok r2
        obtain ⟨rfl, rfl⟩ := Instr.parts_of_ofParts? hp
        have hb := Opcode.byte_of_ofByte? ho
        refine ⟨_, rfl, ?_⟩
        rw [Image.instr, hb]
        exact t1.trans t2

theorem code_succ (stop limit : Nat) (c : Cursor) :
    code stop (limit + 1) c =
      if c.position < stop then
        (do let first ← instr; return first :: (← code stop limit) : Read (List Instr)) c
      else .ok ([], c) := by
  change (if c.position < stop then _ else _ : Read (List Instr)) c = _
  split <;> rfl

/-- Written code is read up to its last byte. -/
theorem code_reads (is : List Instr) {limit : Nat} (hl : is.length ≤ limit) (position : Nat)
    (rest : List UInt8) :
    code (position + encodedLength is) limit ⟨position, is.flatMap Image.instr ++ rest⟩ =
      .ok (is, ⟨position + encodedLength is, rest⟩) := by
  induction is generalizing limit position with
  | nil =>
    cases limit with
    | zero => rfl
    | succ limit =>
      rw [code_succ]
      exact if_neg (Nat.lt_irrefl position)
  | cons i is ih =>
    obtain _ | limit := limit
    · cases hl
    · have hpos := encodedLength_pos i
      have hsum : position + encodedLength (i :: is) =
          position + i.encodedLength + encodedLength is := (Nat.add_assoc ..).symm
      rw [code_succ, hsum, if_pos (by simp only; omega), List.flatMap_cons, List.append_assoc,
        (instr_codec.reads rfl).bind_apply, length_instr, Read.bind_apply,
        ih (Nat.le_of_succ_le_succ hl)]
      rfl

/-- What was read as code is what the instructions are written in; if the limit was not
felt, reading went up to `stop`. -/
theorem code_eq_ok {stop limit : Nat} {c d : Cursor} {is : List Instr}
    (h : code stop limit c = .ok (is, d)) :
    Takes c (is.flatMap Image.instr) d ∧ (stop - c.position ≤ limit → stop ≤ d.position) := by
  induction limit generalizing c is with
  | zero =>
    obtain ⟨rfl, rfl⟩ := pure_eq_ok h
    exact ⟨.refl c, by omega⟩
  | succ limit ih =>
    rw [code_succ] at h
    split at h
    · obtain ⟨i, c1, h1, r1⟩ := bind_eq_ok h
      obtain ⟨is', c2, h2, r2⟩ := bind_eq_ok r1
      obtain ⟨rfl, rfl⟩ := pure_eq_ok r2
      obtain ⟨bytes, w1, t1⟩ := instr_codec.writes h1
      cases w1
      obtain ⟨t2, hstop⟩ := ih h2
      have hp := t1.position
      have hpos := encodedLength_pos i
      rw [length_instr] at hp
      exact ⟨t1.trans t2, fun hl => hstop (by omega)⟩
    · cases h
      exact ⟨.refl _, by omega⟩

theorem boot_reads (is : List Instr) : Reads (boot is) (is.flatMap Image.instr) () := by
  induction is with
  | nil => exact reads_pure ()
  | cons i is ih =>
    refine (instr_codec.reads rfl).bind ?_
    intro position rest
    simp only [ne_eq, not_true_eq_false, if_false]
    exact ih position rest

theorem boot_eq_ok {is : List Instr} {c d : Cursor} (h : boot is c = .ok ((), d)) :
    Takes c (is.flatMap Image.instr) d := by
  induction is generalizing c with
  | nil =>
    obtain ⟨_, rfl⟩ := pure_eq_ok h
    exact .refl c
  | cons i is ih =>
    obtain ⟨j, c1, h1, r1⟩ := bind_eq_ok h
    obtain ⟨bytes, w1, t1⟩ := instr_codec.writes h1
    cases w1
    split at r1
    · cases r1
    · rename_i hj
      rw [Classical.not_not.mp hj] at t1
      exact t1.trans (ih r1)

end Read

theorem byteAt_cons_succ (i : Instr) (is : List Instr) (k : Nat) :
    byteAt (i :: is) (k + 1) = i.encodedLength + byteAt is k := rfl

theorem indexAt?_cons (i : Instr) (is : List Instr) (n : Nat) (h : 0 < n) :
    indexAt? (i :: is) n =
      if i.encodedLength ≤ n then (indexAt? is (n - i.encodedLength)).map (· + 1) else none := by
  cases n with
  | zero => cases h
  | succ n => rfl

theorem indexAt?_byteAt (code : List Instr) {k : Nat} (h : k ≤ code.length) :
    indexAt? code (byteAt code k) = some k := by
  induction code generalizing k with
  | nil =>
    rw [Nat.le_zero.mp h]
    rfl
  | cons i is ih =>
    cases k with
    | zero => rfl
    | succ k =>
      have hpos := encodedLength_pos i
      rw [byteAt_cons_succ, indexAt?_cons _ _ _ (by omega), if_pos (by omega),
        Nat.add_sub_cancel_left, ih (Nat.le_of_succ_le_succ h)]
      rfl

theorem byteAt_of_indexAt? {code : List Instr} {n k : Nat} (h : indexAt? code n = some k) :
    k ≤ code.length ∧ byteAt code k = n := by
  induction code generalizing n k with
  | nil =>
    cases n with
    | zero =>
      cases h
      exact ⟨Nat.le_refl 0, rfl⟩
    | succ n => cases h
  | cons i is ih =>
    by_cases hn : 0 < n
    · rw [indexAt?_cons _ _ _ hn] at h
      split at h
      · obtain ⟨k', hk, rfl⟩ := Option.map_eq_some_iff.mp h
        obtain ⟨hle, hb⟩ := ih hk
        refine ⟨Nat.succ_le_succ hle, ?_⟩
        rw [byteAt_cons_succ, hb]
        omega
      · cases h
    · obtain rfl : n = 0 := by omega
      cases h
      exact ⟨Nat.zero_le _, rfl⟩

section SameLengths

variable {xs ys : List Instr}

theorem indexAt?_congr (h : xs.map Instr.encodedLength = ys.map Instr.encodedLength) (n : Nat) :
    indexAt? xs n = indexAt? ys n := by
  induction xs generalizing ys n with
  | nil =>
    rw [List.map_eq_nil_iff.mp h.symm]
  | cons x xs ih =>
    obtain _ | ⟨y, ys⟩ := ys
    · cases h
    · obtain ⟨hl, ht⟩ := List.cons.inj h
      by_cases hn : 0 < n
      · rw [indexAt?_cons _ _ _ hn, indexAt?_cons _ _ _ hn, hl, ih ht]
      · obtain rfl : n = 0 := by omega
        rfl

theorem encodedLength_congr (h : xs.map Instr.encodedLength = ys.map Instr.encodedLength) :
    encodedLength xs = encodedLength ys := by
  have hs (l : List Instr) : encodedLength l = (l.map Instr.encodedLength).sum := by
    induction l with
    | nil => rfl
    | cons i l ih => rw [encodedLength, ih, List.map_cons, List.sum_cons]
  rw [hs, hs, h]

theorem byteAt_congr (h : xs.map Instr.encodedLength = ys.map Instr.encodedLength) (k : Nat) :
    byteAt xs k = byteAt ys k := by
  apply encodedLength_congr
  rw [List.map_take, List.map_take, h]

end SameLengths

theorem target?_eq_some {length index target : Nat} {delta : Int32} :
    target? length index delta = some target ↔
      (index : Int) + delta.toInt = target ∧ target ≤ length := by
  simp only [target?]
  split
  · rename_i h
    simp only [Option.some.injEq]
    omega
  · simp only [reduceCtorEq, false_iff]
    omega

end Image

end TurtleScript
