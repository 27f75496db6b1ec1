import TurtleScript.Proofs.Image.Code
import TurtleScript.Proofs.Image.Scan

/-!
# Reading is safe

The reader of modules and the reader in place do the same on every input, however its counts,
pointers, offsets and numbers were chosen. The latter is never trapped, so no difference, slice,
place or operand is ever out of bounds; and a problem that is found lies within the input.
-/
namespace TurtleScript.Image

/-- The cursor stands in `bytes` and has what follows there before it. -/
structure Cursor.Within (bytes : List UInt8) (c : Cursor) : Prop where
  le : c.position ≤ bytes.length
  rest : c.rest = bytes.drop c.position

/-- The diagnostic is about the format and points into `bytes`. -/
structure Points (bytes : List UInt8) (d : Diagnostic) : Prop where
  category : d.problem.category = .format
  ordered : d.span.start ≤ d.span.stop
  inside : d.span.stop ≤ bytes.length

/-- From the cursor on, a scan and a reader end in the same way and at the same place, and not
before the cursor; their values are related. -/
inductive Follows {α β : Type} (bytes : List UInt8) (rel : α → β → Cursor → Prop) (c : Cursor)
    (x : Scan α) (y : Read β) : Prop where
  | done {a : α} {b : β} {d : Cursor} (scan : x bytes c.position = .done a d.position)
      (read : y c = .ok (b, d)) (within : d.Within bytes) (le : c.position ≤ d.position)
      (related : rel a b d)
  | problem {p : Diagnostic} (scan : x bytes c.position = .problem p) (read : y c = .error p)
      (points : Points bytes p)

/-- A scan does what a reader does, wherever it starts. -/
def Same {α : Type} (bytes : List UInt8) (x : Scan α) (y : Read α) : Prop :=
  ∀ c : Cursor, c.Within bytes → Follows bytes (fun a b _ => a = b) c x y

section Rules

variable {α β γ δ : Type} {bytes : List UInt8} {c : Cursor} {rel : α → β → Cursor → Prop}
  {rel' : γ → δ → Cursor → Prop} {x : Scan α} {y : Read β} {f : α → Scan γ} {g : β → Read δ}

theorem Follows.bind (h : Follows bytes rel c x y)
    (hf : ∀ a b d, d.Within bytes → c.position ≤ d.position → rel a b d →
      Follows bytes rel' d (f a) (g b)) : Follows bytes rel' c (x >>= f) (y >>= g) := by
  cases h with
  | @done a b d scan read within le related =>
    have hscan : (x >>= f) bytes c.position = f a bytes d.position := by
      rw [Scan.bind_apply, scan]
    have hread : (y >>= g) c = g b d := by rw [Read.bind_apply, read]
    cases hf a b d within le related with
    | done scan' read' within' le' related' =>
      exact .done (hscan.trans scan') (hread.trans read') within' (Nat.le_trans le le') related'
    | problem scan' read' points => exact .problem (hscan.trans scan') (hread.trans read') points
  | problem scan read points =>
    refine .problem ?_ ?_ points
    · rw [Scan.bind_apply, scan]
    · rw [Read.bind_apply, read]

/-- A step that only the scan makes, and that stays where it is. -/
theorem Follows.step {a : α} {y : Read δ} (hx : x bytes c.position = .done a c.position)
    (h : Follows bytes rel' c (f a) y) : Follows bytes rel' c (x >>= f) y := by
  have hscan : (x >>= f) bytes c.position = f a bytes c.position := by
    rw [Scan.bind_apply, hx]
  cases h with
  | done scan read within le related => exact .done (hscan.trans scan) read within le related
  | problem scan read points => exact .problem (hscan.trans scan) read points

theorem Follows.congr {y' : Read β} (hy : y c = y' c) (h : Follows bytes rel c x y') :
    Follows bytes rel c x y := by
  cases h with
  | done scan read within le related => exact .done scan (hy.trans read) within le related
  | problem scan read points => exact .problem scan (hy.trans read) points

theorem Follows.look {g : Nat → Read β} (h : Follows bytes rel c x (g c.position)) :
    Follows bytes rel c x (Read.position >>= g) := by
  refine .congr ?_ h
  rfl

theorem Follows.lookRest {g : Cursor → Read β} (h : Follows bytes rel c x (g c)) :
    Follows bytes rel c x (get >>= g) := by
  refine .congr ?_ h
  rfl

theorem Follows.pure {a : α} {b : β} (hc : c.Within bytes) (h : rel a b c) :
    Follows bytes rel c (Pure.pure a) (Pure.pure b) :=
  .done rfl rfl hc (Nat.le_refl _) h

theorem Follows.fail {p : ImageProblem} (hc : c.Within bytes) :
    Follows bytes rel c (Scan.fail p) (Read.fail p) :=
  .problem rfl rfl ⟨rfl, Nat.le_refl _, hc.le⟩

/-- What would come after a problem does not matter. -/
theorem Follows.failed {p : ImageProblem} (hc : c.Within bytes) :
    Follows bytes rel' c (Scan.fail p >>= f) (Read.fail p >>= g) :=
  .problem rfl rfl ⟨rfl, Nat.le_refl _, hc.le⟩

theorem Follows.mono {rel' : α → β → Cursor → Prop} (h : Follows bytes rel c x y)
    (hrel : ∀ a b d, rel a b d → rel' a b d) : Follows bytes rel' c x y := by
  cases h with
  | done scan read within le related => exact .done scan read within le (hrel _ _ _ related)
  | problem scan read points => exact .problem scan read points

theorem Follows.map {rel' : α → δ → Cursor → Prop} {k : β → δ} (h : Follows bytes rel c x y)
    (hrel : ∀ a b d, rel a b d → rel' a (k b) d) :
    Follows bytes rel' c x (do return k (← y)) := by
  cases h with
  | @done a b d scan read within le related =>
    refine .done scan ?_ within le (hrel a b d related)
    rw [Read.bind_apply, read]
    rfl
  | problem scan read points =>
    refine .problem scan ?_ points
    rw [Read.bind_apply, read]

theorem Same.pure (a : α) : Same bytes (Pure.pure a) (Pure.pure a) := fun _ hc => .pure hc rfl

theorem Same.fail (p : ImageProblem) : Same bytes (Scan.fail p : Scan α) (Read.fail p) :=
  fun _ hc => .fail hc

theorem Same.bind {y : Read α} {f : α → Scan γ} {g : α → Read γ} (h : Same bytes x y)
    (hf : ∀ a, Same bytes (f a) (g a)) : Same bytes (x >>= f) (y >>= g) := by
  intro c hc
  refine (h c hc).bind ?_
  rintro a _ d hd - rfl
  exact hf a d hd

theorem Same.many_follows {y : Read α} (h : Same bytes x y) (n : Nat) (hc : c.Within bytes) :
    Follows bytes (fun as bs _ => as = bs ∧ as.length = n) c (Scan.many x n) (Read.many y n) := by
  have hfrom (first : Nat) : Follows bytes (fun as bs _ => as = bs ∧ as.length = n) c
      (Scan.forEach (fun _ => x) first n) (Read.many y n) := by
    induction n generalizing first c with
    | zero => exact .pure hc ⟨rfl, rfl⟩
    | succ n ih =>
      refine (h c hc).bind ?_
      rintro a _ d hd - rfl
      refine (ih hd (first + 1)).bind ?_
      rintro as _ e he - ⟨rfl, hlength⟩
      exact .pure he ⟨rfl, congrArg (· + 1) hlength⟩
  exact hfrom 0

theorem Same.many {y : Read α} (h : Same bytes x y) (n : Nat) :
    Same bytes (Scan.many x n) (Read.many y n) :=
  fun _ hc => (h.many_follows n hc).mono fun _ _ _ h => h.1

end Rules

section Records

variable {bytes : List UInt8} {c : Cursor}

theorem Cursor.Within.advance {n : Nat} (h : c.Within bytes) (hn : c.position + n ≤ bytes.length) :
    Cursor.Within bytes ⟨c.position + n, c.rest.drop n⟩ where
  le := hn
  rest := by rw [h.rest, List.drop_drop]

theorem Cursor.Within.length_rest (h : c.Within bytes) :
    c.rest.length = bytes.length - c.position := by
  rw [h.rest, List.length_drop]

theorem take_follows (n : Nat) (hc : c.Within bytes) :
    Follows bytes (fun a b d => a = b ∧ a.length = n ∧ d.position = c.position + n) c (Scan.take n)
      (Read.take n) := by
  have hlength := hc.length_rest
  have hread : Read.take n c = if (c.rest.take n).length = n then
      .ok (c.rest.take n, ⟨c.position + n, c.rest.drop n⟩)
      else .error ⟨.image .endOfInput, ⟨c.position, c.position⟩⟩ := by
    simp only [Read.take, Read.bind_apply, get, getThe, MonadStateOf.get, StateT.get,
      Pure.pure, Except.pure, List.splitAt_eq]
    split <;> rfl
  by_cases hn : c.position + n ≤ bytes.length
  · have htake : (c.rest.take n).length = n := by
      rw [List.length_take]
      have := hc.le
      omega
    refine .done (a := c.rest.take n) (d := ⟨c.position + n, c.rest.drop n⟩) ?_
      (hread.trans (if_pos htake)) (hc.advance hn) (Nat.le_add_right ..) ⟨rfl, htake, rfl⟩
    have hslice : ((bytes.take (c.position + n)).drop c.position) = c.rest.take n := by
      rw [hc.rest, List.drop_take, Nat.add_sub_cancel_left]
    simp only [Scan.take, Scan.bind_apply, Scan.input, Scan.position, if_pos hn, Scan.slice]
    rw [if_pos ⟨Nat.le_add_right .., hn⟩, hslice]
    rfl
  · have htake : (c.rest.take n).length ≠ n := by
      rw [List.length_take]
      have := hc.le
      omega
    refine .problem ?_ (hread.trans (if_neg htake)) ⟨rfl, Nat.le_refl _, hc.le⟩
    simp only [Scan.take, Scan.bind_apply, Scan.input, Scan.position, if_neg hn]
    rfl

theorem same_take (n : Nat) : Same bytes (Scan.take n) (Read.take n) :=
  fun _ hc => (take_follows n hc).mono fun _ _ _ h => h.1

theorem same_number (width : Nat) : Same bytes (Scan.number width) (Read.number width) := by
  intro c hc
  refine (take_follows width hc).bind ?_
  rintro a _ d hd - ⟨rfl, hlength, -⟩
  refine .step (Scan.forEach_item 0 width (by omega)) (.pure hd ?_)
  rw [List.drop_zero, List.take_of_length_le (Nat.le_of_eq hlength)]

theorem same_byte : Same bytes Scan.byte Read.byte := (same_number 1).bind fun _ => .pure _

theorem same_word16 : Same bytes Scan.word16 Read.word16 := (same_number 2).bind fun _ => .pure _

theorem same_word32 : Same bytes Scan.word32 Read.word32 := (same_number 4).bind fun _ => .pure _

theorem same_operand : Same bytes Scan.operand Read.operand := same_word32.bind fun _ => .pure _

theorem same_flag : Same bytes Scan.flag Read.flag := by
  refine same_byte.bind fun b => ?_
  by_cases hzero : b = 0
  · subst hzero
    exact .pure false
  by_cases hone : b = 1
  · subst hone
    exact .pure true
  simp only
  exact .fail _

theorem same_text : Same bytes Scan.text Read.text := by
  refine (same_number 4).bind fun n => (same_take n).bind fun found => ?_
  cases Text.Utf8.decode found with
  | ok s => exact .pure s
  | error fault => exact .fail _

theorem same_kind (role : TagRole) : Same bytes (Scan.kind role) (Read.kind role) := by
  refine same_byte.bind fun tag => ?_
  cases Kind.ofTag? tag with
  | some k => exact .pure k
  | none => exact .fail _

theorem same_constant : Same bytes Scan.constant Read.constant := by
  refine (same_kind .constant).bind fun k => ?_
  cases k with
  | boolean => exact same_flag.bind fun _ => .pure _
  | double => exact (same_number 8).bind fun _ => .pure _
  | string => exact same_text.bind fun _ => .pure _
  | _ => exact .fail _

theorem same_fieldDef : Same bytes Scan.fieldDef Read.fieldDef :=
  same_word32.bind fun _ => same_text.bind fun _ => .pure _

theorem same_variableDef : Same bytes Scan.variableDef Read.variableDef :=
  same_word32.bind fun _ => same_text.bind fun _ => .pure _

theorem same_typeDef : Same bytes Scan.typeDef Read.typeDef :=
  same_word32.bind fun _ => same_text.bind fun _ => same_flag.bind fun _ =>
    (same_kind .typeKind).bind fun _ => same_word32.bind fun _ => (same_number 4).bind fun n =>
      (same_fieldDef.many n).bind fun _ => .pure _

theorem same_functionDef : Same bytes Scan.functionDef Read.functionDef := by
  refine same_word32.bind fun _ => same_text.bind fun _ => same_word32.bind fun _ =>
    (same_number 4).bind fun _ => same_word32.bind fun _ => (same_number 4).bind fun n =>
      (same_variableDef.many n).bind fun _ => ?_
  split
  · exact (Same.fail _).bind fun _ => .pure _
  · exact .pure _

theorem arity_le (op : Opcode) : op.arity ≤ 2 := by
  cases op <;> decide

theorem same_instr : Same bytes Scan.instr Read.instr := by
  refine same_byte.bind fun b => ?_
  cases Opcode.ofByte? b with
  | none => exact .fail _
  | some opcode =>
    intro c hc
    dsimp only
    rw [Nat.min_eq_right (arity_le opcode)]
    refine (same_operand.many_follows opcode.arity hc).bind ?_
    rintro operands _ d hd - ⟨rfl, hlength⟩
    have hle := arity_le opcode
    have hslice : ((operands ++ List.replicate (2 - operands.length) 0).take opcode.arity).drop 0 =
        operands := by
      rw [List.drop_zero, List.take_left' hlength]
    refine .step (Scan.slice_apply (Nat.zero_le _) ?_) ?_
    · rw [List.length_append, List.length_replicate]
      omega
    · rw [hslice]
      cases Instr.ofParts? opcode operands with
      | none => exact .fail hd
      | some i => exact .pure hd rfl

end Records

section Code

variable {bytes : List UInt8} {c : Cursor}

theorem instr_follows (hc : c.Within bytes) :
    Follows bytes (fun i j d => i = j ∧ d.position = c.position + i.encodedLength) c Scan.instr
      Read.instr := by
  cases same_instr c hc with
  | @done i j d scan read within le related =>
    obtain ⟨written, hwritten, htakes⟩ := Read.instr_codec.writes read
    cases hwritten
    refine .done scan read within le ⟨related, ?_⟩
    rw [htakes.position, length_instr, related]
  | problem scan read points => exact .problem scan read points

/-- The bytes at which instructions start, of which the first starts at `first`. -/
def startsFrom (first : Nat) : List Instr → List Nat
  | [] => []
  | i :: is => first :: startsFrom (first + i.encodedLength) is

/-- Both loops end because every instruction has a byte, the scan's before the bytes do. -/
theorem code_follows {start offset stop limit limit' : Nat} (hc : c.Within bytes)
    (hstart : start + offset ≤ c.position) (hlimit : start + stop ≤ c.position + limit)
    (hlimit' : bytes.length < c.position + limit') :
    Follows bytes (fun found is d =>
        found = (startsFrom (c.position - start - offset) is, is) ∧
        d.position = c.position + encodedLength is) c
      (Scan.code start offset stop limit') (Read.code (start + stop) limit) := by
  induction limit' generalizing c limit with
  | zero =>
    have := hc.le
    omega
  | succ limit' ih =>
    refine .step rfl (.step (Scan.sub_apply (by omega)) ?_)
    by_cases hmore : c.position - start < stop
    · rw [if_pos hmore]
      obtain _ | limit := limit
      · omega
      refine .congr ((Read.code_succ ..).trans (if_pos (by omega))) ?_
      refine .step rfl (.step (Scan.sub_apply (by omega)) (.step (Scan.sub_apply (by omega)) ?_))
      refine (instr_follows hc).bind ?_
      rintro i _ d hd - ⟨rfl, hposition⟩
      have hpos := encodedLength_pos i
      refine (@ih d limit hd (by omega) (by omega) (by omega)).bind ?_
      rintro _ is e he - ⟨rfl, hend⟩
      refine .pure he ⟨?_, ?_⟩
      · rw [startsFrom, hposition]
        have : c.position + i.encodedLength - start - offset =
            c.position - start - offset + i.encodedLength := by omega
        rw [this]
      · rw [hend, hposition, encodedLength, Nat.add_assoc]
    · rw [if_neg hmore]
      have hnone : Read.code (start + stop) limit c = .ok ([], c) := by
        cases limit with
        | zero => rfl
        | succ limit => exact (Read.code_succ ..).trans (if_neg (by omega))
      exact .done rfl hnone hc (Nat.le_refl _) ⟨rfl, rfl⟩

theorem le_of_mem_startsFrom {first n : Nat} {is : List Instr} (h : n ∈ startsFrom first is) :
    first ≤ n := by
  induction is generalizing first with
  | nil => cases h
  | cons i is ih =>
    rcases List.mem_cons.mp h with rfl | h
    · exact Nat.le_refl _
    · have := ih h
      omega

/-- Searching the starts of instructions finds the instruction at a byte. -/
theorem idxOf?_startsFrom (first n : Nat) (is : List Instr) :
    (startsFrom first is ++ [first + encodedLength is]).idxOf? (first + n) = indexAt? is n := by
  induction is generalizing first n with
  | nil => cases n <;> simp [startsFrom, encodedLength, indexAt?, List.idxOf?_cons]
  | cons i is ih =>
    rw [startsFrom, List.cons_append, List.idxOf?_cons, encodedLength]
    cases n with
    | zero => simp [indexAt?]
    | succ n =>
      have hne : (first == first + (n + 1)) = false := by simp
      rw [hne, if_neg (by simp), indexAt?_cons _ _ _ (Nat.succ_pos n),
        ← Nat.add_assoc first i.encodedLength]
      by_cases hle : i.encodedLength ≤ n + 1
      · have hplace : first + (n + 1) =
            first + i.encodedLength + (n + 1 - i.encodedLength) := by omega
        rw [if_pos hle, hplace, ih]
      · rw [if_neg hle, Option.map_eq_none_iff, List.idxOf?_eq_none_iff]
        intro hmem
        rcases List.mem_append.mp hmem with hmem | hmem
        · have := le_of_mem_startsFrom hmem
          omega
        · have := List.mem_singleton.mp hmem
          omega

section Jumps

variable {a : Addressing} {name : String} {base index : Nat} {code : List Instr}

/-- The instruction that a jump of either form leads to. -/
def jumpTarget? (a : Addressing) (base : Nat) (code : List Instr) (index : Nat) (operand : Int32) :
    Option Nat :=
  match a with
  | .relative => target? code.length index operand
  | .fixed => if base ≤ operand.toInt then indexAt? code (operand.toInt.toNat - base) else none

def jumpProblem (a : Addressing) (name : String) (index : Nat) (operand : Int32) : ImageProblem :=
  match a with
  | .relative => .jumpLeaves name index operand.toInt
  | .fixed => .jumpTarget name index operand.toInt

/-- In either form a jump that leads somewhere gets the distance as its operand. -/
theorem relativeInstr_jump (kind : JumpKind) (operand : Int32) :
    Read.relativeInstr a name base code index (.jump kind operand) =
      match jumpTarget? a base code index operand with
      | some target => .ok (.jump kind (Int32.ofInt (target - index : Int)))
      | none => .error (jumpProblem a name index operand) := by
  cases a with
  | fixed => rfl
  | relative =>
    rw [Read.relativeInstr, jumpTarget?, jumpProblem]
    cases htarget : target? code.length index operand with
    | none => rfl
    | some target =>
      obtain ⟨hsum, -⟩ := target?_eq_some.mp htarget
      have hdelta : Int32.ofInt (target - index : Int) = operand := by
        rw [← hsum, Int.add_comm, Int.add_sub_cancel, Int32.ofInt_toInt]
      simp only [hdelta]

theorem jumpTarget?_le {operand : Int32} {target : Nat}
    (h : jumpTarget? a base code index operand = some target) : target ≤ code.length := by
  cases a with
  | relative => exact (target?_eq_some.mp h).2
  | fixed =>
    rw [jumpTarget?] at h
    split at h
    · exact (byteAt_of_indexAt? h).1
    · cases h

theorem target_follows {operand : Int32} (hc : c.Within bytes) (hindex : index < 2 ^ 31) :
    Follows bytes (fun t u _ => t = u ∧ t ≤ code.length) c
      (Scan.target a name base (startsFrom 0 code ++ [encodedLength code]) code.length index operand)
      (match jumpTarget? a base code index operand with
        | some target => pure target
        | none => Read.fail (jumpProblem a name index operand)) := by
  have hfound : Follows bytes (fun t u _ => t = u ∧ t ≤ code.length) c
      (match jumpTarget? a base code index operand with
        | some target => pure target
        | none => Scan.fail (jumpProblem a name index operand))
      (match jumpTarget? a base code index operand with
        | some target => pure target
        | none => Read.fail (jumpProblem a name index operand)) := by
    cases htarget : jumpTarget? a base code index operand with
    | none => exact .fail hc
    | some target => exact .pure hc ⟨rfl, jumpTarget?_le htarget⟩
  cases a with
  | relative =>
    have hlow := operand.le_toInt
    have hhigh := operand.toInt_lt
    have hsum : (Int64.ofInt (index + operand.toInt)).toInt = index + operand.toInt :=
      Int64.toInt_ofInt_of_le (by omega) (by omega)
    refine .step (Scan.add64_apply hsum) ?_
    simp only [jumpTarget?, jumpProblem, target?] at hfound ⊢
    by_cases hinside : 0 ≤ (index : Int) + operand.toInt ∧
        (index : Int) + operand.toInt ≤ code.length
    · simpa only [if_pos hinside] using hfound
    · simpa only [if_neg hinside] using hfound
  | fixed =>
    have hsearch := idxOf?_startsFrom 0 (operand.toInt.toNat - base) code
    rw [Nat.zero_add, Nat.zero_add] at hsearch
    rw [Scan.target]
    simp only [jumpTarget?, jumpProblem] at hfound ⊢
    split
    · rename_i hbase
      rw [if_pos hbase] at hfound
      refine .step (Scan.sub_apply (by omega)) ?_
      rw [hsearch]
      exact hfound
    · rename_i hbase
      rw [if_neg hbase] at hfound
      exact hfound

/-- A result of the reader that takes no bytes. -/
def Read.settle {α : Type} : Except ImageProblem α → Read α
  | .ok a => pure a
  | .error p => fail p

theorem Read.settle_bind {α β : Type} (x : Except ImageProblem α) (f : α → Except ImageProblem β) :
    settle (x >>= f) = settle x >>= fun a => settle (f a) := by
  cases x <;> rfl

/-- An operand that is rewritten fits its word, since there are fewer instructions than bytes. -/
theorem relativeInstr_follows {i : Instr} (hc : c.Within bytes) (hi : code[index]? = some i)
    (hsize : code.length < 2 ^ 31) :
    Follows bytes (fun i j _ => i = j) c
      (Scan.relativeInstr a name base (startsFrom 0 code ++ [encodedLength code]) code index)
      (Read.settle (Read.relativeInstr a name base code index i)) := by
  have hindex : index < 2 ^ 31 := by
    have := (List.getElem?_eq_some_iff.mp hi).1
    omega
  refine .step (Scan.item_apply hi) ?_
  cases i with
  | jump kind operand =>
    have hread : Read.settle (Read.relativeInstr a name base code index (.jump kind operand)) c =
        ((match jumpTarget? a base code index operand with
          | some target => pure target
          | none => Read.fail (jumpProblem a name index operand)) >>= fun target =>
            pure (Instr.jump kind (Int32.ofInt (target - index : Int)))) c := by
      rw [relativeInstr_jump]
      cases jumpTarget? a base code index operand <;> rfl
    refine .congr hread ((target_follows hc hindex).bind ?_)
    rintro target _ d hd - ⟨rfl, htarget⟩
    have htarget' : (Int32.ofInt target).toInt = target :=
      Int32.toInt_ofInt_of_le (by omega) (by omega)
    have hindex' : (Int32.ofInt index).toInt = index :=
      Int32.toInt_ofInt_of_le (by omega) (by omega)
    have hdelta : (Int32.ofInt (target - index : Int)).toInt = target - index :=
      Int32.toInt_ofInt_of_le (by omega) (by omega)
    refine .step (Scan.int32_apply htarget') (.step (Scan.int32_apply hindex') ?_)
    rw [Scan.sub32, htarget', hindex']
    exact .step (Scan.int32_apply hdelta) (.pure hd rfl)
  | _ => exact .pure hc rfl

theorem relativeCode_follows {is : List Instr} (hc : c.Within bytes) (his : code.drop index = is)
    (hsize : code.length < 2 ^ 31) :
    Follows bytes (fun is js _ => is = js) c
      (Scan.forEach (Scan.relativeInstr a name base (startsFrom 0 code ++ [encodedLength code]) code)
        index is.length)
      (Read.settle (Read.relativeCode a name base code index is)) := by
  induction is generalizing index c with
  | nil => exact .pure hc rfl
  | cons i is ih =>
    have hi : code[index]? = some i := by
      rw [← List.head?_drop, his]
      rfl
    have his' : code.drop (index + 1) = is := by
      rw [← List.drop_drop, his]
      rfl
    rw [Read.relativeCode, Read.settle_bind]
    refine (relativeInstr_follows hc hi hsize).bind ?_
    rintro i _ d hd - rfl
    rw [Read.settle_bind]
    refine (ih hd his').bind ?_
    rintro is _ e he - rfl
    exact .pure he rfl

end Jumps

theorem body_follows {a : Addressing} {start offset stop : Nat} {f : FunctionDef}
    (hsize : bytes.length < 2 ^ 31) (hc : c.Within bytes) (hstart : start ≤ c.position) :
    Follows bytes (fun f g _ => f = g) c (Scan.body a start f offset stop)
      (Read.body a start f offset stop) := by
  refine .step rfl (.step (Scan.sub_apply hstart) (.look ?_))
  by_cases hplace : c.position - start ≠ offset ∨ stop < offset
  · simp only [if_pos hplace]
    exact .failed hc
  simp only [if_neg hplace]
  obtain ⟨hhere, hstop⟩ := not_or.mp hplace
  rw [Decidable.not_not] at hhere
  refine .step rfl ((code_follows hc (by omega) (by omega) (by omega)).bind ?_)
  rintro _ raw d hd hle ⟨rfl, hend⟩
  refine .step rfl (.step (Scan.sub_apply (by omega)) (.look ?_))
  by_cases hover : d.position - start ≠ stop
  · simp only [if_pos hover]
    exact .failed hd
  simp only [if_neg hover]
  rw [Decidable.not_not] at hover
  refine .step (Scan.sub_apply (by omega)) ?_
  have hstarts : startsFrom (c.position - start - offset) raw ++ [stop - offset] =
      startsFrom 0 raw ++ [encodedLength raw] := by
    rw [hhere, Nat.sub_self]
    congr 2
    omega
  have hraw : raw.length < 2 ^ 31 := by
    have := length_le_encodedLength raw
    have := hd.le
    omega
  rw [hstarts]
  refine .congr (show _ = (Read.settle (Read.relativeCode a f.name offset raw 0 raw) >>=
      fun relative => pure { f with code := relative.toArray }) d by
    cases Read.relativeCode a f.name offset raw 0 raw <;> rfl)
    ((relativeCode_follows hd rfl hraw).bind ?_)
  rintro relative _ e he - rfl
  exact .pure he rfl

theorem bodies_follows {a : Addressing} {start length : Nat} {placed : List (FunctionDef × Nat)}
    (hsize : bytes.length < 2 ^ 31) (hc : c.Within bytes) (hstart : start ≤ c.position) :
    Follows bytes (fun fs gs _ => fs = gs) c
      (Scan.bodies a start (placed.zip ((placed.drop 1).map (·.2) ++ [length])))
      (Read.bodies a start length placed) := by
  induction placed generalizing c with
  | nil => exact .pure hc rfl
  | cons p placed ih =>
    obtain ⟨f, offset⟩ := p
    have hends : ((f, offset) :: placed).zip ((((f, offset) :: placed).drop 1).map (·.2) ++ [length]) =
        ((f, offset), placed.head?.elim length (·.2)) ::
          placed.zip ((placed.drop 1).map (·.2) ++ [length]) := by
      cases placed <;> rfl
    rw [hends]
    refine (body_follows hsize hc hstart).bind ?_
    rintro g _ d hd hle rfl
    refine (ih hd (by omega)).bind ?_
    rintro gs _ e he - rfl
    exact .pure he rfl

theorem same_boot (is : List Instr) : Same bytes (Scan.boot is) (Read.boot is) := by
  induction is with
  | nil => exact .pure ()
  | cons i is ih =>
    refine same_instr.bind fun j => ?_
    split
    · exact (Same.fail _).bind fun _ => ih
    · exact ih

end Code

section Module

variable {bytes : List UInt8} {c : Cursor}

theorem same_signature : Same bytes Scan.signature Read.signature := by
  intro c hc
  refine (take_follows magic.length hc).bind ?_
  rintro found _ d hd - ⟨rfl, -, hposition⟩
  by_cases hmagic : found ≠ magic
  · rw [if_pos hmagic, if_pos hmagic]
    refine .problem rfl rfl ⟨rfl, Nat.zero_le _, ?_⟩
    have := hd.le
    dsimp only
    omega
  · rw [if_neg hmagic, if_neg hmagic]
    exact .pure hd rfl

theorem same_addressing : Same bytes Scan.addressing Read.addressing := by
  refine same_byte.bind fun b => ?_
  by_cases hzero : b = 0
  · subst hzero
    exact .pure Addressing.relative
  by_cases hone : b = 1
  · subst hone
    exact .pure Addressing.fixed
  simp only
  exact .fail _

theorem same_version : Same bytes Scan.version Read.version :=
  same_word16.bind fun _ => same_word16.bind fun _ => same_word16.bind fun _ =>
    same_word16.bind fun _ => .pure _

theorem sectionTable_follows (hc : c.Within bytes) :
    Follows bytes (fun ns t _ => ns = t.toList) c (Scan.many (Scan.number 4) 6)
      Read.sectionTable := by
  rw [Read.sectionTable_eq]
  refine ((same_number 4).many_follows 6 hc).map ?_
  rintro ns _ - ⟨rfl, hlength⟩
  exact (Read.SectionTable.toList_ofList hlength).symm

theorem same_sectionStart {name : String} {pointers : List Nat} {pointer k : Nat}
    (hpointer : pointers[k]? = some pointer) (hname : Scan.sectionNames[k]? = some name) :
    Same bytes (Scan.sectionStart pointers k) (Read.sectionStart name pointer) := by
  intro c hc
  refine .step rfl (.step (Scan.item_apply hpointer) (.look ?_))
  split
  · exact .step (Scan.item_apply hname) (.fail hc)
  · exact .pure hc rfl

theorem same_reserved {name : String} {counts : List Nat} {count k : Nat}
    (hcount : counts[k]? = some count) (hname : Scan.sectionNames[k]? = some name) :
    Same bytes (Scan.reserved counts k) (Read.reserved name count) := by
  intro c hc
  refine .step (Scan.item_apply hcount) ?_
  rw [Read.reserved]
  by_cases hzero : count = 0
  · rw [if_neg (not_not_intro hzero), if_pos hzero]
    exact .pure hc rfl
  · rw [if_pos hzero, if_neg hzero]
    exact .step (Scan.item_apply hname) (.fail hc)

theorem same_format : Same bytes Scan.format Read.format := by
  refine same_word16.bind fun format => ?_
  split
  · exact .fail _
  · exact .pure ()

theorem same_heading : Same bytes Scan.heading Read.heading :=
  same_signature.bind fun _ => same_format.bind fun _ => same_addressing.bind fun _ =>
    same_text.bind fun _ => same_text.bind fun _ => same_version.bind fun _ =>
      same_word32.bind fun _ => .pure _

theorem front_follows (hc : c.Within bytes) :
    Follows bytes (fun f g _ => f = g) c Scan.front Read.front := by
  refine (same_heading c hc).bind ?_
  rintro heading _ c hc - rfl
  refine (sectionTable_follows hc).bind ?_
  rintro _ counts c hc - rfl
  refine (sectionTable_follows hc).bind ?_
  rintro _ starts c hc - rfl
  have hitem {α : Type} {k n : Nat} {f : Nat → Scan α} {y : Read α}
      (hn : counts.toList[k]? = some n) (h : Same bytes (f n) y) :
      Same bytes (Scan.item counts.toList k >>= f) y :=
    fun c hc => .step (Scan.item_apply hn) (h c hc)
  have hsections : Same bytes (Scan.sections heading counts.toList starts.toList) _ :=
    (same_reserved rfl rfl).bind fun _ => (same_reserved rfl rfl).bind fun _ =>
      (same_sectionStart rfl rfl).bind fun _ => hitem rfl <| (same_constant.many _).bind fun _ =>
        (same_sectionStart rfl rfl).bind fun _ => hitem rfl <| (same_typeDef.many _).bind fun _ =>
          (same_sectionStart rfl rfl).bind fun _ => (same_sectionStart rfl rfl).bind fun _ =>
            hitem rfl <| (same_functionDef.many _).bind fun _ =>
              (same_sectionStart rfl rfl).bind fun _ => (same_sectionStart rfl rfl).bind fun _ =>
                hitem rfl (.pure _)
  exact hsections c hc

theorem back_follows {f : Front} (hsize : bytes.length < 2 ^ 31) (hc : c.Within bytes) :
    Follows bytes (fun m n _ => m = n) c (Scan.back f) (Read.back f) := by
  by_cases hentry : (sortByKey (·.1.id) f.defs).all (·.1.id ≠ f.entryPoint) = true
  · simp only [Scan.back, Read.back, if_pos hentry]
    exact .failed hc
  simp only [Scan.back, Read.back, if_neg hentry]
  refine .step rfl (.look ((same_boot _ c hc).bind ?_))
  rintro _ _ d hd hle -
  refine (bodies_follows hsize hd hle).bind ?_
  rintro functions _ e he - rfl
  refine .step rfl (.step rfl (.lookRest ?_))
  simp only [he.length_rest]
  split
  · exact .failed he
  · exact .pure he rfl

theorem module_follows (hsize : bytes.length < 2 ^ 31) :
    Follows bytes (fun m n _ => m = n) ⟨0, bytes⟩ Scan.module Read.module := by
  rw [Read.module_eq]
  refine (front_follows ⟨Nat.zero_le _, List.drop_zero.symm⟩).bind ?_
  rintro f _ d hd - rfl
  exact back_follows hsize hd

end Module

end TurtleScript.Image

namespace TurtleScript

/-- Every input of less than two gigabytes is read or refused for a problem of its format that
lies within it. No operation on the way is out of bounds: the reader that checks each of them
ends in the same way. -/
theorem Module.ofBytes_safe (b : List UInt8) (hsize : b.length < 2 ^ 31) :
    (∃ m position, Image.Scan.module b 0 = .done m position ∧ Module.ofBytes b = .ok m) ∨
      ∃ d, Image.Scan.module b 0 = .problem d ∧ Module.ofBytes b = .error d ∧
        d.problem.category = .format ∧ d.span.start ≤ d.span.stop ∧ d.span.stop ≤ b.length := by
  rw [Module.ofBytes]
  cases Image.module_follows hsize with
  | @done m n d scan read within le related =>
    subst related
    rw [read]
    exact .inl ⟨m, d.position, scan, rfl⟩
  | @problem p scan read points =>
    rw [read]
    exact .inr ⟨p, scan, rfl, points.category, points.ordered, points.inside⟩

/-- An image of one function, whose jump names a byte inside the jump itself. -/
def Image.astray : List UInt8 :=
  magic ++ word 2 formatVersion ++ [flag .fixed] ++ word 4 0 ++ word 4 0 ++ word 8 0 ++ word 4 3 ++
    [0, 0, 0, 1, 0, 21].flatMap (word 4) ++ [75, 75, 75, 75, 100, 100].flatMap (word 4) ++
    word 4 3 ++ word 4 1 ++ [102] ++ [0, 15, 0, 0].flatMap (word 4) ++
    (Module.boot 3 ++ #[Instr.nop, .jump .always 18]).toList.flatMap instr

/-- The code is read to its end; what is refused is the jump, when it is given its relative form. -/
theorem Module.ofBytes_safe_astray :
    Image.astray.length < 2 ^ 31 ∧
      ∃ d, Image.Scan.module Image.astray 0 = .problem d ∧ Module.ofBytes Image.astray = .error d ∧
        d.problem = .image (.jumpTarget "f" 1 18) ∧ d.problem.category = .format ∧
        d.span.start ≤ d.span.stop ∧ d.span.stop ≤ Image.astray.length := by
  have hlength : Image.astray.length = 121 := rfl
  have hsize : Image.astray.length < 2 ^ 31 := by omega
  have hread : Module.ofBytes Image.astray =
      .error ⟨.image (.jumpTarget "f" 1 18), ⟨121, 121⟩⟩ := rfl
  refine ⟨hsize, ?_⟩
  rcases Module.ofBytes_safe Image.astray hsize with ⟨m, position, -, hm⟩ | ⟨d, hscan, hd, hrest⟩
  · cases hread.symm.trans hm
  · obtain rfl : d = _ := Except.error.inj (hd.symm.trans hread)
    exact ⟨_, hscan, hd, rfl, hrest⟩

end TurtleScript
