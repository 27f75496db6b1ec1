import Mathlib.Algebra.Group.Nat.Defs
import TurtleScript.Proofs.Image.Code
import TurtleScript.Proofs.Image.Records

/-!
# Bodies of functions

Each body is written and read in the form of the image, and the functions one after
another. A body is read back if and only if its jumps stay inside.
-/
namespace TurtleScript.Image

/-- The jumps among `is`, the first of which has number `index`, stay in a function of
`length` instructions. -/
def InsideFrom (length index : Nat) (is : List Instr) : Prop :=
  ∀ (k : Nat) (kind : JumpKind) (delta : Int32), is[k]? = some (.jump kind delta) →
    0 ≤ ((index + k : Nat) : Int) + delta.toInt ∧ ((index + k : Nat) : Int) + delta.toInt ≤ length

theorem jumpsInside_iff (code : List Instr) : JumpsInside code ↔ InsideFrom code.length 0 code := by
  simp only [JumpsInside, InsideFrom, Nat.zero_add]

theorem insideFrom_nil (length index : Nat) : InsideFrom length index [] := by
  intro k kind delta h
  cases h

theorem insideFrom_cons {length index : Nat} {i : Instr} {is : List Instr} :
    InsideFrom length index (i :: is) ↔
      (∀ kind delta, i = .jump kind delta → ∃ target, target? length index delta = some target) ∧
        InsideFrom length (index + 1) is := by
  constructor
  · intro h
    refine ⟨?_, ?_⟩
    · rintro kind delta rfl
      have h0 := h 0 kind delta rfl
      exact ⟨((index : Int) + delta.toInt).toNat, target?_eq_some.mpr (by omega)⟩
    · intro k kind delta hk
      have hs := h (k + 1) kind delta hk
      rwa [show index + (k + 1) = index + 1 + k by omega] at hs
  · rintro ⟨hi, hs⟩ k kind delta hk
    cases k with
    | zero =>
      obtain ⟨target, ht⟩ := hi kind delta (Option.some.inj hk)
      have := target?_eq_some.mp ht
      omega
    | succ k =>
      have := hs k kind delta hk
      rwa [show index + (k + 1) = index + 1 + k by omega]

namespace Read

/-- Relative jumps are read as they are, and only if they stay inside. -/
theorem relativeCode_relative {name : String} {base index : Nat} {code is js : List Instr} :
    relativeCode .relative name base code index is = .ok js ↔
      js = is ∧ InsideFrom code.length index is := by
  induction is generalizing index js with
  | nil =>
    constructor
    · intro h
      cases h
      exact ⟨rfl, insideFrom_nil _ _⟩
    · rintro ⟨rfl, _⟩
      rfl
  | cons i is ih =>
    constructor
    · intro h
      obtain ⟨j, hj, h1⟩ := Except.bind_eq_ok h
      obtain ⟨rest, hr, h2⟩ := Except.bind_eq_ok h1
      cases h2
      obtain ⟨rfl, hs⟩ := ih.mp hr
      rw [insideFrom_cons]
      cases i with
      | jump kind operand =>
        simp only [relativeInstr] at hj
        split at hj
        · rename_i target ht
          cases hj
          refine ⟨rfl, ?_, hs⟩
          rintro _ _ ⟨⟩
          exact ⟨target, ht⟩
        · cases hj
      | _ =>
        cases hj
        exact ⟨rfl, nofun, hs⟩
    · rintro ⟨rfl, h⟩
      rw [insideFrom_cons] at h
      have hj : relativeInstr .relative name base code index i = .ok i := by
        cases i with
        | jump kind operand =>
          obtain ⟨target, ht⟩ := h.1 kind operand rfl
          simp only [relativeInstr, ht]
        | _ => rfl
      rw [relativeCode, hj, ih.mpr ⟨rfl, h.2⟩]
      rfl

section Fixed

variable {f : FunctionDef} {name : String} {base index : Nat} {raw : List Instr}

/-- A jump that was written as a byte is read back. -/
theorem relativeInstr_of_fixInstr (name : String)
    (hl : raw.map Instr.encodedLength = f.code.toList.map Instr.encodedLength) {i j : Instr}
    (h : fixInstr f base index i = .ok j) :
    relativeInstr .fixed name base raw index j = .ok i ∧ j.encodedLength = i.encodedLength ∧
      ∀ kind delta, i = .jump kind delta →
        ∃ target, target? f.code.size index delta = some target := by
  cases i with
  | jump kind delta =>
    simp only [fixInstr] at h
    cases ht : target? f.code.size index delta with
    | none => simp only [ht] at h; cases h
    | some target =>
      simp only [ht] at h
      split at h
      · rename_i hb
        cases h
        obtain ⟨hd, hle⟩ := target?_eq_some.mp ht
        have hi : (Int32.ofNat (base + byteAt f.code.toList target)).toInt =
            (base + byteAt f.code.toList target : Nat) := Int32.toInt_ofNat_of_lt hb
        have hat : indexAt? raw (byteAt f.code.toList target) = some target := by
          rw [indexAt?_congr hl]
          exact indexAt?_byteAt _ hle
        refine ⟨?_, by cases kind <;> rfl, ?_⟩
        · simp only [relativeInstr, hi]
          rw [if_pos (by omega), Int.toNat_natCast, Nat.add_sub_cancel_left, hat]
          have hdelta : (target : Int) - index = delta.toInt := by omega
          simp only [hdelta, Int32.ofInt_toInt]
        · rintro _ _ ⟨⟩
          exact ⟨target, ht⟩
      · cases h
  | _ =>
    cases h
    exact ⟨rfl, rfl, by rintro _ _ ⟨⟩⟩

theorem relativeCode_of_fixCode
    (hl : raw.map Instr.encodedLength = f.code.toList.map Instr.encodedLength) {is js : List Instr}
    (h : fixCode f base index is = .ok js) :
    relativeCode .fixed name base raw index js = .ok is := by
  induction is generalizing index js with
  | nil =>
    cases h
    rfl
  | cons i is ih =>
    obtain ⟨j, hj, h1⟩ := Except.bind_eq_ok h
    obtain ⟨rest, hr, h2⟩ := Except.bind_eq_ok h1
    cases h2
    rw [relativeCode, (relativeInstr_of_fixInstr name hl hj).1, ih hr]
    rfl

theorem encodedLength_of_fixCode {is js : List Instr} (h : fixCode f base index is = .ok js) :
    js.map Instr.encodedLength = is.map Instr.encodedLength := by
  induction is generalizing index js with
  | nil =>
    cases h
    rfl
  | cons i is ih =>
    obtain ⟨j, hj, h1⟩ := Except.bind_eq_ok h
    obtain ⟨rest, hr, h2⟩ := Except.bind_eq_ok h1
    cases h2
    obtain ⟨_, he, _⟩ := relativeInstr_of_fixInstr "" rfl hj
    rw [List.map_cons, List.map_cons, he, ih hr]

theorem insideFrom_of_fixCode {is js : List Instr} (h : fixCode f base index is = .ok js) :
    InsideFrom f.code.size index is := by
  induction is generalizing index js with
  | nil => exact insideFrom_nil _ _
  | cons i is ih =>
    obtain ⟨j, hj, h1⟩ := Except.bind_eq_ok h
    obtain ⟨rest, hr, h2⟩ := Except.bind_eq_ok h1
    obtain ⟨_, _, hin⟩ := relativeInstr_of_fixInstr "" rfl hj
    exact insideFrom_cons.mpr ⟨hin, ih hr⟩

theorem encodedLength_of_relativeInstr {a : Addressing} {i j : Instr}
    (h : relativeInstr a name base raw index j = .ok i) : i.encodedLength = j.encodedLength := by
  cases j with
  | jump kind operand =>
    simp only [relativeInstr] at h
    cases a with
    | relative =>
      simp only at h
      split at h <;> cases h
      rfl
    | fixed =>
      simp only at h
      split at h <;> cases h
      cases kind <;> rfl
  | _ =>
    cases h
    rfl

theorem encodedLength_of_relativeCode {a : Addressing} {is js : List Instr}
    (h : relativeCode a name base raw index js = .ok is) :
    is.map Instr.encodedLength = js.map Instr.encodedLength := by
  induction js generalizing index is with
  | nil =>
    cases h
    rfl
  | cons j js ih =>
    obtain ⟨i, hi, h1⟩ := Except.bind_eq_ok h
    obtain ⟨rest, hr, h2⟩ := Except.bind_eq_ok h1
    cases h2
    rw [List.map_cons, List.map_cons, encodedLength_of_relativeInstr hi, ih hr]

/-- A byte that was read as a jump is the byte the jump is written as. -/
theorem fixInstr_of_relativeInstr
    (hl : raw.map Instr.encodedLength = f.code.toList.map Instr.encodedLength)
    (hraw : raw.length < 2 ^ 31) (hindex : index < raw.length) {i j : Instr}
    (h : relativeInstr .fixed name base raw index j = .ok i) : fixInstr f base index i = .ok j := by
  cases j with
  | jump kind operand =>
    simp only [relativeInstr] at h
    split at h
    · rename_i target ht
      cases h
      split at ht
      · rename_i hb
        obtain ⟨hle, hbyte⟩ := byteAt_of_indexAt? ht
        have hlen : raw.length = f.code.size := by
          have := congrArg List.length hl
          simpa only [List.length_map, Array.length_toList] using this
        have hd : (Int32.ofInt ((target : Int) - index)).toInt = (target : Int) - index :=
          Int32.toInt_ofInt_of_le (by omega) (by omega)
        have ht' : target? f.code.size index (Int32.ofInt ((target : Int) - index)) =
            some target := target?_eq_some.mpr ⟨by omega, by omega⟩
        have hlt := operand.toInt_lt
        have hsum : base + byteAt f.code.toList target = operand.toInt.toNat := by
          rw [← byteAt_congr hl, hbyte]
          omega
        simp only [fixInstr, ht', hsum]
        rw [if_pos (by omega)]
        have ho : Int32.ofNat operand.toInt.toNat = operand := by
          rw [← Int32.ofInt_eq_ofNat, Int.toNat_of_nonneg (by omega), Int32.ofInt_toInt]
        rw [ho]
      · cases ht
    · cases h
  | _ =>
    cases h
    rfl

theorem fixCode_of_relativeCode
    (hl : raw.map Instr.encodedLength = f.code.toList.map Instr.encodedLength)
    (hraw : raw.length < 2 ^ 31) {is js : List Instr} (hindex : index + js.length = raw.length)
    (h : relativeCode .fixed name base raw index js = .ok is) : fixCode f base index is = .ok js := by
  induction js generalizing index is with
  | nil =>
    cases h
    rfl
  | cons j js ih =>
    rw [List.length_cons] at hindex
    obtain ⟨i, hi, h1⟩ := Except.bind_eq_ok h
    obtain ⟨rest, hr, h2⟩ := Except.bind_eq_ok h1
    cases h2
    rw [fixCode, fixInstr_of_relativeInstr hl hraw (by omega) hi, ih (by omega) hr]
    rfl

end Fixed

/-- A body that was written is read back exactly if its jumps stay inside. -/
theorem relativeCode_of_body {a : Addressing} {f : FunctionDef} {base : Nat} {bytes : List UInt8}
    (h : Image.body a f base = .ok bytes) :
    ∃ raw : List Instr, bytes = raw.flatMap Image.instr ∧
      ∀ is, relativeCode a f.name base raw 0 raw = .ok is ↔
        is = f.code.toList ∧ JumpsInside f.code.toList := by
  cases a with
  | relative =>
    cases h
    refine ⟨f.code.toList, rfl, fun is => ?_⟩
    rw [relativeCode_relative, jumpsInside_iff]
  | fixed =>
    obtain ⟨raw, hraw, hw⟩ := Except.bind_eq_ok h
    cases hw
    refine ⟨raw, rfl, fun is => ?_⟩
    rw [relativeCode_of_fixCode (encodedLength_of_fixCode hraw) hraw, jumpsInside_iff]
    have hin := insideFrom_of_fixCode hraw
    rw [← Array.length_toList] at hin
    constructor
    · intro he
      cases he
      exact ⟨rfl, hin⟩
    · rintro ⟨rfl, _⟩
      rfl

theorem body_eq (a : Addressing) (start : Nat) (f : FunctionDef) (offset stop : Nat) (c : Cursor) :
    Read.body a start f offset stop c =
      if c.position - start ≠ offset ∨ stop < offset then fail (.codeMisplaced f.id.toNat offset) c
      else match code (start + stop) (stop - (c.position - start)) c with
        | .error d => .error d
        | .ok (raw, d) =>
          if d.position - start ≠ stop then fail (.codeOverrun f.id.toNat) d
          else match relativeCode a f.name offset raw 0 raw with
            | .ok is => .ok ({ f with code := is.toArray }, d)
            | .error p => fail p d := by
  change (if c.position - start ≠ offset ∨ stop < offset then _ else _ : Read FunctionDef) c = _
  split
  · rfl
  · rw [Read.bind_apply]
    cases code (start + stop) (stop - (c.position - start)) c with
    | error d => rfl
    | ok p =>
      change (if p.2.position - start ≠ stop then _ else _ : Read FunctionDef) p.2 = _
      simp only
      split
      · rfl
      · cases relativeCode a f.name offset p.1 0 p.1 <;> rfl

section Body

variable {a : Addressing} {start base : Nat} {f : FunctionDef} {bytes : List UInt8}

theorem body_apply (start : Nat) (h : Image.body a f base = .ok bytes) (rest : List UInt8) :
    (JumpsInside f.code.toList →
      Read.body a start (bare f) base (base + bytes.length) ⟨start + base, bytes ++ rest⟩ =
        .ok (f, ⟨start + base + bytes.length, rest⟩)) ∧
    (¬ JumpsInside f.code.toList → ∃ d,
      Read.body a start (bare f) base (base + bytes.length) ⟨start + base, bytes ++ rest⟩ =
        .error d) := by
  obtain ⟨raw, rfl, hrel⟩ := relativeCode_of_body h
  have hlen := length_flatMap_instr raw
  have hlim : raw.length ≤ base + (raw.flatMap Image.instr).length - base := by
    rw [Nat.add_sub_cancel_left, hlen]
    exact length_le_encodedLength raw
  have hcode := code_reads raw hlim (start + base) rest
  have hbody : Read.body a start (bare f) base (base + (raw.flatMap Image.instr).length)
      ⟨start + base, raw.flatMap Image.instr ++ rest⟩ =
      match relativeCode a f.name base raw 0 raw with
      | .ok is => .ok ({ f with code := is.toArray },
          ⟨start + base + (raw.flatMap Image.instr).length, rest⟩)
      | .error p => fail p ⟨start + base + (raw.flatMap Image.instr).length, rest⟩ := by
    have hsub : start + base - start = base := Nat.add_sub_cancel_left ..
    have hend : start + (base + (raw.flatMap Image.instr).length) =
        start + base + encodedLength raw := by rw [hlen, Nat.add_assoc]
    have hstop : start + base + encodedLength raw - start =
        base + (raw.flatMap Image.instr).length := by rw [hlen]; omega
    rw [body_eq]
    simp only [hsub]
    rw [if_neg (by omega), hend, hcode]
    simp only [hstop, ne_eq, not_true_eq_false, if_false, hlen]
    rfl
  rw [hbody]
  constructor
  · intro hin
    rw [(hrel _).mpr ⟨rfl, hin⟩]
  · intro hout
    cases hr : relativeCode a f.name base raw 0 raw with
    | error p => exact ⟨_, rfl⟩
    | ok is => exact absurd ((hrel is).mp hr).2 hout

end Body

theorem body_eq_ok {a : Addressing} {start offset stop : Nat} {f g : FunctionDef} {c d : Cursor}
    (hf : bare f = f) (hstart : start ≤ c.position)
    (hsmall : c.position + c.rest.length < 2 ^ 31)
    (h : Read.body a start f offset stop c = .ok (g, d)) :
    c.position = start + offset ∧ d.position = start + stop ∧ bare g = f ∧
      JumpsInside g.code.toList ∧ ∃ bytes, Image.body a g offset = .ok bytes ∧ Takes c bytes d := by
  rw [body_eq] at h
  split at h
  · cases h
  · rename_i hplace
    cases hr : code (start + stop) (stop - (c.position - start)) c with
    | error e => simp only [hr] at h; cases h
    | ok p =>
      obtain ⟨raw, e⟩ := p
      simp only [hr] at h
      split at h
      · cases h
      · rename_i hover
        cases hi : relativeCode a f.name offset raw 0 raw with
        | error p => simp only [hi] at h; cases h
        | ok is =>
          simp only [hi] at h
          cases h
          obtain ⟨ht, hstop⟩ := code_eq_ok hr
          have hpos := ht.position
          have hrest := congrArg List.length ht.rest
          rw [length_flatMap_instr] at hpos
          rw [List.length_append, length_flatMap_instr] at hrest
          have hraw := length_le_encodedLength raw
          have hlen := encodedLength_of_relativeCode hi
          have hsize := congrArg List.length hlen
          simp only [List.length_map] at hsize
          refine ⟨by omega, by omega, hf, ?_, ?_⟩
          · rw [jumpsInside_iff]
            cases a with
            | relative =>
              obtain ⟨rfl, hin⟩ := relativeCode_relative.mp hi
              simpa using hin
            | fixed =>
              have hfix := fixCode_of_relativeCode (f := { f with code := is.toArray })
                hlen.symm (by omega) (Nat.zero_add _) hi
              simpa using insideFrom_of_fixCode hfix
          · cases a with
            | relative =>
              obtain ⟨rfl, _⟩ := relativeCode_relative.mp hi
              exact ⟨_, rfl, ht⟩
            | fixed =>
              have hfix := fixCode_of_relativeCode (f := { f with code := is.toArray })
                hlen.symm (by omega) (Nat.zero_add _) hi
              refine ⟨raw.flatMap Image.instr, ?_, ht⟩
              simp only [Image.body, hfix]
              rfl

section Bodies

variable {a : Addressing} {start base : Nat} {fs : List FunctionDef}
  {placed : List (FunctionDef × Nat)} {bytes : List UInt8}

/-- A definition and its place as they stand in the image. -/
def definition (p : FunctionDef × Nat) : FunctionDef × Nat := (bare p.1, p.2)

theorem bodies_cons {f : FunctionDef} (h : Image.bodies a base (f :: fs) = .ok (placed, bytes)) :
    ∃ first placed' rest, Image.body a f base = .ok first ∧
      Image.bodies a (base + first.length) fs = .ok (placed', rest) ∧
      placed = (f, base) :: placed' ∧ bytes = first ++ rest := by
  obtain ⟨_, _, h1⟩ := Except.bind_eq_ok h
  obtain ⟨first, hf, h2⟩ := Except.bind_eq_ok h1
  obtain ⟨⟨placed', rest⟩, hr, h3⟩ := Except.bind_eq_ok h2
  cases h3
  exact ⟨first, placed', rest, hf, hr, rfl, rfl⟩

theorem bodies_stop (h : Image.bodies a base fs = .ok (placed, bytes)) :
    (placed.map definition).head?.elim (base + bytes.length) (·.2) = base := by
  cases fs with
  | nil =>
    cases h
    rfl
  | cons f fs =>
    obtain ⟨first, placed', rest, _, _, rfl, _⟩ := bodies_cons h
    rfl

theorem bodies_apply (start : Nat) (h : Image.bodies a base fs = .ok (placed, bytes)) (rest : List UInt8) :
    ((∀ f ∈ fs, JumpsInside f.code.toList) →
      Read.bodies a start (base + bytes.length) (placed.map definition)
          ⟨start + base, bytes ++ rest⟩ =
        .ok (fs, ⟨start + base + bytes.length, rest⟩)) ∧
    (¬ (∀ f ∈ fs, JumpsInside f.code.toList) → ∃ d,
      Read.bodies a start (base + bytes.length) (placed.map definition)
        ⟨start + base, bytes ++ rest⟩ = .error d) := by
  induction fs generalizing base placed bytes with
  | nil =>
    cases h
    exact ⟨fun _ => rfl, fun hn => absurd nofun hn⟩
  | cons f fs ih =>
    obtain ⟨first, placed', bytes', hf, hr, rfl, rfl⟩ := bodies_cons h
    have hb := body_apply start hf (bytes' ++ rest)
    have ih := ih hr
    have hlen : base + (first ++ bytes').length = base + first.length + bytes'.length := by
      rw [List.length_append, Nat.add_assoc]
    have hstop := bodies_stop hr
    rw [List.map_cons, definition, List.append_assoc, hlen]
    simp only [Read.bodies, hstop, Read.bind_apply]
    constructor
    · intro hin
      rw [hb.1 (hin f List.mem_cons_self)]
      simp only [Nat.add_assoc start]
      rw [ih.1 fun g hg => hin g (List.mem_cons_of_mem _ hg)]
      simp only [Nat.add_assoc, List.length_append]
      rfl
    · intro hout
      by_cases hin : JumpsInside f.code.toList
      · have hrest : ¬ ∀ g ∈ fs, JumpsInside g.code.toList := fun hg =>
          hout (List.forall_mem_cons.mpr ⟨hin, hg⟩)
        obtain ⟨d, hd⟩ := ih.2 hrest
        refine ⟨d, ?_⟩
        rw [hb.1 hin]
        simp only [Nat.add_assoc start]
        rw [hd]
      · obtain ⟨d, hd⟩ := hb.2 hin
        exact ⟨d, by rw [hd]⟩

/-- Bodies that were read are the bodies that the functions are written in. -/
theorem bodies_eq_ok {length : Nat} {defs : List (FunctionDef × Nat)} {c d : Cursor}
    (hbare : ∀ p ∈ defs, bare p.1 = p.1) (hpos : c.position = start + base)
    (hsmall : c.position + c.rest.length < 2 ^ 31)
    (hnil : defs = [] → base = length)
    (h : Read.bodies a start length defs c = .ok (fs, d)) :
    (∀ f ∈ fs, JumpsInside f.code.toList) ∧ d.position = start + length ∧
      ∃ placed bytes, Image.bodies a base fs = .ok (placed, bytes) ∧
        placed.map definition = defs ∧ Takes c bytes d := by
  induction defs generalizing base c fs with
  | nil =>
    obtain ⟨rfl, rfl⟩ := pure_eq_ok h
    refine ⟨nofun, ?_, [], [], rfl, rfl, .refl c⟩
    rw [hpos, hnil rfl]
  | cons p defs ih =>
    obtain ⟨f, offset⟩ := p
    obtain ⟨g, c1, h1, r1⟩ := bind_eq_ok h
    obtain ⟨gs, c2, h2, r2⟩ := bind_eq_ok r1
    obtain ⟨rfl, rfl⟩ := pure_eq_ok r2
    obtain ⟨hf, hdefs⟩ := List.forall_mem_cons.mp hbare
    obtain ⟨hplace, hend, hg, hin, first, hw, ht⟩ := body_eq_ok hf (by omega) hsmall h1
    obtain rfl : offset = base := by omega
    have hrest := congrArg List.length ht.rest
    have hp := ht.position
    rw [List.length_append] at hrest
    obtain ⟨hins, hd, placed, bytes, hws, hpl, hts⟩ :=
      ih hdefs hend (by omega) (fun hd => by rw [hd]; rfl) h2
    refine ⟨List.forall_mem_cons.mpr ⟨hin, hins⟩, hd, (g, offset) :: placed, first ++ bytes, ?_, ?_,
      ht.trans hts⟩
    · have hstop : offset + first.length = defs.head?.elim length (·.2) := by omega
      have hsized : sized offset = .ok (word 4 offset) := if_pos (by
        have := hpos
        simp only [UInt32.size] at *
        omega)
      rw [Image.bodies, hsized, hw]
      change (Image.bodies a (offset + first.length) gs >>= fun x =>
        .ok ((g, offset) :: x.1, first ++ x.2)) = _
      rw [hstop, hws]
      rfl
    · rw [List.map_cons, hpl, definition, hg]

end Bodies

end Read

end TurtleScript.Image
