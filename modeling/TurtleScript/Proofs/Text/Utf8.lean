import TurtleScript.Text.Utf8

/-!
# UTF-8 in both directions

Reading gives back the text that was written, and bytes that can be read are the
bytes that writing the text gives, so no text has a second form. Both are stated one
character at a time with arbitrary bytes after it.
-/
namespace TurtleScript.Text.Utf8

theorem toNat_ofNat_of_lt {n : Nat} (h : n < 256) : (UInt8.ofNat n).toNat = n := by
  simp only [UInt8.toNat_ofNat']
  exact Nat.mod_eq_of_lt h

/-- A code point is below the surrogates or above them. -/
theorem toNat_bounds (c : Char) : c.toNat < 0xd800 ∨ (0xdfff < c.toNat ∧ c.toNat < 0x110000) :=
  c.valid

theorem isTail_ofNat {n : Nat} (h : n < 64) : isTail (UInt8.ofNat (0x80 + n)) = true := by
  have hn := toNat_ofNat_of_lt (show 0x80 + n < 256 by omega)
  simp only [isTail, hn, Bool.and_eq_true, decide_eq_true_eq]
  omega

theorem extend_ofNat {m n : Nat} (h : n < 64) :
    extend m (UInt8.ofNat (0x80 + n)) = m * 64 + n := by
  have hn := toNat_ofNat_of_lt (show 0x80 + n < 256 by omega)
  simp only [extend, hn]
  omega

theorem ofNat_eq_iff {m n : Nat} (hm : m < 256) (hn : n < 256) :
    UInt8.ofNat m = UInt8.ofNat n ↔ m = n := by
  constructor
  · intro h
    have := congrArg UInt8.toNat h
    rwa [toNat_ofNat_of_lt hm, toNat_ofNat_of_lt hn] at this
  · rintro rfl
    rfl

/-- The condition on a second byte, on the numbers the two bytes stand for. -/
theorem isSecond_ofNat {a n : Nat} (ha : a < 256) (h : n < 64)
    (he0 : a = 0xe0 → 0x20 ≤ n) (hed : a = 0xed → n < 0x20)
    (hf0 : a = 0xf0 → 0x10 ≤ n) (hf4 : a = 0xf4 → n < 0x10) :
    isSecond (UInt8.ofNat a) (UInt8.ofNat (0x80 + n)) = true := by
  have hn := toNat_ofNat_of_lt (show 0x80 + n < 256 by omega)
  have h1 : (UInt8.ofNat a = 0xe0) ↔ a = 0xe0 := ofNat_eq_iff ha (by decide)
  have h2 : (UInt8.ofNat a = 0xed) ↔ a = 0xed := ofNat_eq_iff ha (by decide)
  have h3 : (UInt8.ofNat a = 0xf0) ↔ a = 0xf0 := ofNat_eq_iff ha (by decide)
  have h4 : (UInt8.ofNat a = 0xf4) ↔ a = 0xf4 := ofNat_eq_iff ha (by decide)
  simp only [isSecond, isTail_ofNat h, Bool.true_and, hn, h1, h2, h3, h4]
  split
  · simp only [decide_eq_true_eq]; omega
  · split
    · simp only [decide_eq_true_eq]; omega
    · split
      · simp only [decide_eq_true_eq]; omega
      · split
        · simp only [decide_eq_true_eq]; omega
        · rfl

section Equations

variable {a b c d : UInt8} {index : Nat} {rest : List UInt8}

theorem decodeFrom_one (hw : width? a.toNat = some 1) :
    decodeFrom index (a :: rest) = (Char.ofNat a.toNat :: ·) <$> decodeFrom (index + 1) rest := by
  rw [decodeFrom.eq_def]
  simp only [hw]

theorem decodeFrom_two (hw : width? a.toNat = some 2) (hb : isSecond a b = true) :
    decodeFrom index (a :: b :: rest) =
      (Char.ofNat (extend (a.toNat % 32) b) :: ·) <$> decodeFrom (index + 2) rest := by
  rw [decodeFrom.eq_def]
  simp only [hw, hb, if_true]

theorem decodeFrom_three (hw : width? a.toNat = some 3) (hb : isSecond a b = true)
    (hc : isTail c = true) :
    decodeFrom index (a :: b :: c :: rest) =
      (Char.ofNat (extend (extend (a.toNat % 16) b) c) :: ·) <$> decodeFrom (index + 3) rest := by
  rw [decodeFrom.eq_def]
  simp only [hw, hb, hc, if_true]

theorem decodeFrom_four (hw : width? a.toNat = some 4) (hb : isSecond a b = true)
    (hc : isTail c = true) (hd : isTail d = true) :
    decodeFrom index (a :: b :: c :: d :: rest) =
      (Char.ofNat (extend (extend (extend (a.toNat % 8) b) c) d) :: ·) <$>
        decodeFrom (index + 4) rest := by
  rw [decodeFrom.eq_def]
  simp only [hw, hb, hc, hd, if_true]

end Equations

/-- One written character is read back, whatever follows. -/
theorem decodeFrom_encodeChar (c : Char) (index : Nat) (rest : List UInt8) :
    decodeFrom index (encodeChar c ++ rest) =
      (c :: ·) <$> decodeFrom (index + (encodeChar c).length) rest := by
  have hv := toNat_bounds c
  have hback : Char.ofNat c.toNat = c := Char.ofNat_toNat c
  have h0 : c.toNat % 64 < 64 := by omega
  have h1 : c.toNat / 64 % 64 < 64 := by omega
  have h2 : c.toNat / 4096 % 64 < 64 := by omega
  simp only [encodeChar, Nat.div_one]
  by_cases n1 : c.toNat < 0x80
  · have ha := toNat_ofNat_of_lt (show c.toNat < 256 by omega)
    have hw : width? (UInt8.ofNat c.toNat).toNat = some 1 := by
      rw [ha, width?, if_pos n1]
    simp only [n1, if_true, List.cons_append, List.nil_append, List.length_singleton]
    rw [decodeFrom_one hw, ha, hback]
  by_cases n2 : c.toNat < 0x800
  · have ha := toNat_ofNat_of_lt (show 0xc0 + c.toNat / 64 < 256 by omega)
    have hw : width? (UInt8.ofNat (0xc0 + c.toNat / 64)).toNat = some 2 := by
      rw [ha, width?, if_neg (by omega), if_neg (by omega), if_pos (by omega)]
    have hs := isSecond_ofNat (a := 0xc0 + c.toNat / 64) (by omega) h0 (by omega) (by omega)
      (by omega) (by omega)
    have hn : (0xc0 + c.toNat / 64) % 32 * 64 + c.toNat % 64 = c.toNat := by omega
    simp only [n1, n2, if_false, if_true, List.cons_append, List.nil_append, List.length_cons,
      List.length_nil]
    rw [decodeFrom_two hw hs, ha, extend_ofNat h0, hn, hback]
  by_cases n3 : c.toNat < 0x10000
  · have ha := toNat_ofNat_of_lt (show 0xe0 + c.toNat / 4096 < 256 by omega)
    have hw : width? (UInt8.ofNat (0xe0 + c.toNat / 4096)).toNat = some 3 := by
      rw [ha, width?, if_neg (by omega), if_neg (by omega), if_neg (by omega), if_pos (by omega)]
    have hs := isSecond_ofNat (a := 0xe0 + c.toNat / 4096) (by omega) h1 (by omega) (by omega)
      (by omega) (by omega)
    have hn : ((0xe0 + c.toNat / 4096) % 16 * 64 + c.toNat / 64 % 64) * 64 + c.toNat % 64 =
        c.toNat := by omega
    simp only [n1, n2, n3, if_false, if_true, List.cons_append, List.nil_append, List.length_cons,
      List.length_nil]
    rw [decodeFrom_three hw hs (isTail_ofNat h0), ha, extend_ofNat h1, extend_ofNat h0, hn, hback]
  · have ha := toNat_ofNat_of_lt (show 0xf0 + c.toNat / 262144 < 256 by omega)
    have hw : width? (UInt8.ofNat (0xf0 + c.toNat / 262144)).toNat = some 4 := by
      rw [ha, width?, if_neg (by omega), if_neg (by omega), if_neg (by omega), if_neg (by omega),
        if_pos (by omega)]
    have hs := isSecond_ofNat (a := 0xf0 + c.toNat / 262144) (by omega) h2 (by omega) (by omega)
      (by omega) (by omega)
    have hn : (((0xf0 + c.toNat / 262144) % 8 * 64 + c.toNat / 4096 % 64) * 64 +
        c.toNat / 64 % 64) * 64 + c.toNat % 64 = c.toNat := by omega
    simp only [n1, n2, n3, if_false, List.cons_append, List.nil_append, List.length_cons,
      List.length_nil]
    rw [decodeFrom_four hw hs (isTail_ofNat h1) (isTail_ofNat h0), ha, extend_ofNat h2,
      extend_ofNat h1, extend_ofNat h0, hn, hback]

theorem decodeFrom_flatMap (cs : List Char) (index : Nat) :
    decodeFrom index (cs.flatMap encodeChar) = .ok cs := by
  induction cs generalizing index with
  | nil => rfl
  | cons c cs ih =>
    rw [List.flatMap_cons, decodeFrom_encodeChar, ih]
    rfl

/-- Written text is read back. -/
theorem decode_encode (s : String) : decode (encode s) = .ok s := by
  rw [decode, encode, decodeFrom_flatMap]
  exact congrArg Except.ok String.ofList_toList

theorem ofNat_eq {n : Nat} {b : UInt8} (h : n = b.toNat) : UInt8.ofNat n = b := by
  rw [h, UInt8.ofNat_toNat]

theorem toNat_charOfNat {n : Nat} (h : n.isValidChar) : (Char.ofNat n).toNat = n := by
  rw [Char.ofNat, dif_pos h]
  rfl

section Bounds

variable {a b c d : UInt8}

theorem isTail_iff : isTail b = true ↔ 0x80 ≤ b.toNat ∧ b.toNat < 0xc0 := by
  simp [isTail]

/-- What a second byte may be, after a first byte that allows one. -/
theorem isSecond_bounds (h : isSecond a b = true) :
    (0x80 ≤ b.toNat ∧ b.toNat < 0xc0) ∧ (a.toNat = 0xe0 → 0xa0 ≤ b.toNat) ∧
      (a.toNat = 0xed → b.toNat < 0xa0) ∧ (a.toNat = 0xf0 → 0x90 ≤ b.toNat) ∧
      (a.toNat = 0xf4 → b.toNat < 0x90) := by
  simp only [isSecond, Bool.and_eq_true, isTail_iff] at h
  obtain ⟨h1, h2⟩ := h
  have he (n : UInt8) : a.toNat = n.toNat → a = n := UInt8.toNat_inj.mp
  refine ⟨h1, ?_, ?_, ?_, ?_⟩
  · intro ha
    simpa [he 0xe0 ha] using h2
  · intro ha
    simpa [he 0xed ha] using h2
  · intro ha
    simpa [he 0xf0 ha] using h2
  · intro ha
    simpa [he 0xf4 ha] using h2

theorem width?_eq_some {n w : Nat} (h : width? n = some w) :
    (w = 1 ∧ n < 0x80) ∨ (w = 2 ∧ 0xc2 ≤ n ∧ n < 0xe0) ∨ (w = 3 ∧ 0xe0 ≤ n ∧ n < 0xf0) ∨
      (w = 4 ∧ 0xf0 ≤ n ∧ n < 0xf5) := by
  unfold width? at h
  split at h
  · cases h; omega
  · split at h
    · cases h
    · split at h
      · cases h; omega
      · split at h
        · cases h; omega
        · split at h
          · cases h; omega
          · cases h

/-- The bytes that a character was read from are the bytes it is written in. -/
theorem encodeChar_one (ha : width? a.toNat = some 1) :
    encodeChar (Char.ofNat a.toNat) = [a] := by
  have h := width?_eq_some ha
  have hn := toNat_charOfNat (n := a.toNat) (Or.inl (by omega))
  simp only [encodeChar, hn]
  rw [if_pos (by omega), UInt8.ofNat_toNat]

theorem encodeChar_two (ha : width? a.toNat = some 2) (hb : isSecond a b = true) :
    encodeChar (Char.ofNat (extend (a.toNat % 32) b)) = [a, b] := by
  have h1 := width?_eq_some ha
  have h2 := isSecond_bounds hb
  simp only [extend]
  have hn := toNat_charOfNat (n := a.toNat % 32 * 64 + b.toNat % 64)
    (by simp only [Nat.isValidChar]; omega)
  simp only [encodeChar, hn, Nat.div_one]
  rw [if_neg (by omega), if_pos (by omega), ofNat_eq (b := a) (by omega), ofNat_eq (b := b) (by omega)]

theorem encodeChar_three (ha : width? a.toNat = some 3) (hb : isSecond a b = true)
    (hc : isTail c = true) :
    encodeChar (Char.ofNat (extend (extend (a.toNat % 16) b) c)) = [a, b, c] := by
  have h1 := width?_eq_some ha
  have h2 := isSecond_bounds hb
  have h3 := isTail_iff.mp hc
  simp only [extend]
  have hn := toNat_charOfNat (n := (a.toNat % 16 * 64 + b.toNat % 64) * 64 + c.toNat % 64)
    (by simp only [Nat.isValidChar]; omega)
  simp only [encodeChar, hn, Nat.div_one]
  rw [if_neg (by omega), if_neg (by omega), if_pos (by omega), ofNat_eq (b := a) (by omega),
    ofNat_eq (b := b) (by omega), ofNat_eq (b := c) (by omega)]

theorem encodeChar_four (ha : width? a.toNat = some 4) (hb : isSecond a b = true)
    (hc : isTail c = true) (hd : isTail d = true) :
    encodeChar (Char.ofNat (extend (extend (extend (a.toNat % 8) b) c) d)) = [a, b, c, d] := by
  have h1 := width?_eq_some ha
  have h2 := isSecond_bounds hb
  have h3 := isTail_iff.mp hc
  have h4 := isTail_iff.mp hd
  simp only [extend]
  have hn := toNat_charOfNat
    (n := ((a.toNat % 8 * 64 + b.toNat % 64) * 64 + c.toNat % 64) * 64 + d.toNat % 64)
    (by simp only [Nat.isValidChar]; omega)
  simp only [encodeChar, hn, Nat.div_one]
  rw [if_neg (by omega), if_neg (by omega), if_neg (by omega), ofNat_eq (b := a) (by omega),
    ofNat_eq (b := b) (by omega), ofNat_eq (b := c) (by omega), ofNat_eq (b := d) (by omega)]

end Bounds

theorem map_eq_ok {α β ε : Type} {f : α → β} {x : Except ε α} {b : β} (h : f <$> x = .ok b) :
    ∃ a, x = .ok a ∧ f a = b := by
  cases x with
  | error e => cases h
  | ok a => exact ⟨a, rfl, Except.ok.inj h⟩

/-- Bytes that can be read are those the characters are written in. -/
theorem flatMap_of_decodeFrom {index : Nat} {bytes : List UInt8} {cs : List Char}
    (h : decodeFrom index bytes = .ok cs) : cs.flatMap encodeChar = bytes := by
  fun_induction decodeFrom index bytes generalizing cs with
  | case1 =>
    cases h
    rfl
  | case2 => cases h
  | case3 index a rest hw ih =>
    obtain ⟨ds, hd, rfl⟩ := map_eq_ok h
    rw [List.flatMap_cons, encodeChar_one hw, ih hd]
    rfl
  | case5 index a hw b rest hb ih =>
    obtain ⟨ds, hd, rfl⟩ := map_eq_ok h
    rw [List.flatMap_cons, encodeChar_two hw hb, ih hd]
    rfl
  | case9 index a hw b hb c rest hc ih =>
    obtain ⟨ds, hd, rfl⟩ := map_eq_ok h
    rw [List.flatMap_cons, encodeChar_three hw hb hc, ih hd]
    rfl
  | case15 index a w n1 n2 n3 hw b hb c hc d rest hd ih =>
    obtain ⟨rfl, _⟩ | ⟨rfl, _⟩ | ⟨rfl, _⟩ | ⟨rfl, _⟩ := width?_eq_some hw
    · exact (n1 rfl).elim
    · exact (n2 rfl).elim
    · exact (n3 rfl).elim
    obtain ⟨ds, hds, rfl⟩ := map_eq_ok h
    rw [List.flatMap_cons, encodeChar_four hw hb hc hd, ih hds]
    rfl
  | case4 | case6 | case7 | case8 | case10 | case11 | case12 | case13 | case14 | case16
  | case17 | case18 => cases h

/-- Text has one written form. -/
theorem encode_of_decode {bytes : List UInt8} {s : String} (h : decode bytes = .ok s) :
    encode s = bytes := by
  obtain ⟨cs, hc, rfl⟩ := map_eq_ok h
  rw [encode, String.toList_ofList]
  exact flatMap_of_decodeFrom hc

end TurtleScript.Text.Utf8
