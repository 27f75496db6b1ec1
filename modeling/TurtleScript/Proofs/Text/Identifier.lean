import TurtleScript.Host
import TurtleScript.Text.Identifier

/-!
# Identifiers without case

Names are compared with their ASCII letters folded. Of the tables that say which characters an
identifier may have, the theory uses two things: the case of an ASCII letter does not matter, and
the dollar sign, with which the names of the compiler begin, is no such character.
-/
namespace TurtleScript

/-- A character is either an upper case letter or its own lower case. -/
theorem toLower_cases (c : Char) :
    (65 ≤ c.toNat ∧ c.toNat ≤ 90 ∧ c.toLower.toNat = c.toNat + 32) ∨ c.toLower = c := by
  unfold Char.toLower
  split
  case isTrue h =>
    refine .inl ⟨h.1, h.2, ?_⟩
    have hlow : c.val.toNat ≤ 90 := h.2
    change (c.val.toNat + 32) % 2 ^ 32 = c.val.toNat + 32
    exact Nat.mod_eq_of_lt (by omega)
  case isFalse => exact .inr rfl

theorem toLower_toLower (c : Char) : c.toLower.toLower = c.toLower := by
  rcases toLower_cases c with ⟨hlow, hhigh, hc⟩ | hc
  · rcases toLower_cases c.toLower with ⟨_, hhigh', -⟩ | hc'
    · omega
    · exact hc'
  · rw [hc, hc]

@[simp] theorem foldName_foldName (name : String) : foldName (foldName name) = foldName name := by
  rw [foldName, foldName, String.map_map]
  congr 1
  funext c
  exact toLower_toLower c

theorem foldName_congr {a b : String} (h : a.toList.map Char.toLower = b.toList.map Char.toLower) :
    foldName a = foldName b := by
  apply String.toList_injective
  rw [foldName, foldName, String.toList_map, String.toList_map, h]

theorem foldName_append (a b : String) : foldName (a ++ b) = foldName a ++ foldName b := by
  apply String.toList_injective
  simp [foldName, String.toList_append]

/-- Digits have no case. -/
theorem foldName_toString (n : Nat) : foldName (toString n) = toString n := by
  apply String.toList_injective
  rw [foldName, String.toList_map]
  refine (List.map_congr_left fun c hc => ?_).trans (List.map_id _)
  have hmem : c ∈ Nat.toDigits 10 n := by simpa [toString, Nat.repr] using hc
  have hdigit := Nat.isDigit_of_mem_toDigits (by decide) (by decide) hmem
  rcases toLower_cases c with ⟨hlow, -, -⟩ | hc
  · simp only [Char.isDigit, Bool.and_eq_true, decide_eq_true_eq] at hdigit
    have hnine : c.toNat ≤ 57 := hdigit.2
    omega
  · exact hc

/-- A character that is no letter is the lower case of itself only. -/
theorem toLower_eq_iff {d : Char} (hd : d.toNat < 65 ∨ 90 < d.toNat ∧ d.toNat < 97) (c : Char) :
    c.toLower = d ↔ c = d := by
  rcases toLower_cases c with ⟨hlow, hhigh, hc⟩ | hc
  · constructor
    · intro h
      rw [h] at hc
      omega
    · rintro rfl
      omega
  · rw [hc]

namespace Text

theorem inRanges_here {n low high : Nat} {rest : List (Nat × Nat)} (hlow : low ≤ n)
    (hhigh : n ≤ high) : inRanges n ((low, high) :: rest) = true := by
  rw [inRanges, if_neg (Nat.not_lt.mpr hlow), decide_eq_true hhigh, Bool.true_or]

theorem inRanges_later {n low high : Nat} {rest : List (Nat × Nat)} (hlow : low ≤ n)
    (h : inRanges n rest = true) : inRanges n ((low, high) :: rest) = true := by
  rw [inRanges, if_neg (Nat.not_lt.mpr hlow), h, Bool.or_true]

/-- The ranges begin with the upper and the lower case letters. -/
theorem isIdentifierStart_upper {c : Char} (hlow : 65 ≤ c.toNat) (hhigh : c.toNat ≤ 90) :
    isIdentifierStart c = true := inRanges_here hlow hhigh

theorem isIdentifierStart_lower {c : Char} (hlow : 97 ≤ c.toNat) (hhigh : c.toNat ≤ 122) :
    isIdentifierStart c = true :=
  inRanges_later (by omega) (inRanges_here hlow hhigh)

/-- The case of a letter does not matter at the start of an identifier. -/
theorem isIdentifierStart_toLower (c : Char) :
    isIdentifierStart c.toLower = isIdentifierStart c := by
  rcases toLower_cases c with ⟨hlow, hhigh, hc⟩ | hc
  · rw [isIdentifierStart_upper hlow hhigh]
    exact isIdentifierStart_lower (by omega) (by omega)
  · rw [hc]

/-- Nor does it matter further on. -/
theorem isIdentifierContinue_toLower (c : Char) :
    isIdentifierContinue c.toLower = isIdentifierContinue c := by
  rcases toLower_cases c with ⟨hlow, hhigh, -⟩ | hc
  · rw [isIdentifierContinue, isIdentifierContinue, isIdentifierStart_toLower,
      isIdentifierStart_upper hlow hhigh, Bool.true_or, Bool.true_or]
  · rw [hc]

/-- No identifier starts with a dollar sign. -/
theorem isIdentifierStart_dollar : isIdentifierStart '$' = false := rfl

/-- Whether a name may be declared does not depend on its case. -/
theorem isIdentifier_foldName (name : String) :
    isIdentifier (foldName name) = isIdentifier name := by
  rw [isIdentifier, isIdentifier, foldName, String.toList_map]
  cases name.toList with
  | nil => rfl
  | cons first rest =>
    have hunderscore := toLower_eq_iff (d := '_') (.inr (by decide)) first
    simp only [List.map_cons, List.all_map, isIdentifierStart_toLower, hunderscore,
      Function.comp_def, isIdentifierContinue_toLower]

end Text

end TurtleScript
