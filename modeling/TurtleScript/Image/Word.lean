/-!
# Words in bytes

Numbers are written with the low byte first, in a fixed number of bytes.
-/
namespace TurtleScript.Image

/-- The low `width` bytes of `n`. -/
def word : Nat → Nat → List UInt8
  | 0, _ => []
  | width + 1, n => UInt8.ofNat n :: word width (n / 256)

/-- The number that bytes stand for. -/
def ofWord : List UInt8 → Nat
  | [] => 0
  | b :: bs => b.toNat + 256 * ofWord bs

theorem length_word (width n : Nat) : (word width n).length = width := by
  induction width generalizing n with
  | zero => rfl
  | succ width ih => simp [word, ih]

theorem ofWord_word (width n : Nat) : ofWord (word width n) = n % Nat.pow 256 width := by
  induction width generalizing n with
  | zero => exact (Nat.mod_one n).symm
  | succ width ih =>
    have hb : (UInt8.ofNat n).toNat = n % 256 := UInt8.toNat_ofNat'
    have hp : Nat.pow 256 (width + 1) = 256 * Nat.pow 256 width := Nat.mul_comm _ _
    rw [word, ofWord, ih, hb, hp, Nat.mod_mul]

theorem word_ofWord (bs : List UInt8) : word bs.length (ofWord bs) = bs := by
  induction bs with
  | nil => rfl
  | cons b bs ih =>
    have hb := b.toNat_lt
    have hq : (b.toNat + 256 * ofWord bs) / 256 = ofWord bs := by omega
    have hr : UInt8.ofNat (b.toNat + 256 * ofWord bs) = b := by
      apply UInt8.toNat_inj.mp
      simp only [UInt8.toNat_ofNat']
      omega
    simp only [List.length_cons, ofWord, word, hq, hr, ih]

theorem ofWord_lt (bs : List UInt8) : ofWord bs < Nat.pow 256 bs.length := by
  induction bs with
  | nil => exact Nat.one_pos
  | cons b bs ih =>
    have hb := b.toNat_lt
    have hp : Nat.pow 256 (bs.length + 1) = 256 * Nat.pow 256 bs.length := Nat.mul_comm _ _
    simp only [ofWord, List.length_cons, hp]
    omega

end TurtleScript.Image
