import TurtleScript.Numeral.Double

/-!
# Reading decimals

A decimal in a document is read in two roundings. Its leading digits, as many as fit
in 64 bits, are rounded to a double; that double is multiplied or divided by a power
of ten, and the result is rounded again. With at most fifteen digits and a power of at
most 22 nothing is lost before the last rounding; beyond that the last bit need not be
that of the nearest double.
-/
namespace TurtleScript

namespace Numeral

def digitValue (c : Char) : Nat := c.toNat - '0'.toNat

/-- Appends digits to `n` as long as the number fits in 64 bits, and counts the digits
that are left over. -/
def appendDigits (n : Nat) : List Char → Nat × Nat
  | [] => (n, 0)
  | c :: cs =>
    let extended := n * 10 + digitValue c
    if extended < UInt64.size then appendDigits extended cs else (n, cs.length + 1)

end Numeral

namespace Double

/-- The double nearest to `10 ^ n`. -/
def powerOfTen (n : Nat) : Double := ofNat (Nat.pow 10 n)

/-- The largest power of ten below the infinite. -/
def maxPower : Nat := 308

/-- `n * 10 ^ exponent` in two roundings, three for the smallest numbers; `none` if it
is too large for a double. -/
def ofScaled? (negative : Bool) (n : Nat) (exponent : Int) : Option Double :=
  let signed (d : Double) : Double := ofSign negative d.bits.toNat
  let f := ofNat n
  if n = 0 then some (signed zero)
  else if 0 ≤ exponent then
    if exponent ≤ maxPower then
      let product := f.mul (powerOfTen exponent.toNat)
      if product.isInfinite then none else some (signed product)
    else none
  else
    let places := (-exponent).toNat
    if places ≤ maxPower then some (signed (f.div (powerOfTen places)))
    else
      -- the second power is cut off where the quotient has become zero
      some (signed ((f.div (powerOfTen maxPower)).div
        (powerOfTen (min maxPower (places - maxPower)))))

/-- The double of a decimal that is written with these digits before and after the
point and this exponent. -/
def ofDigits? (negative : Bool) (whole fraction : List Char) (exponent : Int) : Option Double :=
  let (n, dropped) := Numeral.appendDigits 0 whole
  let (n, ignored) := Numeral.appendDigits n fraction
  ofScaled? negative n (exponent + dropped - (fraction.length - ignored : Nat))

end Double

end TurtleScript
