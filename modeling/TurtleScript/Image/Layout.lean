import TurtleScript.Bytecode.Module

/-!
# Layout of a binary module

A head (signature, format version, flags, name, vendor, version, entry function),
the counts of the six sections, the byte at which each starts, then the sections one
after another. Two of the sections are reserved and empty. The code section starts
with the boot code; the functions follow in the order of their numbers.
-/
namespace TurtleScript.Image

/-- The signature, `TRPN`. -/
def magic : List UInt8 := [0x54, 0x52, 0x50, 0x4e]

def formatVersion : Nat := 1

/-- The flag byte; its only bit says that jumps are written as bytes of the code
section. -/
def flag : Addressing → UInt8
  | .relative => 0
  | .fixed => 1

/-- Puts `a` before the first element whose key is not smaller. -/
def insertByKey {α : Type} (key : α → UInt32) (a : α) : List α → List α
  | [] => [a]
  | b :: bs => if key a ≤ key b then a :: b :: bs else b :: insertByKey key a bs

/-- Orders by key; elements with one key keep their order. -/
def sortByKey {α : Type} (key : α → UInt32) (as : List α) : List α :=
  as.foldr (insertByKey key) []

/-- The byte at which instruction number `index` starts. -/
def byteAt (code : List Instr) (index : Nat) : Nat := encodedLength (code.take index)

/-- The instruction that starts at a byte; the end of the code counts as one. -/
def indexAt? : List Instr → Nat → Option Nat
  | _, 0 => some 0
  | [], _ + 1 => none
  | i :: is, n + 1 =>
    if i.encodedLength ≤ n + 1 then (indexAt? is (n + 1 - i.encodedLength)).map (· + 1)
    else none

/-- The index a jump goes to, if it stays in the function. -/
def target? (length index : Nat) (delta : Int32) : Option Nat :=
  let target : Int := index + delta.toInt
  if 0 ≤ target ∧ target ≤ length then some target.toNat else none

end TurtleScript.Image
