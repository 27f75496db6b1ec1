/-!
# UTF-8

Writing is total. Reading refuses the first byte sequence that is no character and
says where it starts and how many of its bytes were accepted before the fault, or
that the bytes end inside a character.
-/
namespace TurtleScript.Text.Utf8

/-- Why bytes are no text. -/
inductive Fault where
  /-- The `length` bytes from `index` start no character. -/
  | invalid (length index : Nat)
  /-- The bytes end inside the character that starts at `index`. -/
  | incomplete (index : Nat)
deriving DecidableEq, Repr

def Fault.message : Fault → String
  | .invalid length index =>
    s!"invalid utf-8 sequence of {length} bytes from index {index}"
  | .incomplete index => s!"incomplete utf-8 byte sequence from index {index}"

/-- The bytes of one character. -/
def encodeChar (c : Char) : List UInt8 :=
  let n := c.toNat
  let tail (weight : Nat) : UInt8 := UInt8.ofNat (0x80 + n / weight % 64)
  if n < 0x80 then [UInt8.ofNat n]
  else if n < 0x800 then [UInt8.ofNat (0xc0 + n / 64), tail 1]
  else if n < 0x10000 then [UInt8.ofNat (0xe0 + n / 4096), tail 64, tail 1]
  else [UInt8.ofNat (0xf0 + n / 262144), tail 4096, tail 64, tail 1]

def encode (s : String) : List UInt8 := s.toList.flatMap encodeChar

/-- The number of bytes of a character that starts with `b`, if one does. -/
def width? (b : Nat) : Option Nat :=
  if b < 0x80 then some 1
  else if b < 0xc2 then none
  else if b < 0xe0 then some 2
  else if b < 0xf0 then some 3
  else if b < 0xf5 then some 4
  else none

def isTail (b : UInt8) : Bool := 0x80 ≤ b.toNat && b.toNat < 0xc0

/-- Whether `b` may come second after `first`: neither an overlong form nor a
surrogate nor beyond the last code point. -/
def isSecond (first b : UInt8) : Bool :=
  isTail b &&
    (if first = 0xe0 then 0xa0 ≤ b.toNat
    else if first = 0xed then b.toNat < 0xa0
    else if first = 0xf0 then 0x90 ≤ b.toNat
    else if first = 0xf4 then b.toNat < 0x90
    else true)

/-- Six more bits of a code point. -/
def extend (n : Nat) (b : UInt8) : Nat := n * 64 + b.toNat % 64

/-- Reads the characters of `bytes`, the first of which has number `index`. -/
def decodeFrom (index : Nat) : List UInt8 → Except Fault (List Char)
  | [] => .ok []
  | a :: rest =>
    match width? a.toNat with
    | none => .error (.invalid 1 index)
    | some 1 => (Char.ofNat a.toNat :: ·) <$> decodeFrom (index + 1) rest
    | some 2 =>
      match rest with
      | [] => .error (.incomplete index)
      | b :: rest =>
        if isSecond a b then
          (Char.ofNat (extend (a.toNat % 32) b) :: ·) <$> decodeFrom (index + 2) rest
        else .error (.invalid 1 index)
    | some 3 =>
      match rest with
      | [] => .error (.incomplete index)
      | b :: rest =>
        if isSecond a b then
          match rest with
          | [] => .error (.incomplete index)
          | c :: rest =>
            if isTail c then
              (Char.ofNat (extend (extend (a.toNat % 16) b) c) :: ·) <$>
                decodeFrom (index + 3) rest
            else .error (.invalid 2 index)
        else .error (.invalid 1 index)
    | some _ =>
      match rest with
      | [] => .error (.incomplete index)
      | b :: rest =>
        if isSecond a b then
          match rest with
          | [] => .error (.incomplete index)
          | c :: rest =>
            if isTail c then
              match rest with
              | [] => .error (.incomplete index)
              | d :: rest =>
                if isTail d then
                  (Char.ofNat (extend (extend (extend (a.toNat % 8) b) c) d) :: ·) <$>
                    decodeFrom (index + 4) rest
                else .error (.invalid 3 index)
            else .error (.invalid 2 index)
        else .error (.invalid 1 index)

def decode (bytes : List UInt8) : Except Fault String :=
  String.ofList <$> decodeFrom 0 bytes

end TurtleScript.Text.Utf8
