import TurtleScript.Json.Value
import TurtleScript.Numeral.Scaled

/-!
# Reading JSON

The strict grammar: no comments, no trailing commas, no leading zeros or points,
no raw control characters in texts, nothing but blanks around the one value.
-/
namespace TurtleScript.Json.Reader

def isBlank (c : Char) : Bool := c = ' ' || c = '\n' || c = '\t' || c = '\r'

def skipBlanks (cs : List Char) : List Char := cs.dropWhile isBlank

/-- What one place of a text stands for: a character, or the sixteen-bit unit of
an escape. -/
inductive Piece where
  | char (c : Char)
  | unit (n : Nat)

def hexDigit? (c : Char) : Option Nat :=
  if '0' ≤ c && c ≤ '9' then some (c.toNat - '0'.toNat)
  else if 'a' ≤ c && c ≤ 'f' then some (c.toNat - 'a'.toNat + 10)
  else if 'A' ≤ c && c ≤ 'F' then some (c.toNat - 'A'.toNat + 10)
  else none

def unit? (a b c d : Char) : Option Nat := do
  return (((← hexDigit? a) * 16 + (← hexDigit? b)) * 16 + (← hexDigit? c)) * 16 + (← hexDigit? d)

def simpleEscape? (c : Char) : Option Char :=
  match c with
  | '"' => some '"'
  | '\\' => some '\\'
  | '/' => some '/'
  | 'b' => some '\x08'
  | 'f' => some '\x0c'
  | 'n' => some '\n'
  | 'r' => some '\r'
  | 't' => some '\t'
  | _ => none

/-- The pieces up to the closing quote, and what follows it. -/
def pieces : List Char → Option (List Piece × List Char)
  | [] => none
  | '"' :: rest => some ([], rest)
  | '\\' :: 'u' :: a :: b :: c :: d :: rest => do
    let n ← unit? a b c d
    let (ps, rest) ← pieces rest
    return (.unit n :: ps, rest)
  | '\\' :: c :: rest => do
    let e ← simpleEscape? c
    let (ps, rest) ← pieces rest
    return (.char e :: ps, rest)
  | c :: rest => do
    guard (0x20 ≤ c.toNat && c ≠ '\\')
    let (ps, rest) ← pieces rest
    return (.char c :: ps, rest)

def isHighUnit (n : Nat) : Bool := 0xd800 ≤ n && n < 0xdc00

def isLowUnit (n : Nat) : Bool := 0xdc00 ≤ n && n < 0xe000

/-- Joins the units of surrogate pairs; a lone half stands for nothing. -/
def joinPieces : List Piece → Option (List Char)
  | [] => some []
  | .char c :: ps => (c :: ·) <$> joinPieces ps
  | .unit h :: .unit l :: ps =>
    if isHighUnit h then
      if isLowUnit l then
        (Char.ofNat (0x10000 + (h - 0xd800) * 0x400 + (l - 0xdc00)) :: ·) <$> joinPieces ps
      else none
    else if isLowUnit h then none
    else (Char.ofNat h :: ·) <$> joinPieces (.unit l :: ps)
  | .unit n :: ps =>
    if isHighUnit n || isLowUnit n then none else (Char.ofNat n :: ·) <$> joinPieces ps

/-- A text after its opening quote; the inner `none` is one that cannot be read. -/
def textBody (cs : List Char) : Option (Option String × List Char) := do
  let (ps, rest) ← pieces cs
  return (String.ofList <$> joinPieces ps, rest)

def digitsValue (ds : List Char) : Nat := ds.foldl (fun n c => n * 10 + Numeral.digitValue c) 0

def takeDigits (cs : List Char) : List Char × List Char :=
  (cs.takeWhile Char.isDigit, cs.dropWhile Char.isDigit)

/-- The whole part: a zero alone, or digits that start with another one. -/
def wholePart? (cs : List Char) : Option (List Char × List Char) :=
  match takeDigits cs with
  | ([], _) => none
  | ('0' :: _ :: _, _) => none
  | parts => some parts

/-- The digits after a point, or none if there is no point. -/
def fractionPart? : List Char → Option (List Char × List Char)
  | '.' :: rest =>
    match takeDigits rest with
    | ([], _) => none
    | parts => some parts
  | rest => some ([], rest)

/-- The exponent, if one is written. -/
def exponentPart? : List Char → Option (Option Int × List Char)
  | c :: rest =>
    if c = 'e' || c = 'E' then
      let (sign, rest) : Int × List Char :=
        match rest with
        | '+' :: rest => (1, rest)
        | '-' :: rest => (-1, rest)
        | rest => (1, rest)
      match takeDigits rest with
      | ([], _) => none
      | (ds, rest) => some (some (sign * digitsValue ds), rest)
    else some (none, c :: rest)
  | [] => some (none, [])

/-- An integer in the range of the words; `-0` is none. -/
def integer? (negative : Bool) (n : Nat) : Option Json :=
  if negative then
    if 0 < n && n ≤ 0x8000000000000000 then some (.number (.negative (Int64.ofInt (-n)))) else none
  else if n < UInt64.size then some (.number (.natural (UInt64.ofNat n)))
  else none

def double (negative : Bool) (whole fraction : List Char) (exponent : Int) : Json :=
  ((Double.ofDigits? negative whole fraction exponent).map fun d => .number (.double d)).getD
    .unreadable

/-- A number, the sign taken off. -/
def number? (negative : Bool) (cs : List Char) : Option (Json × List Char) := do
  let (whole, rest) ← wholePart? cs
  let (fraction, rest) ← fractionPart? rest
  let (exponent, rest) ← exponentPart? rest
  match fraction, exponent with
  | [], none =>
    return ((integer? negative (digitsValue whole)).getD (double negative whole [] 0), rest)
  | _, _ => return (double negative whole fraction (exponent.getD 0), rest)

/-- Puts the members of an object together; one key that cannot be read spoils it. -/
def objectOf (members : List (Option String × Json)) : Json :=
  match members.mapM fun (key, value) => key.map (·, value) with
  | some members => .object members
  | none => .unreadable

mutual

/-- Reads one value that starts at the first character. Each call gives up one unit
of `fuel`, of which twice the length of the text is enough. -/
def value? (fuel : Nat) (cs : List Char) : Option (Json × List Char) :=
  match fuel with
  | 0 => none
  | fuel + 1 =>
    match cs with
    | 'n' :: 'u' :: 'l' :: 'l' :: rest => some (.null, rest)
    | 't' :: 'r' :: 'u' :: 'e' :: rest => some (.bool true, rest)
    | 'f' :: 'a' :: 'l' :: 's' :: 'e' :: rest => some (.bool false, rest)
    | '"' :: rest => do
      let (text, rest) ← textBody rest
      return (text.elim .unreadable .string, rest)
    | '-' :: rest => number? true rest
    | '[' :: rest =>
      match skipBlanks rest with
      | ']' :: rest => some (.array [], rest)
      | rest => do
        let (items, rest) ← items? fuel rest
        return (.array items, rest)
    | '\x7b' :: rest =>
      match skipBlanks rest with
      | '\x7d' :: rest => some (.object [], rest)
      | rest => do
        let (members, rest) ← members? fuel rest
        return (objectOf members, rest)
    | rest => number? false rest
termination_by structural fuel

/-- The items of an array from the first character of one up to the bracket. -/
def items? (fuel : Nat) (cs : List Char) : Option (List Json × List Char) :=
  match fuel with
  | 0 => none
  | fuel + 1 => do
    let (item, rest) ← value? fuel cs
    match skipBlanks rest with
    | ']' :: rest => return ([item], rest)
    | ',' :: rest =>
      let (items, rest) ← items? fuel (skipBlanks rest)
      return (item :: items, rest)
    | _ => none
termination_by structural fuel

/-- The members of an object from the first character of a key up to the brace. -/
def members? (fuel : Nat) (cs : List Char) : Option (List (Option String × Json) × List Char) :=
  match fuel, cs with
  | fuel + 1, '"' :: rest => do
    let (key, rest) ← textBody rest
    match skipBlanks rest with
    | ':' :: rest =>
      let (item, rest) ← value? fuel (skipBlanks rest)
      match skipBlanks rest with
      | '\x7d' :: rest => return ([(key, item)], rest)
      | ',' :: rest =>
        let (members, rest) ← members? fuel (skipBlanks rest)
        return ((key, item) :: members, rest)
      | _ => none
    | _ => none
  | _, _ => none
termination_by structural fuel

end

end TurtleScript.Json.Reader

/-- The value of a JSON document. -/
def TurtleScript.Json.parse? (text : String) : Option TurtleScript.Json := do
  let cs := text.toList
  let (value, rest) ← Reader.value? (2 * cs.length + 2) (Reader.skipBlanks cs)
  guard (Reader.skipBlanks rest).isEmpty
  return value
