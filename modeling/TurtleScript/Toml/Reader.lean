import TurtleScript.Json.Reader
import TurtleScript.Toml.Document

/-!
# Reading configuration documents

Documents are written in TOML 1.0. Arrays and inline tables may nest, and keys may have
parts, fewer than `depthLimit` deep.
-/
namespace TurtleScript.Toml.Reader

def depthLimit : Nat := 80

def isSpace (c : Char) : Bool := c = ' ' || c = '\t'

def skipSpace (cs : List Char) : List Char := cs.dropWhile isSpace

/-- Whether a character may stand in a comment or a string as it is. -/
def isPlain (c : Char) : Bool := c = '\t' || (0x20 ≤ c.toNat && c.toNat ≠ 0x7f)

/-- What follows a comment, if one starts here. -/
def skipComment : List Char → List Char
  | '#' :: rest => rest.dropWhile isPlain
  | cs => cs

/-- What follows the end of the line; the end of the document ends it too. -/
def endLine? (cs : List Char) : Option (List Char) :=
  match skipComment (skipSpace cs) with
  | [] => some []
  | '\n' :: rest | '\r' :: '\n' :: rest => some rest
  | _ => none

/-- Skips blanks, comments and line ends, as inside an array. -/
def skipLines (fuel : Nat) (cs : List Char) : List Char :=
  match fuel with
  | 0 => cs
  | fuel + 1 =>
    match skipComment (skipSpace cs) with
    | '\n' :: rest | '\r' :: '\n' :: rest => skipLines fuel rest
    | rest => rest

def hexValue? (cs : List Char) : Option Nat :=
  cs.foldlM (fun n c => (Json.Reader.hexDigit? c).map (n * 16 + ·)) 0

/-- A character by its number; half a surrogate pair is none. -/
def scalar? (n : Nat) : Option Char := if n.isValidChar then some (Char.ofNat n) else none

def simpleEscape? : Char → Option Char
  | 'b' => some '\x08'
  | 't' => some '\t'
  | 'n' => some '\n'
  | 'f' => some '\x0c'
  | 'r' => some '\r'
  | '"' => some '"'
  | '\\' => some '\\'
  | _ => none

/-- The character an escape stands for, after its backslash. -/
def escape? : List Char → Option (Char × List Char)
  | 'u' :: rest => do
    guard (4 ≤ rest.length)
    return (← scalar? (← hexValue? (rest.take 4)), rest.drop 4)
  | 'U' :: rest => do
    guard (8 ≤ rest.length)
    return (← scalar? (← hexValue? (rest.take 8)), rest.drop 8)
  | c :: rest => do return (← simpleEscape? c, rest)
  | [] => none

/-- The characters up to the closing quote, and what follows it. -/
def basicString? (fuel : Nat) (cs : List Char) : Option (List Char × List Char) :=
  match fuel with
  | 0 => none
  | fuel + 1 =>
    match cs with
    | [] => none
    | '"' :: rest => some ([], rest)
    | '\\' :: rest => do
      let (e, rest) ← escape? rest
      let (text, rest) ← basicString? fuel rest
      return (e :: text, rest)
    | c :: rest => do
      guard (isPlain c)
      let (text, rest) ← basicString? fuel rest
      return (c :: text, rest)

def literalString? : List Char → Option (List Char × List Char)
  | [] => none
  | '\x27' :: rest => some ([], rest)
  | c :: rest => do
    guard (isPlain c)
    let (cs, rest) ← literalString? rest
    return (c :: cs, rest)

/-- What follows an end of line. -/
def newline? : List Char → Option (List Char)
  | '\n' :: rest | '\r' :: '\n' :: rest => some rest
  | _ => none

/-- What follows blanks and ends of lines. -/
def skipBlankLines (fuel : Nat) (cs : List Char) : List Char :=
  match fuel with
  | 0 => cs
  | fuel + 1 =>
    let cs := skipSpace cs
    (newline? cs).elim cs (skipBlankLines fuel)

/-- A text of several lines up to three of its quotes, and what follows. One or two
quotes may stand anywhere, also right before the three. In a text with escapes, a
backslash at the end of a line takes all blanks up to the next character away. -/
def linesString? (quote : Char) (escapes : Bool) (fuel : Nat) (cs : List Char) :
    Option (List Char × List Char) :=
  match fuel with
  | 0 => none
  | fuel + 1 =>
    match cs with
    | [] => none
    | c :: rest =>
      if c = quote then
        let count := (cs.takeWhile (· = quote)).length
        let rest := cs.dropWhile (· = quote)
        if count < 3 then do
          let (text, rest) ← linesString? quote escapes fuel rest
          return (List.replicate count quote ++ text, rest)
        else if count < 6 then some (List.replicate (count - 3) quote, rest)
        else none
      else if escapes && c = '\\' then
        match newline? (skipSpace rest) with
        | some rest => linesString? quote escapes fuel (skipBlankLines rest.length rest)
        | none => do
          let (e, rest) ← escape? rest
          let (text, rest) ← linesString? quote escapes fuel rest
          return (e :: text, rest)
      else
        match newline? cs with
        | some rest => do
          let (text, rest) ← linesString? quote escapes fuel rest
          return ('\n' :: text, rest)
        | none => do
          guard (isPlain c)
          let (text, rest) ← linesString? quote escapes fuel rest
          return (c :: text, rest)

/-- A text of several lines after its three quotes; a line end right after them does not
count. -/
def wholeLines? (quote : Char) (escapes : Bool) (cs : List Char) :
    Option (List Char × List Char) :=
  linesString? quote escapes (cs.length + 1) ((newline? cs).getD cs)

def isBare (c : Char) : Bool := c.isAlphanum || c = '_' || c = '-'

def simpleKey? (cs : List Char) : Option (String × List Char) :=
  match cs with
  | '"' :: rest =>
    (basicString? cs.length rest).map fun (key, rest) => (String.ofList key, rest)
  | '\x27' :: rest => (literalString? rest).map fun (key, rest) => (String.ofList key, rest)
  | cs =>
    match cs.takeWhile isBare with
    | [] => none
    | key => some (String.ofList key, cs.dropWhile isBare)

/-- Keys with points between them; there are fewer than characters. -/
def keyParts? (fuel : Nat) (cs : List Char) : Option (List String × List Char) :=
  match fuel with
  | 0 => none
  | fuel + 1 => do
    let (key, rest) ← simpleKey? (skipSpace cs)
    match skipSpace rest with
    | '.' :: rest =>
      let (path, rest) ← keyParts? fuel rest
      return (key :: path, rest)
    | rest => return ([key], rest)

/-- A key, or several with points between them, and what follows. -/
def keyPath? (cs : List Char) : Option (List String × List Char) := do
  let (path, rest) ← keyParts? (cs.length + 1) cs
  guard (path.length < depthLimit)
  return (path, rest)

/-- Digits with single underscores between them, the underscores taken out. -/
def ungroup? (isDigit : Char → Bool) : List Char → Option (List Char)
  | [] => none
  | [c] => if isDigit c then some [c] else none
  | c :: '_' :: rest => if isDigit c then (c :: ·) <$> ungroup? isDigit rest else none
  | c :: rest => if isDigit c then (c :: ·) <$> ungroup? isDigit rest else none

def digitsIn? (base : Nat) (cs : List Char) : Option Nat := do
  let isDigit (c : Char) : Bool := (Json.Reader.hexDigit? c).any (· < base)
  let digits ← ungroup? isDigit cs
  return digits.foldl (fun n c => n * base + (Json.Reader.hexDigit? c).getD 0) 0

/-- An integer of the signed 64-bit words. -/
def word? (n : Int) : Option Json :=
  if 0 ≤ n then
    if n < 0x8000000000000000 then some (.number (.natural (UInt64.ofNat n.toNat))) else none
  else if -0x8000000000000000 ≤ n then some (.number (.negative (Int64.ofInt n)))
  else none

/-- A sign, and what follows it. -/
def takeSign : List Char → Bool × List Char
  | '-' :: rest => (true, rest)
  | '+' :: rest => (false, rest)
  | rest => (false, rest)

/-- Decimal digits without a needless zero in front. -/
def wholeDigits? (cs : List Char) : Option (List Char) := do
  let digits ← ungroup? Char.isDigit cs
  guard (digits.length = 1 || digits.head? ≠ some '0')
  return digits

def integer? (token : List Char) : Option Json :=
  match token with
  | '0' :: 'x' :: rest => (digitsIn? 16 rest).bind (word? ·)
  | '0' :: 'o' :: rest => (digitsIn? 8 rest).bind (word? ·)
  | '0' :: 'b' :: rest => (digitsIn? 2 rest).bind (word? ·)
  | token => do
    let (negative, rest) := takeSign token
    let n : Int := Json.Reader.digitsValue (← wholeDigits? rest)
    word? (if negative then -n else n)

def isExponentMark (c : Char) : Bool := c = 'e' || c = 'E'

/-- The exponent after its mark; without a mark it is zero. -/
def exponent? : List Char → Option Int
  | [] => some 0
  | _ :: rest => do
    let (negative, rest) := takeSign rest
    let n : Int := Json.Reader.digitsValue (← ungroup? Char.isDigit rest)
    return if negative then -n else n

/-- A float; a positive one beyond the largest double is refused. -/
def float? (token : List Char) : Option Json := do
  let (negative, rest) := takeSign token
  if rest = ['i', 'n', 'f'] then return .number (.double (.infinity negative))
  if rest = ['n', 'a', 'n'] then return .number (.double .nan)
  guard (rest.any fun c => c = '.' || isExponentMark c)
  let mantissa := rest.takeWhile fun c => !isExponentMark c
  let whole ← wholeDigits? (mantissa.takeWhile (· ≠ '.'))
  let fraction ← match mantissa.dropWhile (· ≠ '.') with
    | [] => some []
    | _ :: digits => ungroup? Char.isDigit digits
  let exponent ← exponent? (rest.dropWhile fun c => !isExponentMark c)
  match Double.ofDigits? negative whole fraction exponent with
  | some d => return .number (.double d)
  | none => if negative then some (.number (.double (.infinity true))) else none

/-- A number of exactly `count` digits within bounds. -/
def digits? (count low high : Nat) (cs : List Char) : Option (Nat × List Char) :=
  let digits := cs.take count
  let n := Json.Reader.digitsValue digits
  if digits.length = count && digits.all Char.isDigit && low ≤ n && n ≤ high then
    some (n, cs.drop count)
  else none

def expect? (c : Char) : List Char → Option (List Char)
  | d :: rest => if d = c then some rest else none
  | [] => none

def daysIn (year month : Nat) : Nat :=
  if month = 2 then
    if year % 4 = 0 && (year % 100 ≠ 0 || year % 400 = 0) then 29 else 28
  else if month = 4 || month = 6 || month = 9 || month = 11 then 30
  else 31

/-- What follows a day such as `1979-05-27`. -/
def day? (cs : List Char) : Option (List Char) := do
  let (year, cs) ← digits? 4 0 9999 cs
  let (month, cs) ← digits? 2 1 12 (← expect? '-' cs)
  let (_, cs) ← digits? 2 1 (daysIn year month) (← expect? '-' cs)
  return cs

/-- What follows a time such as `07:32:00.5`. -/
def time? (cs : List Char) : Option (List Char) := do
  let (_, cs) ← digits? 2 0 23 cs
  let (_, cs) ← digits? 2 0 59 (← expect? ':' cs)
  let (_, cs) ← digits? 2 0 60 (← expect? ':' cs)
  match cs with
  | '.' :: c :: rest => return if c.isDigit then rest.dropWhile Char.isDigit else cs
  | cs => return cs

/-- What follows an offset such as `Z` or `-07:00`; it may be missing. -/
def skipOffset (cs : List Char) : List Char :=
  match cs with
  | c :: rest =>
    if c = 'Z' || c = 'z' then rest
    else if c = '+' || c = '-' then
      (do let (_, rest) ← digits? 2 0 23 rest
          let (_, rest) ← digits? 2 0 59 (← expect? ':' rest)
          return rest).getD cs
    else cs
  | [] => []

/-- What follows a day, a time, or both. -/
def date? (cs : List Char) : Option (List Char) :=
  match day? cs with
  | none => time? cs
  | some rest =>
    match rest with
    | c :: more =>
      if c = 'T' || c = 't' || c = ' ' then
        some ((time? more).elim rest skipOffset)
      else some rest
    | [] => some []

/-- A date is no setting; it is kept as a table that holds its text. -/
def dateValue (text : List Char) : Json := .object [("date", .string (String.ofList text))]

/-- A value without quotes or brackets. -/
def scalarValue? (token : List Char) : Option Json :=
  if token = ['t', 'r', 'u', 'e'] then some (.bool true)
  else if token = ['f', 'a', 'l', 's', 'e'] then some (.bool false)
  else (integer? token).or (float? token)

def isTokenChar (c : Char) : Bool := isBare c || c = '+' || c = '.'

def textValue : List Char × List Char → Json × List Char
  | (text, rest) => (.string (String.ofList text), rest)

mutual

/-- Reads one value inside of `depth` brackets. Each call gives up one unit of `fuel`, of
which twice the length of the text is enough. -/
def value? (fuel depth : Nat) (cs : List Char) : Option (Json × List Char) :=
  match fuel with
  | 0 => none
  | fuel + 1 =>
    match cs with
    | '"' :: '"' :: '"' :: rest => (wholeLines? '"' true rest).map textValue
    | '"' :: rest => (basicString? cs.length rest).map textValue
    | '\x27' :: '\x27' :: '\x27' :: rest => (wholeLines? '\x27' false rest).map textValue
    | '\x27' :: rest => (literalString? rest).map textValue
    | '[' :: rest => do
      guard (depth + 1 < depthLimit)
      let (items, rest) ← items? fuel (depth + 1) rest
      return (.array items, rest)
    | '\x7b' :: rest => do
      guard (depth + 1 < depthLimit)
      match skipSpace rest with
      | '\x7d' :: rest => return (.object [], rest)
      | rest =>
        let (ms, rest) ← inline? fuel (depth + 1) [] rest
        return (.object (membersToJson ms), rest)
    | cs =>
      match date? cs with
      | some rest => some (dateValue (cs.take (cs.length - rest.length)), rest)
      | none => do
        let value ← scalarValue? (cs.takeWhile isTokenChar)
        return (value, cs.dropWhile isTokenChar)
termination_by structural fuel

/-- The items of an array up to the bracket; a comma may follow the last. -/
def items? (fuel depth : Nat) (cs : List Char) : Option (List Json × List Char) :=
  match fuel with
  | 0 => none
  | fuel + 1 =>
    match skipLines cs.length cs with
    | ']' :: rest => some ([], rest)
    | cs => do
      let (item, rest) ← value? fuel depth cs
      match skipLines rest.length rest with
      | ']' :: rest => return ([item], rest)
      | ',' :: rest =>
        let (items, rest) ← items? fuel depth rest
        return (item :: items, rest)
      | _ => none
termination_by structural fuel

/-- The pairs of an inline table up to the brace, after those in `ms`. -/
def inline? (fuel depth : Nat) (ms : Members) (cs : List Char) : Option (Members × List Char) :=
  match fuel with
  | 0 => none
  | fuel + 1 => do
    let (path, rest) ← keyPath? cs
    let (value, rest) ← value? fuel depth (skipSpace (← expect? '=' rest))
    let ms ← ms.assignHere path value
    match skipSpace rest with
    | '\x7d' :: rest => return (ms, rest)
    | ',' :: rest => inline? fuel depth ms rest
    | _ => none
termination_by structural fuel

end

/-- One statement that is not empty: the document after it, the table that is open
then, and the rest. -/
def statement? (ms : Members) (table : List String) (cs : List Char) :
    Option (Members × List String × List Char) :=
  match cs with
  | '[' :: '[' :: rest => do
    let (path, rest) ← keyPath? rest
    let rest ← expect? ']' (← expect? ']' rest)
    return (← ms.extendTables path, path, rest)
  | '[' :: rest => do
    let (path, rest) ← keyPath? rest
    return (← ms.openTable path, path, ← expect? ']' rest)
  | cs => do
    let (path, rest) ← keyPath? cs
    let (value, rest) ← value? (2 * cs.length) 0 (skipSpace (← expect? '=' rest))
    return (← ms.assign table path value, table, rest)

/-- The statements of a document, one on a line; there are fewer than characters. -/
def statements? (fuel : Nat) (ms : Members) (table : List String) (cs : List Char) :
    Option Members :=
  match fuel with
  | 0 => none
  | fuel + 1 =>
    match skipSpace cs with
    | [] => some ms
    | cs =>
      match endLine? cs with
      | some rest => statements? fuel ms table rest
      | none => do
        let (ms, table, rest) ← statement? ms table cs
        statements? fuel ms table (← endLine? rest)

end TurtleScript.Toml.Reader

/-- The root table of a configuration document, before which a byte order mark may
stand. -/
def TurtleScript.Toml.parse? (text : String) : Option TurtleScript.Json := do
  let cs := match text.toList with
    | '\ufeff' :: cs => cs
    | cs => cs
  let ms ← Reader.statements? (cs.length + 1) [] [] cs
  return .object (membersToJson ms)
