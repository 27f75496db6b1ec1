import TurtleScript.Proofs.Image.Front

/-!
# Reading a module in place

A second reader of binary modules. It keeps the whole input and a position in it and works as a
machine does: it takes slices, looks up places in tables, subtracts unsigned numbers and rewrites
operands in signed words. Each of these operations is checked, and one that cannot be carried out
is a trap and not a problem of the input. So is a loop that does not come to its end.
-/
namespace TurtleScript.Image

/-- An operation that a machine cannot carry out. -/
inductive Trap where
  /-- A difference below zero. -/
  | underflow
  /-- A place or a slice outside of a sequence. -/
  | outOfRange
  /-- A number that does not fit its word. -/
  | overflow
  /-- A loop without an end. -/
  | endless
deriving DecidableEq, Repr

/-- How a step ends: with a value and the position after it, with a problem of the input, or in
a trap. -/
inductive Ending (α : Type) where
  | done (a : α) (position : Nat)
  | problem (d : Diagnostic)
  | trap (t : Trap)
deriving DecidableEq, Repr

/-- A step on the whole input, from a position on. -/
def Scan (α : Type) : Type := List UInt8 → Nat → Ending α

instance : Monad Scan where
  pure a := fun _ position => .done a position
  bind x f := fun bytes position =>
    match x bytes position with
    | .done a position => f a bytes position
    | .problem d => .problem d
    | .trap t => .trap t

namespace Scan

variable {α β : Type}

theorem bind_apply (x : Scan α) (f : α → Scan β) (bytes : List UInt8) (position : Nat) :
    (x >>= f) bytes position = match x bytes position with
      | .done a position => f a bytes position
      | .problem d => .problem d
      | .trap t => .trap t := rfl

def failAt (span : Span) (p : ImageProblem) : Scan α := fun _ _ => .problem ⟨.image p, span⟩

def fail (p : ImageProblem) : Scan α := fun bytes position =>
  failAt ⟨position, position⟩ p bytes position

def trap (t : Trap) : Scan α := fun _ _ => .trap t

def position : Scan Nat := fun _ position => .done position position

def input : Scan (List UInt8) := fun bytes position => .done bytes position

def moveTo (position : Nat) : Scan Unit := fun _ _ => .done () position

def sub (a b : Nat) : Scan Nat := if b ≤ a then pure (a - b) else trap .underflow

def item (as : List α) (k : Nat) : Scan α :=
  match as[k]? with
  | some a => pure a
  | none => trap .outOfRange

def slice (as : List α) (start stop : Nat) : Scan (List α) :=
  if start ≤ stop ∧ stop ≤ as.length then pure ((as.take stop).drop start)
  else trap .outOfRange

/-- A number in a word, from which it has to come back. -/
def int32 (n : Int) : Scan Int32 :=
  if (Int32.ofInt n).toInt = n then pure (Int32.ofInt n) else trap .overflow

/-- A sum in a double word. -/
def add64 (a b : Int) : Scan Int :=
  if (Int64.ofInt (a + b)).toInt = a + b then pure (a + b) else trap .overflow

def sub32 (a b : Int32) : Scan Int32 := int32 (a.toInt - b.toInt)

/-- `n` steps, numbered from `first` on. -/
def forEach (step : Nat → Scan α) (first : Nat) : Nat → Scan (List α)
  | 0 => pure []
  | n + 1 => do
    let a ← step first
    return a :: (← forEach step (first + 1) n)

def many (step : Scan α) (n : Nat) : Scan (List α) := forEach (fun _ => step) 0 n

section Checked

variable {bytes : List UInt8} {position : Nat}

theorem sub_apply {a b : Nat} (h : b ≤ a) : sub a b bytes position = .done (a - b) position := by
  rw [sub, if_pos h]
  rfl

theorem item_apply {as : List α} {k : Nat} {a : α} (h : as[k]? = some a) :
    item as k bytes position = .done a position := by
  rw [item, h]
  rfl

theorem slice_apply {as : List α} {start stop : Nat} (h : start ≤ stop) (hstop : stop ≤ as.length) :
    slice as start stop bytes position = .done ((as.take stop).drop start) position := by
  rw [slice, if_pos ⟨h, hstop⟩]
  rfl

theorem int32_apply {n : Int} (h : (Int32.ofInt n).toInt = n) :
    int32 n bytes position = .done (Int32.ofInt n) position := by
  rw [int32, if_pos h]
  rfl

theorem add64_apply {a b : Int} (h : (Int64.ofInt (a + b)).toInt = a + b) :
    add64 a b bytes position = .done (a + b) position := by
  rw [add64, if_pos h]
  rfl

theorem forEach_item {as : List α} (first n : Nat) (h : first + n ≤ as.length) :
    forEach (item as) first n bytes position = .done ((as.drop first).take n) position := by
  induction n generalizing first with
  | zero => rfl
  | succ n ih =>
    have hfirst : as[first]? = some as[first] := List.getElem?_eq_getElem (by omega)
    have hdrop : as.drop first = as[first] :: as.drop (first + 1) :=
      List.drop_eq_getElem_cons (by omega)
    rw [forEach, bind_apply, item_apply hfirst]
    dsimp only
    rw [bind_apply, ih (first + 1) (by omega), hdrop]
    rfl

end Checked

/-- The next `n` bytes. -/
def take (n : Nat) : Scan (List UInt8) := do
  let bytes ← input
  let here ← position
  if here + n ≤ bytes.length then
    let found ← slice bytes here (here + n)
    moveTo (here + n)
    return found
  else fail .endOfInput

/-- A number, from its bytes by their places. -/
def number (width : Nat) : Scan Nat := do
  let found ← take width
  return ofWord (← forEach (item found) 0 width)

def byte : Scan UInt8 := return UInt8.ofNat (← number 1)

def word16 : Scan UInt16 := return UInt16.ofNat (← number 2)

def word32 : Scan UInt32 := return UInt32.ofNat (← number 4)

def operand : Scan Int32 := return (← word32).toInt32

def flag : Scan Bool := do
  match ← byte with
  | 0 => return false
  | 1 => return true
  | other => fail (.invalidBoolean other)

def text : Scan String := do
  let bytes ← take (← number 4)
  match Text.Utf8.decode bytes with
  | .ok s => return s
  | .error fault => fail (.invalidText fault)

def kind (role : TagRole) : Scan Kind := do
  let tag ← byte
  match Kind.ofTag? tag with
  | some k => return k
  | none => fail (.unknownTag role tag)

def constant : Scan Constant := do
  match ← kind .constant with
  | .boolean => return .boolean (← flag)
  | .double => return .double ⟨UInt64.ofNat (← number 8)⟩
  | .string => return .string (← text)
  | other => fail (.unknownTag .constant other.tag)

def fieldDef : Scan FieldDef := return { typeId := ← word32, name := ← text }

def variableDef : Scan VariableDef := return { typeId := ← word32, name := ← text }

def typeDef : Scan TypeDef := do
  let id ← word32
  let name ← text
  let isPrimitive ← flag
  let kind ← kind .typeKind
  let size ← word32
  let fields ← many fieldDef (← number 4)
  return { id, name, isPrimitive, kind, size, fields }

def functionDef : Scan (FunctionDef × Nat) := do
  let id ← word32
  let name ← text
  let returnType ← word32
  let offset ← number 4
  let paramCount ← word32
  let slots ← many variableDef (← number 4)
  if slots.length < paramCount.toNat then
    fail (.tooFewSlots id.toNat paramCount.toNat slots.length)
  return ({ id, name, returnType, paramCount, slots, code := #[] }, offset)

/-- The operands are read into two words, and as many of these are used as there are. -/
def instr : Scan Instr := do
  let b ← byte
  match Opcode.ofByte? b with
  | none => fail (.unknownOpcode b)
  | some opcode =>
    let found ← many operand (min 2 opcode.arity)
    let operands ← slice (found ++ List.replicate (2 - found.length) 0) 0 opcode.arity
    match Instr.ofParts? opcode operands with
    | some i => return i
    | none => fail (.unknownOpcode b)

/-- The instructions up to byte `stop` of the section that begins at `start`, and the byte at
which each of them starts, counted from `offset`. -/
def code (start offset stop : Nat) : Nat → Scan (List Nat × List Instr)
  | 0 => trap .endless
  | limit + 1 => do
    if (← sub (← position) start) < stop then
      let first ← sub (← sub (← position) start) offset
      let i ← instr
      let (starts, is) ← code start offset stop limit
      return (first :: starts, i :: is)
    else return ([], [])

/-- Where the jump number `index` leads. The numbers in `starts` are all different, so it does
not matter how they are searched. -/
def target (a : Addressing) (name : String) (base : Nat) (starts : List Nat) (length index : Nat)
    (operand : Int32) : Scan Nat :=
  match a with
  | .relative => do
    let target ← add64 index operand.toInt
    if 0 ≤ target ∧ target ≤ length then return target.toNat
    else fail (.jumpLeaves name index operand.toInt)
  | .fixed => do
    if base ≤ operand.toInt then
      match starts.idxOf? (← sub operand.toInt.toNat base) with
      | some target => return target
      | none => fail (.jumpTarget name index operand.toInt)
    else fail (.jumpTarget name index operand.toInt)

def relativeInstr (a : Addressing) (name : String) (base : Nat) (starts : List Nat)
    (code : List Instr) (index : Nat) : Scan Instr := do
  match ← item code index with
  | .jump kind operand =>
    let target ← target a name base starts code.length index operand
    return .jump kind (← sub32 (← int32 target) (← int32 index))
  | i => return i

def body (a : Addressing) (start : Nat) (f : FunctionDef) (offset stop : Nat) :
    Scan FunctionDef := do
  let here ← sub (← position) start
  if here ≠ offset ∨ stop < offset then fail (.codeMisplaced f.id.toNat offset)
  let (starts, raw) ← code start offset stop ((← input).length + 1)
  if (← sub (← position) start) ≠ stop then fail (.codeOverrun f.id.toNat)
  let starts := starts ++ [← sub stop offset]
  let relative ← forEach (relativeInstr a f.name offset starts raw) 0 raw.length
  return { f with code := relative.toArray }

/-- The code of the functions, each with its offset and its end. -/
def bodies (a : Addressing) (start : Nat) : List ((FunctionDef × Nat) × Nat) → Scan (List FunctionDef)
  | [] => pure []
  | ((f, offset), stop) :: rest => do
    let first ← body a start f offset stop
    return first :: (← bodies a start rest)

def boot : List Instr → Scan Unit
  | [] => pure ()
  | expected :: rest => do
    let found ← instr
    if found ≠ expected then fail (.bootMismatch expected found)
    boot rest

def signature : Scan Unit := do
  if (← take magic.length) ≠ magic then failAt ⟨0, magic.length⟩ .badMagic

def addressing : Scan Addressing := do
  match ← byte with
  | 0 => return .relative
  | 1 => return .fixed
  | other => fail (.flags other)

def version : Scan Version :=
  return { major := ← word16, minor := ← word16, build := ← word16, revision := ← word16 }

def sectionNames : List String :=
  ["constants", "types", "type-refs", "functions", "function-refs", "code"]

/-- Section number `k` has to begin here. -/
def sectionStart (pointers : List Nat) (k : Nat) : Scan Unit := do
  let here ← position
  let pointer ← item pointers k
  if here ≠ pointer then fail (.sectionPointer (← item sectionNames k) pointer here)

def reserved (counts : List Nat) (k : Nat) : Scan Unit := do
  if (← item counts k) ≠ 0 then fail (.reservedSection (← item sectionNames k))

def format : Scan Unit := do
  let format ← word16
  if format.toNat ≠ formatVersion then fail (.formatVersion format)

def heading : Scan Heading := do
  signature
  format
  return {
    form := ← addressing
    name := ← text
    vendor := ← text
    version := ← version
    entryPoint := ← word32 }

/-- The sections before the code, by the six counts and the six pointers. -/
def sections (heading : Heading) (counts pointers : List Nat) : Scan Front := do
  reserved counts 2
  reserved counts 4
  sectionStart pointers 0
  let constants ← many constant (← item counts 0)
  sectionStart pointers 1
  let types ← many typeDef (← item counts 1)
  sectionStart pointers 2
  sectionStart pointers 3
  let defs ← many functionDef (← item counts 3)
  sectionStart pointers 4
  sectionStart pointers 5
  return { heading with constants, types, defs, codeLength := ← item counts 5 }

/-- The parts of an image up to its code. -/
def front : Scan Front := do
  let heading ← heading
  let counts ← many (number 4) 6
  let pointers ← many (number 4) 6
  sections heading counts pointers

/-- The code section, and the module that it completes. -/
def back (f : Front) : Scan Module := do
  let placed := sortByKey (·.1.id) f.defs
  if placed.all (·.1.id ≠ f.entryPoint) then fail (.noEntryFunction f.entryPoint.toNat)
  let start ← position
  boot (Module.boot f.entryPoint).toList
  let functions ← bodies f.form start (placed.zip ((placed.drop 1).map (·.2) ++ [f.codeLength]))
  let left := (← input).length - (← position)
  if left ≠ 0 then fail (.trailingBytes left)
  return { f with constants := f.constants.toArray, functions := functions.toArray }

def module : Scan Module := do back (← front)

end Scan

end TurtleScript.Image
