import TurtleScript.Bytecode.Instr
import TurtleScript.Text.Utf8

/-!
# What can be wrong with a binary module
-/
namespace TurtleScript

/-- What a tag byte stands before. -/
inductive TagRole where
  | constant | typeKind
deriving DecidableEq, Repr

inductive ImageProblem where
  | badMagic
  | endOfInput
  | formatVersion (found : UInt16)
  | flags (found : UInt8)
  | reservedSection (name : String)
  | sectionPointer (name : String) (pointer position : Nat)
  | invalidBoolean (found : UInt8)
  | invalidText (fault : Text.Utf8.Fault)
  | unknownTag (role : TagRole) (found : UInt8)
  | unknownOpcode (found : UInt8)
  | tooFewSlots (function params slots : Nat)
  | noEntryFunction (id : Nat)
  | bootMismatch (expected found : Instr)
  | codeMisplaced (function offset : Nat)
  | codeOverrun (function : Nat)
  | jumpTarget (function : String) (index : Nat) (target : Int)
  | jumpLeaves (function : String) (index : Nat) (delta : Int)
  | trailingBytes (count : Nat)
  | tooLarge (n : Nat)
  | codeTooLong
deriving DecidableEq, Repr

def TagRole.text : TagRole → String
  | .constant => "constant"
  | .typeKind => "type kind"

/-- A byte as `0x` and two hexadecimal digits. -/
def hexByteText (b : UInt8) : String :=
  let digits := Nat.toDigits 16 b.toNat
  "0x" ++ String.ofList (List.replicate (2 - digits.length) '0' ++ digits)

def ImageProblem.message : ImageProblem → String
  | .badMagic => "bad magic"
  | .endOfInput => "unexpected end of input"
  | .formatVersion found => s!"unsupported format version {found.toNat} (expected 1)"
  | .flags found => "unknown flags " ++ hexByteText found
  | .reservedSection name => "reserved " ++ name ++ " section is not empty"
  | .sectionPointer name pointer position =>
    name ++ s!" section pointer is {pointer}, but the section starts at {position}"
  | .invalidBoolean found => s!"invalid boolean {found.toNat}"
  | .invalidText fault => "invalid utf-8: " ++ fault.message
  | .unknownTag role found => "unknown " ++ role.text ++ s!" tag {found.toNat}"
  | .unknownOpcode found => "unknown opcode " ++ hexByteText found
  | .tooFewSlots function params slots =>
    s!"function #{function} declares {params} parameters but only {slots} slots"
  | .noEntryFunction id => s!"entry point #{id} has no function"
  | .bootMismatch expected found =>
    "trampoline mismatch: expected '" ++ expected.text ++ "', found '" ++ found.text ++ "'"
  | .codeMisplaced function offset =>
    s!"code of function #{function} is not where its definition says ({offset})"
  | .codeOverrun function => s!"last instruction of function #{function} runs past its body"
  | .jumpTarget function index target =>
    "jump at " ++ function ++
      s!":{index} targets byte {target}, which is not an instruction of the function"
  | .jumpLeaves function index delta =>
    "jump at " ++ function ++ s!":{index} leaves the function (delta {delta})"
  | .trailingBytes count => s!"{count} trailing bytes"
  | .tooLarge n => s!"{n} does not fit in 32 bits"
  | .codeTooLong => "code section exceeds the jump operand range"

end TurtleScript
