import RegisterMachine.Opcode
import RegisterMachine.Word

/-!
# Faults

Everything that can go wrong, as causes: faults of a program's structure found by assembly,
faults that end a running context, and malformed preload text. Conditions the machine absorbs,
such as a bad list index or a division by zero, are not faults.
-/

namespace RegisterMachine

/-- Where a fault was found. Assembly counts instructions in `index`; running code leaves it at
zero. -/
structure Location where
  index : Nat
  pc : Nat
  deriving DecidableEq, Repr

namespace Location

def atPc (pc : Nat) : Location := ⟨0, pc⟩

def text (l : Location) : String :=
  "instr " ++ Text.decimal l.index ++ " @ pc " ++ Text.decimal l.pc

end Location

/-- Which of the two symbol tables an id belongs to. -/
inductive SymbolKind where
  | label
  | function
  deriving DecidableEq, Repr

def SymbolKind.text : SymbolKind → String
  | .label => "label"
  | .function => "function"

/-- Faults in the structure of a symbolic program. -/
inductive AssemblyFault where
  /-- An id is marked twice; `firstPc` is where the first mark leads. -/
  | duplicateSymbol (kind : SymbolKind) (id : UInt32) (firstPc : Nat)
  /-- A branch names an id that is marked nowhere. -/
  | unresolvedSymbol (kind : SymbolKind) (id : UInt32)
  /-- Conditional blocks do not nest. -/
  | unbalancedConditional (detail : String)
  | operandArityMismatch (op : Opcode) (expected found : Nat)
  | symbolOutOfRange (kind : SymbolKind) (id : UInt32) (max : Nat)
  deriving DecidableEq, Repr

inductive RuntimeFault where
  | stackOverflow (maxDepth : Nat)
  | unknownOpcode (word : Word)
  | registerOutOfRange (index : UInt32) (max : Nat)
  /-- The program ends inside an instruction. -/
  | truncatedInstruction (op : Opcode) (width available : Nat)
  | instructionLimitExceeded (limit : Nat)
  deriving DecidableEq, Repr

inductive FaultCategory where
  | assembly
  | runtime
  | preload
  deriving DecidableEq, Repr

def FaultCategory.text : FaultCategory → String
  | .assembly => "assembly"
  | .runtime => "runtime"
  | .preload => "preload"

inductive Fault where
  | assembly (cause : AssemblyFault) (location : Location)
  | runtime (cause : RuntimeFault) (location : Location)
  /-- A line of preload text is malformed; lines count from one. -/
  | preload (line : Nat) (detail : String)
  deriving DecidableEq, Repr

/-! ### Codes and messages -/

namespace AssemblyFault

def code : AssemblyFault → Nat
  | .duplicateSymbol .. => 1001
  | .unresolvedSymbol .. => 1002
  | .unbalancedConditional .. => 1003
  | .operandArityMismatch .. => 1004
  | .symbolOutOfRange .. => 1005

def message : AssemblyFault → String
  | .duplicateSymbol kind id firstPc =>
    "Duplicate " ++ kind.text ++ " " ++ Text.decimal id.toNat ++ " (first defined at pc "
      ++ Text.decimal firstPc ++ ")"
  | .unresolvedSymbol kind id => "Unresolved " ++ kind.text ++ " " ++ Text.decimal id.toNat
  | .unbalancedConditional detail => "Unbalanced conditional: " ++ detail
  | .operandArityMismatch op expected found =>
    op.name ++ " expects " ++ Text.decimal expected ++ " operands, found " ++ Text.decimal found
  | .symbolOutOfRange kind id max =>
    kind.text ++ " id " ++ Text.decimal id.toNat ++ " out of range (max " ++ Text.decimal max
      ++ ")"

end AssemblyFault

namespace RuntimeFault

def code : RuntimeFault → Nat
  | .stackOverflow .. => 2001
  | .unknownOpcode .. => 2002
  | .registerOutOfRange .. => 2003
  | .truncatedInstruction .. => 2004
  | .instructionLimitExceeded .. => 2005

def message : RuntimeFault → String
  | .stackOverflow maxDepth =>
    "Stack overflow: exceeded maximum call depth of " ++ Text.decimal maxDepth
  | .unknownOpcode word => "Unknown opcode 0x" ++ Text.hexadecimal 1 word.toNat
  | .registerOutOfRange index max =>
    "Register index " ++ Text.decimal index.toNat ++ " out of range (max " ++ Text.decimal max
      ++ ")"
  | .truncatedInstruction op width available =>
    "Truncated " ++ op.name ++ ": needs " ++ Text.decimal width ++ " words, "
      ++ Text.decimal available ++ " available"
  | .instructionLimitExceeded limit =>
    "Instruction limit exceeded: " ++ Text.decimal limit ++ " instructions"

end RuntimeFault

namespace Fault

def category : Fault → FaultCategory
  | .assembly .. => .assembly
  | .runtime .. => .runtime
  | .preload .. => .preload

def code : Fault → Nat
  | .assembly cause _ => cause.code
  | .runtime cause _ => cause.code
  | .preload .. => 3001

def endsContext (f : Fault) : Bool := f.category == .runtime

def location? : Fault → Option Location
  | .assembly _ location => some location
  | .runtime _ location => some location
  | .preload .. => none

def message : Fault → String
  | .assembly cause location => "[" ++ location.text ++ "] " ++ cause.message
  | .runtime cause location => "[" ++ location.text ++ "] " ++ cause.message
  | .preload line detail =>
    "[line " ++ Text.decimal line ++ "] Malformed preload entry: " ++ detail

end Fault

end RegisterMachine
