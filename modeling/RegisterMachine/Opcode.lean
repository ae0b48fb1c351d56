/-!
# Instruction catalog

Every instruction of the machine with its stable number, mnemonic, category and operands. The
operand list says what a program supplies; the two branching members of a conditional block
carry one more word, the target that assembly fills in. Numbers and mnemonics are unambiguous,
so either can be looked up.
-/

namespace RegisterMachine

/-- How a numeric instruction reads its words. -/
inductive NumberKind where
  | int
  | float
  deriving DecidableEq, Repr

/-- The four arithmetic operations both number kinds have. -/
inductive Arithmetic where
  | add | sub | mul | div
  deriving DecidableEq, Repr

/-- The six comparisons both number kinds have. -/
inductive Comparison where
  | eq | neq | lt | gt | lte | gte
  deriving DecidableEq, Repr

/-- Instructions that compute one register from another. -/
inductive UnaryOp where
  | move | round | intToFloat | sqrtFloat | not
  deriving DecidableEq, Repr

/-- Instructions that compute one register from two others. -/
inductive BinaryOp where
  | arithmetic (kind : NumberKind) (op : Arithmetic)
  | modInt
  | and | or | xor
  | comparison (kind : NumberKind) (op : Comparison)
  deriving DecidableEq, Repr

inductive Opcode where
  | nop | halt | label | function
  | loadInt | loadFloat | clear | random
  | unary (op : UnaryOp)
  | binary (op : BinaryOp)
  | jump | jumpIfZero | jumpIfNotZero | call | ret
  | ifNonzero | orElse | endIf
  | listDeclare | listPreload | listAppend | listRead | listRemove | listEdit | listLength
  | outputInt | outputFloat | outputList
  deriving DecidableEq, Repr

inductive Category where
  | dataMovement | arithmetic | logic | comparison | controlFlow | conditional | marker | list
  | output | utility
  deriving DecidableEq, Repr

inductive OperandKind where
  | register | immediate | label | function | list | output | preloadKey
  deriving DecidableEq, Repr

namespace NumberKind

def suffix : NumberKind → String
  | .int => "_INT"
  | .float => "_FLOAT"

end NumberKind

namespace Arithmetic

def index : Arithmetic → Nat
  | .add => 0
  | .sub => 1
  | .mul => 2
  | .div => 3

def stem : Arithmetic → String
  | .add => "ADD"
  | .sub => "SUB"
  | .mul => "MUL"
  | .div => "DIV"

end Arithmetic

namespace Comparison

def index : Comparison → Nat
  | .eq => 0
  | .neq => 1
  | .lt => 2
  | .gt => 3
  | .lte => 4
  | .gte => 5

def stem : Comparison → String
  | .eq => "EQ"
  | .neq => "NEQ"
  | .lt => "LT"
  | .gt => "GT"
  | .lte => "LTE"
  | .gte => "GTE"

end Comparison

namespace UnaryOp

def id : UnaryOp → Nat
  | .move => 12
  | .round => 14
  | .intToFloat => 15
  | .sqrtFloat => 29
  | .not => 33

def name : UnaryOp → String
  | .move => "MOVE"
  | .round => "ROUND"
  | .intToFloat => "INT_TO_FLOAT"
  | .sqrtFloat => "SQRT_FLOAT"
  | .not => "NOT"

def category : UnaryOp → Category
  | .move | .round | .intToFloat => .dataMovement
  | .sqrtFloat => .arithmetic
  | .not => .logic

end UnaryOp

namespace BinaryOp

def id : BinaryOp → Nat
  | .arithmetic .int op => 20 + op.index
  | .modInt => 24
  | .arithmetic .float op => 25 + op.index
  | .and => 30
  | .or => 31
  | .xor => 32
  | .comparison .int op => 40 + op.index
  | .comparison .float op => 46 + op.index

def name : BinaryOp → String
  | .arithmetic kind op => op.stem ++ kind.suffix
  | .modInt => "MOD_INT"
  | .and => "AND"
  | .or => "OR"
  | .xor => "XOR"
  | .comparison kind op => op.stem ++ kind.suffix

def category : BinaryOp → Category
  | .arithmetic _ _ | .modInt => .arithmetic
  | .and | .or | .xor => .logic
  | .comparison _ _ => .comparison

end BinaryOp

/-! ### The catalog -/

namespace Opcode

def id : Opcode → Nat
  | .nop => 0
  | .halt => 1
  | .label => 2
  | .function => 3
  | .loadInt => 10
  | .loadFloat => 11
  | .clear => 13
  | .unary op => op.id
  | .binary op => op.id
  | .jump => 60
  | .jumpIfZero => 61
  | .jumpIfNotZero => 62
  | .call => 63
  | .ret => 64
  | .ifNonzero => 65
  | .orElse => 66
  | .endIf => 67
  | .listDeclare => 70
  | .listPreload => 71
  | .listAppend => 72
  | .listRead => 73
  | .listRemove => 74
  | .listEdit => 75
  | .listLength => 76
  | .outputInt => 80
  | .outputFloat => 81
  | .outputList => 82
  | .random => 90

def name : Opcode → String
  | .nop => "NOP"
  | .halt => "HALT"
  | .label => "LABEL"
  | .function => "FUNCTION"
  | .loadInt => "LOAD_INT"
  | .loadFloat => "LOAD_FLOAT"
  | .clear => "CLEAR"
  | .unary op => op.name
  | .binary op => op.name
  | .jump => "JUMP"
  | .jumpIfZero => "JUMP_IF_ZERO"
  | .jumpIfNotZero => "JUMP_IF_NOT_ZERO"
  | .call => "CALL"
  | .ret => "RETURN"
  | .ifNonzero => "IF"
  | .orElse => "ELSE"
  | .endIf => "ENDIF"
  | .listDeclare => "LIST_DECLARE"
  | .listPreload => "LIST_PRELOAD"
  | .listAppend => "LIST_APPEND"
  | .listRead => "LIST_READ"
  | .listRemove => "LIST_REMOVE"
  | .listEdit => "LIST_EDIT"
  | .listLength => "LIST_LENGTH"
  | .outputInt => "OUTPUT_INT"
  | .outputFloat => "OUTPUT_FLOAT"
  | .outputList => "OUTPUT_LIST"
  | .random => "RANDOM"

def category : Opcode → Category
  | .nop | .random => .utility
  | .label | .function => .marker
  | .loadInt | .loadFloat | .clear => .dataMovement
  | .unary op => op.category
  | .binary op => op.category
  | .halt | .jump | .jumpIfZero | .jumpIfNotZero | .call | .ret => .controlFlow
  | .ifNonzero | .orElse | .endIf => .conditional
  | .listDeclare | .listPreload | .listAppend | .listRead | .listRemove | .listEdit
  | .listLength => .list
  | .outputInt | .outputFloat | .outputList => .output

def operandKinds : Opcode → List OperandKind
  | .nop | .halt | .ret | .orElse | .endIf => []
  | .label => [.label]
  | .function => [.function]
  | .loadInt | .loadFloat => [.register, .immediate]
  | .clear | .random => [.register]
  | .unary _ => [.register, .register]
  | .binary _ => [.register, .register, .register]
  | .jump => [.label]
  | .jumpIfZero | .jumpIfNotZero => [.register, .label]
  | .call => [.function]
  | .ifNonzero => [.register]
  | .listDeclare => [.list]
  | .listPreload => [.list, .preloadKey]
  | .listAppend => [.list, .register]
  | .listRead => [.register, .list, .register]
  | .listRemove => [.list, .register]
  | .listEdit => [.list, .register, .register]
  | .listLength => [.register, .list]
  | .outputInt | .outputFloat => [.output, .register]
  | .outputList => [.output, .list]

def arity (op : Opcode) : Nat := op.operandKinds.length

def hasSkipTarget : Opcode → Bool
  | .ifNonzero | .orElse => true
  | _ => false

def payload (op : Opcode) : Nat := if op.hasSkipTarget then op.arity + 1 else op.arity

def width (op : Opcode) : Nat := op.payload + 1

def isMarker (op : Opcode) : Bool := op.category == .marker

/-- Branches name a marker, which assembly replaces by an address. -/
def isBranch : Opcode → Bool
  | .jump | .jumpIfZero | .jumpIfNotZero | .call => true
  | _ => false

def all : List Opcode :=
  [.nop, .halt, .label, .function, .loadInt, .loadFloat, .unary .move, .clear, .unary .round,
    .unary .intToFloat,
    .binary (.arithmetic .int .add), .binary (.arithmetic .int .sub),
    .binary (.arithmetic .int .mul), .binary (.arithmetic .int .div), .binary .modInt,
    .binary (.arithmetic .float .add), .binary (.arithmetic .float .sub),
    .binary (.arithmetic .float .mul), .binary (.arithmetic .float .div), .unary .sqrtFloat,
    .binary .and, .binary .or, .binary .xor, .unary .not,
    .binary (.comparison .int .eq), .binary (.comparison .int .neq),
    .binary (.comparison .int .lt), .binary (.comparison .int .gt),
    .binary (.comparison .int .lte), .binary (.comparison .int .gte),
    .binary (.comparison .float .eq), .binary (.comparison .float .neq),
    .binary (.comparison .float .lt), .binary (.comparison .float .gt),
    .binary (.comparison .float .lte), .binary (.comparison .float .gte),
    .jump, .jumpIfZero, .jumpIfNotZero, .call, .ret, .ifNonzero, .orElse, .endIf,
    .listDeclare, .listPreload, .listAppend, .listRead, .listRemove, .listEdit, .listLength,
    .outputInt, .outputFloat, .outputList, .random]

instance : Ord Opcode := ⟨fun a b => compare a.id b.id⟩

/-! ### Lookup -/

def ofId? (n : Nat) : Option Opcode := all.find? fun op => op.id == n

def ofMnemonic? (text : String) : Option Opcode := all.find? fun op => op.name == text

/-- The instruction with a mnemonic in any mixture of ASCII case. -/
def ofName? (text : String) : Option Opcode := ofMnemonic? (text.map Char.toUpper)

theorem mem_all (op : Opcode) : op ∈ all := by
  rcases op with _ | _ | _ | _ | _ | _ | _ | _ | u | b | _ <;> try decide
  · cases u <;> decide
  · rcases b with ⟨k, a⟩ | _ | _ | _ | _ | ⟨k, c⟩ <;> try decide
    · cases k <;> cases a <;> decide
    · cases k <;> cases c <;> decide

@[simp]
theorem ofId?_id (op : Opcode) : ofId? op.id = some op := by
  have key : ∀ op ∈ all, ofId? op.id = some op := by decide
  exact key op (mem_all op)

theorem ofId?_eq_some_iff {n : Nat} {op : Opcode} : ofId? n = some op ↔ op.id = n := by
  constructor
  · intro h
    have := List.find?_some h
    simpa using this
  · rintro rfl
    exact ofId?_id op

theorem ofMnemonic?_name (op : Opcode) : ofMnemonic? op.name = some op := by
  have key : ∀ op ∈ all, ofMnemonic? op.name = some op := by decide +kernel
  exact key op (mem_all op)

theorem name_inj {a b : Opcode} (h : a.name = b.name) : a = b := by
  have hback := ofMnemonic?_name a
  rw [h, ofMnemonic?_name b] at hback
  exact (Option.some.inj hback).symm

theorem id_lt (op : Opcode) : op.id < 91 := by
  have key : ∀ op ∈ all, op.id < 91 := by decide
  exact key op (mem_all op)

theorem width_pos (op : Opcode) : 0 < op.width := Nat.succ_pos _

end Opcode

end RegisterMachine
