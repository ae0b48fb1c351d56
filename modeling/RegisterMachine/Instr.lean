import RegisterMachine.Opcode
import RegisterMachine.Word

/-!
# Decoded instructions

An instruction with its operands by name. Decoding takes an opcode and exactly the words that
follow it in encoded form, so an instruction never misses an operand.
-/

namespace RegisterMachine

/-- An instruction and its operand words. Targets are addresses; `skip` is the address a
conditional block continues at. -/
inductive Instr where
  | nop
  | halt
  | label (id : Word)
  | function (id : Word)
  | loadInt (dst value : Word)
  | loadFloat (dst value : Word)
  | clear (dst : Word)
  | random (dst : Word)
  | unary (op : UnaryOp) (dst src : Word)
  | binary (op : BinaryOp) (dst left right : Word)
  | jump (target : Word)
  | jumpIfZero (test target : Word)
  | jumpIfNotZero (test target : Word)
  | call (target : Word)
  | ret
  | ifNonzero (test skip : Word)
  | orElse (skip : Word)
  | endIf
  | listDeclare (list : Word)
  | listPreload (list key : Word)
  | listAppend (list src : Word)
  | listRead (dst list index : Word)
  | listRemove (list index : Word)
  | listEdit (list index src : Word)
  | listLength (dst list : Word)
  | outputInt (out src : Word)
  | outputFloat (out src : Word)
  | outputList (out list : Word)
  deriving DecidableEq

namespace Instr

def opcode : Instr → Opcode
  | .nop => .nop
  | .halt => .halt
  | .label .. => .label
  | .function .. => .function
  | .loadInt .. => .loadInt
  | .loadFloat .. => .loadFloat
  | .clear .. => .clear
  | .random .. => .random
  | .unary op .. => .unary op
  | .binary op .. => .binary op
  | .jump .. => .jump
  | .jumpIfZero .. => .jumpIfZero
  | .jumpIfNotZero .. => .jumpIfNotZero
  | .call .. => .call
  | .ret => .ret
  | .ifNonzero .. => .ifNonzero
  | .orElse .. => .orElse
  | .endIf => .endIf
  | .listDeclare .. => .listDeclare
  | .listPreload .. => .listPreload
  | .listAppend .. => .listAppend
  | .listRead .. => .listRead
  | .listRemove .. => .listRemove
  | .listEdit .. => .listEdit
  | .listLength .. => .listLength
  | .outputInt .. => .outputInt
  | .outputFloat .. => .outputFloat
  | .outputList .. => .outputList

def operands : Instr → List Word
  | .nop | .halt | .ret | .endIf => []
  | .label id => [id]
  | .function id => [id]
  | .loadInt dst value => [dst, value]
  | .loadFloat dst value => [dst, value]
  | .clear dst => [dst]
  | .random dst => [dst]
  | .unary _ dst src => [dst, src]
  | .binary _ dst left right => [dst, left, right]
  | .jump target => [target]
  | .jumpIfZero test target => [test, target]
  | .jumpIfNotZero test target => [test, target]
  | .call target => [target]
  | .ifNonzero test skip => [test, skip]
  | .orElse skip => [skip]
  | .listDeclare list => [list]
  | .listPreload list key => [list, key]
  | .listAppend list src => [list, src]
  | .listRead dst list index => [dst, list, index]
  | .listRemove list index => [list, index]
  | .listEdit list index src => [list, index, src]
  | .listLength dst list => [dst, list]
  | .outputInt out src => [out, src]
  | .outputFloat out src => [out, src]
  | .outputList out list => [out, list]

def width (i : Instr) : Nat := i.opcode.width

def encode (i : Instr) : List Word := .ofNat i.opcode.id :: i.operands

/-- The instruction of an opcode and the words after it; `none` unless their number is right. -/
def decode? : Opcode → List Word → Option Instr
  | .nop, [] => some .nop
  | .halt, [] => some .halt
  | .label, [id] => some (.label id)
  | .function, [id] => some (.function id)
  | .loadInt, [dst, value] => some (.loadInt dst value)
  | .loadFloat, [dst, value] => some (.loadFloat dst value)
  | .clear, [dst] => some (.clear dst)
  | .random, [dst] => some (.random dst)
  | .unary op, [dst, src] => some (.unary op dst src)
  | .binary op, [dst, left, right] => some (.binary op dst left right)
  | .jump, [target] => some (.jump target)
  | .jumpIfZero, [test, target] => some (.jumpIfZero test target)
  | .jumpIfNotZero, [test, target] => some (.jumpIfNotZero test target)
  | .call, [target] => some (.call target)
  | .ret, [] => some .ret
  | .ifNonzero, [test, skip] => some (.ifNonzero test skip)
  | .orElse, [skip] => some (.orElse skip)
  | .endIf, [] => some .endIf
  | .listDeclare, [list] => some (.listDeclare list)
  | .listPreload, [list, key] => some (.listPreload list key)
  | .listAppend, [list, src] => some (.listAppend list src)
  | .listRead, [dst, list, index] => some (.listRead dst list index)
  | .listRemove, [list, index] => some (.listRemove list index)
  | .listEdit, [list, index, src] => some (.listEdit list index src)
  | .listLength, [dst, list] => some (.listLength dst list)
  | .outputInt, [out, src] => some (.outputInt out src)
  | .outputFloat, [out, src] => some (.outputFloat out src)
  | .outputList, [out, list] => some (.outputList out list)
  | _, _ => none

@[simp]
theorem decode?_operands (i : Instr) : decode? i.opcode i.operands = some i := by
  cases i <;> rfl

theorem length_operands (i : Instr) : i.operands.length = i.opcode.payload := by
  cases i <;> rfl

theorem opcode_of_decode? {op : Opcode} {ws : List Word} {i : Instr}
    (h : decode? op ws = some i) : i.opcode = op := by
  unfold decode? at h
  split at h <;> first | (cases h; rfl) | cases h

theorem operands_of_decode? {op : Opcode} {ws : List Word} {i : Instr}
    (h : decode? op ws = some i) : i.operands = ws := by
  unfold decode? at h
  split at h <;> first | (cases h; rfl) | cases h

end Instr

end RegisterMachine
