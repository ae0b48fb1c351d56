import RegisterMachine.Opcode
import RegisterMachine.Word

/-!
# Symbolic programs

A symbolic program is a list of instructions in which branches still name labels and functions
and markers are ordinary instructions. The number of operands is not checked before assembly.
-/

namespace RegisterMachine

/-- An instruction whose branch targets are ids. -/
structure SymbolicInstr where
  op : Opcode
  operands : List Word := []
  deriving DecidableEq

namespace SymbolicInstr

def nop : SymbolicInstr := ⟨.nop, []⟩
def halt : SymbolicInstr := ⟨.halt, []⟩
def label (id : UInt32) : SymbolicInstr := ⟨.label, [⟨id⟩]⟩
def function (id : UInt32) : SymbolicInstr := ⟨.function, [⟨id⟩]⟩
def loadInt (dst : UInt32) (value : Int32) : SymbolicInstr := ⟨.loadInt, [⟨dst⟩, .ofInt32 value]⟩
def loadFloat (dst : UInt32) (value : Word) : SymbolicInstr := ⟨.loadFloat, [⟨dst⟩, value]⟩
def move (dst src : UInt32) : SymbolicInstr := ⟨.unary .move, [⟨dst⟩, ⟨src⟩]⟩
def clear (dst : UInt32) : SymbolicInstr := ⟨.clear, [⟨dst⟩]⟩

def twoRegisters (op : Opcode) (dst src : UInt32) : SymbolicInstr := ⟨op, [⟨dst⟩, ⟨src⟩]⟩

def threeRegisters (op : Opcode) (dst left right : UInt32) : SymbolicInstr :=
  ⟨op, [⟨dst⟩, ⟨left⟩, ⟨right⟩]⟩

def jump (label : UInt32) : SymbolicInstr := ⟨.jump, [⟨label⟩]⟩
def jumpIfZero (reg label : UInt32) : SymbolicInstr := ⟨.jumpIfZero, [⟨reg⟩, ⟨label⟩]⟩
def jumpIfNotZero (reg label : UInt32) : SymbolicInstr := ⟨.jumpIfNotZero, [⟨reg⟩, ⟨label⟩]⟩
def call (function : UInt32) : SymbolicInstr := ⟨.call, [⟨function⟩]⟩
def ret : SymbolicInstr := ⟨.ret, []⟩
def ifNonzero (reg : UInt32) : SymbolicInstr := ⟨.ifNonzero, [⟨reg⟩]⟩
def orElse : SymbolicInstr := ⟨.orElse, []⟩
def endIf : SymbolicInstr := ⟨.endIf, []⟩
def listDeclare (list : UInt32) : SymbolicInstr := ⟨.listDeclare, [⟨list⟩]⟩
def listPreload (list key : UInt32) : SymbolicInstr := ⟨.listPreload, [⟨list⟩, ⟨key⟩]⟩
def listAppend (list src : UInt32) : SymbolicInstr := ⟨.listAppend, [⟨list⟩, ⟨src⟩]⟩
def listRead (dst list index : UInt32) : SymbolicInstr :=
  ⟨.listRead, [⟨dst⟩, ⟨list⟩, ⟨index⟩]⟩
def listRemove (list index : UInt32) : SymbolicInstr := ⟨.listRemove, [⟨list⟩, ⟨index⟩]⟩
def listEdit (list index src : UInt32) : SymbolicInstr :=
  ⟨.listEdit, [⟨list⟩, ⟨index⟩, ⟨src⟩]⟩
def listLength (dst list : UInt32) : SymbolicInstr := ⟨.listLength, [⟨dst⟩, ⟨list⟩]⟩
def outputInt (out src : UInt32) : SymbolicInstr := ⟨.outputInt, [⟨out⟩, ⟨src⟩]⟩
def outputFloat (out src : UInt32) : SymbolicInstr := ⟨.outputFloat, [⟨out⟩, ⟨src⟩]⟩
def outputList (out list : UInt32) : SymbolicInstr := ⟨.outputList, [⟨out⟩, ⟨list⟩]⟩
def random (dst : UInt32) : SymbolicInstr := ⟨.random, [⟨dst⟩]⟩

def width (i : SymbolicInstr) : Nat := i.op.width

def hasArity (i : SymbolicInstr) : Bool := i.operands.length == i.op.arity

end SymbolicInstr

end RegisterMachine
