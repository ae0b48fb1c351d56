import RegisterMachine.Fault
import RegisterMachine.Symbolic
import RegisterMachine.Table

/-!
# Layout

The first half of assembly: where each instruction of a symbolic program will stand, which
address each label and function marks, and where each branching member of a conditional block
continues. Conditional blocks are matched with a stack of those still open. All faults found on
the way are kept, in the order of the instructions.
-/

namespace RegisterMachine

abbrev maxFunctionId : Nat := 511

/-- An instruction with its index and address. -/
structure Placed where
  location : Location
  instr : SymbolicInstr
  deriving DecidableEq

def Placed.next (x : Placed) : Nat := x.location.pc + x.instr.width

def placeFrom (start : Location) : List SymbolicInstr → List Placed
  | [] => []
  | i :: rest => ⟨start, i⟩ :: placeFrom ⟨start.index + 1, start.pc + i.width⟩ rest

def place (program : List SymbolicInstr) : List Placed := placeFrom ⟨0, 0⟩ program

/-- A conditional block whose end is still to come. -/
structure OpenBlock where
  /-- Where it starts. -/
  start : Location
  /-- Index of its alternative, once that was seen. -/
  alternative : Option Nat := none
  deriving DecidableEq

/-- Addresses that branches need. -/
structure Layout where
  labels : Table Nat := .empty
  functions : Table Nat := .empty
  /-- Indices of branching members of conditional blocks with the addresses they continue at. -/
  skips : List (Nat × Nat) := []

namespace Layout

def table (l : Layout) : SymbolKind → Table Nat
  | .label => l.labels
  | .function => l.functions

def withSymbol (l : Layout) (kind : SymbolKind) (id : UInt32) (target : Nat) : Layout :=
  match kind with
  | .label => { l with labels := l.labels.insert id target }
  | .function => { l with functions := l.functions.insert id target }

def skip? (l : Layout) (index : Nat) : Option Nat :=
  (l.skips.find? fun (i, _) => i == index).map (·.2)

end Layout

/-- What is known after some of the instructions. -/
structure Scan where
  layout : Layout := {}
  /-- Open blocks, innermost first. -/
  opened : List OpenBlock := []
  faults : Array Fault := #[]

namespace Scan

def fail (s : Scan) (x : Placed) (cause : AssemblyFault) : Scan :=
  { s with faults := s.faults.push (.assembly cause x.location) }

def setSkip (s : Scan) (index target : Nat) : Scan :=
  { s with layout := { s.layout with skips := (index, target) :: s.layout.skips } }

/-- Records a marker; the first one of an id stands. -/
def define (s : Scan) (x : Placed) (kind : SymbolKind) (id : UInt32) : Scan :=
  match (s.layout.table kind).find? id with
  | some first => s.fail x (.duplicateSymbol kind id first)
  | none => { s with layout := s.layout.withSymbol kind id x.next }

/-- An alternative belongs to the innermost open block, which takes one only. When the block's
test fails, execution continues right after it. -/
def visitElse (s : Scan) (x : Placed) : Scan :=
  match s.opened with
  | [] => s.fail x (.unbalancedConditional "ELSE without a matching IF")
  | block :: outer =>
    match block.alternative with
    | some _ => s.fail x (.unbalancedConditional "second ELSE in one IF block")
    | none =>
      let opened := { block with alternative := some x.location.index } :: outer
      { s with opened := opened }.setSkip block.start.index x.next

/-- The end of a block is where its alternative continues, or its test if there is none. -/
def visitEnd (s : Scan) (x : Placed) : Scan :=
  match s.opened with
  | [] => s.fail x (.unbalancedConditional "ENDIF without a matching IF")
  | block :: outer =>
    { s with opened := outer }.setSkip (block.alternative.getD block.start.index) x.next

/-- Takes in one more instruction. One with a wrong number of operands counts for its width
only. -/
def visit (s : Scan) (x : Placed) : Scan :=
  if x.instr.hasArity then
    match x.instr.op, x.instr.operands with
    | .label, [id] => s.define x .label id.bits
    | .function, [id] =>
      if id.toNat ≤ maxFunctionId then s.define x .function id.bits
      else s.fail x (.symbolOutOfRange .function id.bits maxFunctionId)
    | .ifNonzero, _ => { s with opened := ⟨x.location, none⟩ :: s.opened }
    | .orElse, _ => s.visitElse x
    | .endIf, _ => s.visitEnd x
    | _, _ => s
  else
    s.fail x (.operandArityMismatch x.instr.op x.instr.op.arity x.instr.operands.length)

/-- Faults of the instructions, then those of the blocks left open, outermost first. -/
def allFaults (s : Scan) : List Fault :=
  s.faults.toList ++ s.opened.reverse.map fun block =>
    .assembly (.unbalancedConditional "IF block is never closed") block.start

end Scan

def scan (placed : List Placed) : Scan := placed.foldl Scan.visit {}

end RegisterMachine
