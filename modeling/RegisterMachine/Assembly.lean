import RegisterMachine.Layout
import RegisterMachine.Program

/-!
# Assembly

The second half of assembly: branches get the addresses of the layout, and each list preload
becomes a binding for the host and no-ops in the program. A program without faults assembles;
otherwise its first fault is reported.
-/

namespace RegisterMachine

/-- A list to be filled from the preload source before a run. -/
structure PreloadBinding where
  list : UInt32
  key : UInt32
  /-- Address of the instruction that asked for it. -/
  pc : Nat
  deriving DecidableEq

/-- An assembled program with the preloads it asks for, in program order. -/
structure Assembly where
  program : Program
  preloads : List PreloadBinding

namespace SymbolicInstr

def reference? (i : SymbolicInstr) : Option (SymbolKind × UInt32) :=
  match i.op with
  | .jump | .jumpIfZero | .jumpIfNotZero => i.operands.getLast?.map fun id => (.label, id.bits)
  | .call => i.operands.getLast?.map fun id => (.function, id.bits)
  | _ => none

def binding? (i : SymbolicInstr) (pc : Nat) : Option PreloadBinding :=
  match i.op, i.operands with
  | .listPreload, [list, key] => some ⟨list.bits, key.bits, pc⟩
  | _, _ => none

end SymbolicInstr

namespace Layout

def target? (l : Layout) (kind : SymbolKind) (id : UInt32) : Option Nat := (l.table kind).find? id

def unresolved? (l : Layout) (x : Placed) : Option Fault :=
  x.instr.reference?.bind fun (kind, id) =>
    match l.target? kind id with
    | some _ => none
    | none => some (.assembly (.unresolvedSymbol kind id) x.location)

/-- Operand words of a placed instruction, with addresses filled in. -/
def resolveOperands (l : Layout) (x : Placed) : List Word :=
  match x.instr.reference? with
  | some (kind, id) =>
    x.instr.operands.dropLast ++ [.ofNat ((l.target? kind id).getD 0)]
  | none =>
    if x.instr.op.hasSkipTarget then
      x.instr.operands ++ [.ofNat ((l.skip? x.location.index).getD x.next)]
    else x.instr.operands

/-- Words of a placed instruction. A preload happens before the run, so it leaves no-ops. -/
def encode (l : Layout) (x : Placed) : List Word :=
  match x.instr.op with
  | .listPreload => List.replicate x.instr.width (.ofNat Opcode.nop.id)
  | op => .ofNat op.id :: l.resolveOperands x

end Layout

/-- All structural faults of a program in the order they are found. Branch targets are looked
up only in a program that is sound otherwise. -/
def check (program : List SymbolicInstr) : List Fault :=
  let placed := place program
  let s := scan placed
  match s.allFaults with
  | [] => placed.filterMap s.layout.unresolved?
  | faults => faults

/-- The words, symbols and preloads of a program without faults. -/
def link (program : List SymbolicInstr) : Assembly :=
  let placed := place program
  let layout := (scan placed).layout
  { program :=
      { words := (placed.flatMap layout.encode).toArray
        labels := layout.labels
        functions := layout.functions }
    preloads := placed.filterMap fun x => x.instr.binding? x.location.pc }

/-- Assembles a program, or reports its first fault. -/
def assemble (program : List SymbolicInstr) : Except Fault Assembly :=
  match check program with
  | [] => .ok (link program)
  | fault :: _ => .error fault

end RegisterMachine
