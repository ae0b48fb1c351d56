import RegisterMachine.Numeric
import RegisterMachine.Program

/-!
# Listings

A program as text, one line for each thing that stands in it: the address, then the mnemonic
and operands of an instruction, the value of a word that is none, or the mnemonic of an
instruction that is cut off.
-/

namespace RegisterMachine

namespace Instr

/-- Text of an operand, by what its slot names; the slot past the operands of a program is the
skip target. -/
def operandText (op : Opcode) (kind : Option OperandKind) (w : Word) : String :=
  match kind with
  | some .register => "r" ++ Text.decimal w.toNat
  | some .immediate => if op = .loadFloat then w.compactFloatText else w.text
  | some .label | some .function =>
    if op.isBranch then "@" ++ Text.decimal w.toNat else Text.decimal w.toNat
  | some .list => "list" ++ Text.decimal w.toNat
  | some .output => "#" ++ Text.decimal w.toNat
  | some .preloadKey => Text.decimal w.toNat
  | none => "-> " ++ Text.decimal w.toNat

/-- Mnemonic and operands; the operands start in one column. -/
def text (i : Instr) : String :=
  match i.operands with
  | [] => i.opcode.name
  | operands =>
    let kinds := i.opcode.operandKinds
    let parts := operands.zipIdx.map fun (w, slot) =>
      " " ++ operandText i.opcode kinds[slot]? w
    Text.alignLeft 16 i.opcode.name ++ String.join parts

end Instr

def Fetched.text : Fetched → String
  | .unknown word => ".word 0x" ++ Text.hexadecimal 8 word.toNat
  | .truncated op _ => op.name ++ " <truncated>"
  | .instr i => i.text

def listingLine (pc : Nat) (f : Fetched) : String :=
  Text.alignRight 5 (Text.decimal pc) ++ ": " ++ f.text ++ "\n"

def Program.listing (p : Program) : String :=
  String.join ((p.walk 0).map fun (pc, f) => listingLine pc f)

end RegisterMachine
