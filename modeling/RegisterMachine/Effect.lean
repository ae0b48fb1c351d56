import RegisterMachine.Instr
import RegisterMachine.Lists
import RegisterMachine.Output
import RegisterMachine.RandomStream
import RegisterMachine.Registers

/-!
# Effects of instructions

What an instruction does to the state all contexts share, and what it asks of control. Neither
depends on where the instruction stands. Sources are read in the order of their slots, before
anything changes; the first register that does not exist ends the instruction without effect.
-/

namespace RegisterMachine

/-- The state all contexts of a run share. -/
structure Shared where
  registers : Registers := .empty
  lists : Lists := .empty
  output : Collector := .empty
  deriving DecidableEq

/-- What an instruction asks of control. -/
inductive Flow where
  /-- Go on with the next instruction. -/
  | next
  | jump (target : Word)
  | call (target : Word)
  | ret
  | halt
  /-- An operand names a register that does not exist. -/
  | badRegister (index : UInt32)
  deriving DecidableEq

namespace Shared

@[inline]
def reading (s : Shared) (reg : Word) (k : Word → Flow × Shared) : Flow × Shared :=
  match s.registers.read reg.bits with
  | .ok w => k w
  | .error _ => (.badRegister reg.bits, s)

def writing (s : Shared) (reg value : Word) : Flow × Shared :=
  match s.registers.write reg.bits value with
  | .ok registers => (.next, { s with registers := registers })
  | .error _ => (.badRegister reg.bits, s)

/-- Replaces the lists and goes on; a refused change leaves them alone. -/
def withLists (s : Shared) (lists : Option Lists) : Flow × Shared :=
  (.next, { s with lists := lists.getD s.lists })

def emitting (s : Shared) (out : Word) (payload : Payload) (who : ContextId) : Flow × Shared :=
  (.next, { s with output := s.output.append ⟨out.bits, payload, who⟩ })

theorem reading_eq_slot (s : Shared) (reg : Word) (k : Word → Flow × Shared) :
    s.reading reg k =
      match Registers.slot? reg.bits with
      | some i => k (s.registers.get i)
      | none => (.badRegister reg.bits, s) := by
  unfold reading Registers.read
  cases Registers.slot? reg.bits <;> rfl

theorem writing_eq_slot (s : Shared) (reg value : Word) :
    s.writing reg value =
      match Registers.slot? reg.bits with
      | some i => (.next, { s with registers := s.registers.set i value })
      | none => (.badRegister reg.bits, s) := by
  unfold writing Registers.write
  cases Registers.slot? reg.bits <;> rfl

end Shared

namespace Instr

/-- The stream after an instruction; only one kind draws from it. -/
def advanceStream (i : Instr) (r : RandomStream) : RandomStream :=
  match i with
  | .random _ => r.advance
  | _ => r

/-- Executes an instruction for a context with a random stream. Preloads take place before a
run, so an instruction that asks for one does nothing. -/
def effect (i : Instr) (who : ContextId) (r : RandomStream) (s : Shared) : Flow × Shared :=
  match i with
  | .nop | .label _ | .function _ | .endIf | .listPreload _ _ => (.next, s)
  | .halt => (.halt, s)
  | .loadInt dst value => s.writing dst value
  | .loadFloat dst value => s.writing dst value
  | .clear dst => s.writing dst .zero
  | .random dst => s.writing dst r.drawFloat
  | .unary op dst src => s.reading src fun a => s.writing dst (op.eval a)
  | .binary op dst left right =>
    s.reading left fun a => s.reading right fun b => s.writing dst (op.eval a b)
  | .jump target => (.jump target, s)
  | .jumpIfZero test target =>
    s.reading test fun w => (if w.isZero then .jump target else .next, s)
  | .jumpIfNotZero test target =>
    s.reading test fun w => (if w.isZero then .next else .jump target, s)
  | .call target => (.call target, s)
  | .ret => (.ret, s)
  | .ifNonzero test skip =>
    s.reading test fun w => (if w.isZero then .jump skip else .next, s)
  | .orElse skip => (.jump skip, s)
  | .listDeclare list => s.withLists (some (s.lists.declare list.bits))
  | .listAppend list src => s.reading src fun w => s.withLists (s.lists.append? list.bits w)
  | .listRead dst list index =>
    s.reading index fun i => s.writing dst (s.lists.read list.bits i.toInt32)
  | .listRemove list index =>
    s.reading index fun i => s.withLists (s.lists.remove? list.bits i.toInt32)
  | .listEdit list index src =>
    s.reading index fun i => s.reading src fun w =>
      s.withLists (s.lists.edit? list.bits i.toInt32 w)
  | .listLength dst list =>
    s.writing dst (.ofNat ((s.lists.length? list.bits).getD 0))
  | .outputInt out src => s.reading src fun w => s.emitting out (.int w.toInt32) who
  | .outputFloat out src => s.reading src fun w => s.emitting out (.float w) who
  | .outputList out list =>
    match s.lists.snapshot? list.bits with
    | some items => s.emitting out (.list items) who
    | none => (.next, s)

end Instr

end RegisterMachine
