import RegisterMachine.Effect

/-!
# Worlds

A context reaches what it shares with others by requests alone: it loads and stores registers,
operates on lists and emits entries. A world is anything that answers requests, such as the shared
state itself or, among contexts that run at the same time, the others together with the memory.
Instructions are executed on any world, one request after another. On the shared state this has
the effect of the instruction.
-/

namespace RegisterMachine

/-- What a context may ask of registers and lists. -/
inductive Request where
  | load (reg : Fin registerCount)
  | store (reg : Fin registerCount) (value : Word)
  | declare (list : UInt32)
  | append (list : UInt32) (value : Word)
  | item (list : UInt32) (index : Int32)
  | remove (list : UInt32) (index : Int32)
  | edit (list : UInt32) (index : Int32) (value : Word)
  | length (list : UInt32)
  | snapshot (list : UInt32)
  deriving DecidableEq

/-- What a request is answered with. Changes are not acknowledged. -/
@[reducible]
def Request.Answer : Request → Type
  | .load _ | .item _ _ => Word
  | .length _ => Option Nat
  | .snapshot _ => Option (List Word)
  | .store _ _ | .declare _ | .append _ _ | .remove _ _ | .edit _ _ _ => Unit

instance (q : Request) : DecidableEq q.Answer :=
  match q with
  | .load _ | .item _ _ => inferInstanceAs (DecidableEq Word)
  | .length _ => inferInstanceAs (DecidableEq (Option Nat))
  | .snapshot _ => inferInstanceAs (DecidableEq (Option (List Word)))
  | .store _ _ | .declare _ | .append _ _ | .remove _ _ | .edit _ _ _ =>
    inferInstanceAs (DecidableEq Unit)

class World (σ : Type) where
  answer : ContextId → (q : Request) → σ → q.Answer × σ
  emit : Entry → σ → σ

namespace World

variable {σ : Type} [World σ]

def asking (s : σ) (who : ContextId) (q : Request) (k : q.Answer → σ → Flow × σ) : Flow × σ :=
  k (answer who q s).1 (answer who q s).2

def loading (s : σ) (who : ContextId) (reg : Word) (k : Word → σ → Flow × σ) : Flow × σ :=
  match Registers.slot? reg.bits with
  | some i => asking s who (.load i) k
  | none => (.badRegister reg.bits, s)

def storing (s : σ) (who : ContextId) (reg value : Word) : Flow × σ :=
  match Registers.slot? reg.bits with
  | some i => asking s who (.store i value) fun _ s => (.next, s)
  | none => (.badRegister reg.bits, s)

def emitting (s : σ) (out : Word) (payload : Payload) (who : ContextId) : Flow × σ :=
  (.next, emit ⟨out.bits, payload, who⟩ s)

end World

/-- Executes an instruction on a world, for a context with a random stream. -/
def Instr.execute {σ : Type} [World σ] (i : Instr) (who : ContextId) (r : RandomStream) (s : σ) :
    Flow × σ :=
  match i with
  | .nop | .label _ | .function _ | .endIf | .listPreload _ _ => (.next, s)
  | .halt => (.halt, s)
  | .loadInt dst value | .loadFloat dst value => World.storing s who dst value
  | .clear dst => World.storing s who dst .zero
  | .random dst => World.storing s who dst r.drawFloat
  | .unary op dst src => World.loading s who src fun a s => World.storing s who dst (op.eval a)
  | .binary op dst left right =>
    World.loading s who left fun a s => World.loading s who right fun b s =>
      World.storing s who dst (op.eval a b)
  | .jump target => (.jump target, s)
  | .jumpIfZero test target =>
    World.loading s who test fun w s => (if w.isZero then .jump target else .next, s)
  | .jumpIfNotZero test target =>
    World.loading s who test fun w s => (if w.isZero then .next else .jump target, s)
  | .call target => (.call target, s)
  | .ret => (.ret, s)
  | .ifNonzero test skip =>
    World.loading s who test fun w s => (if w.isZero then .jump skip else .next, s)
  | .orElse skip => (.jump skip, s)
  | .listDeclare list => World.asking s who (.declare list.bits) fun _ s => (.next, s)
  | .listAppend list src =>
    World.loading s who src fun w s =>
      World.asking s who (.append list.bits w) fun _ s => (.next, s)
  | .listRead dst list index =>
    World.loading s who index fun i s =>
      World.asking s who (.item list.bits i.toInt32) fun w s => World.storing s who dst w
  | .listRemove list index =>
    World.loading s who index fun i s =>
      World.asking s who (.remove list.bits i.toInt32) fun _ s => (.next, s)
  | .listEdit list index src =>
    World.loading s who index fun i s => World.loading s who src fun w s =>
      World.asking s who (.edit list.bits i.toInt32 w) fun _ s => (.next, s)
  | .listLength dst list =>
    World.asking s who (.length list.bits) fun n s =>
      World.storing s who dst (.ofNat (n.getD 0))
  | .outputInt out src =>
    World.loading s who src fun w s => World.emitting s out (.int w.toInt32) who
  | .outputFloat out src => World.loading s who src fun w s => World.emitting s out (.float w) who
  | .outputList out list =>
    World.asking s who (.snapshot list.bits) fun items? s =>
      match items? with
      | some items => World.emitting s out (.list items) who
      | none => (.next, s)

/-! ### The shared state as a world -/

namespace Shared

def answer (q : Request) (s : Shared) : q.Answer × Shared :=
  match q with
  | .load reg => (s.registers.get reg, s)
  | .store reg value => ((), { s with registers := s.registers.set reg value })
  | .declare list => ((), { s with lists := s.lists.declare list })
  | .append list value => ((), { s with lists := (s.lists.append? list value).getD s.lists })
  | .item list index => (s.lists.read list index, s)
  | .remove list index => ((), { s with lists := (s.lists.remove? list index).getD s.lists })
  | .edit list index value =>
    ((), { s with lists := (s.lists.edit? list index value).getD s.lists })
  | .length list => (s.lists.length? list, s)
  | .snapshot list => (s.lists.snapshot? list, s)

instance : World Shared where
  answer _ q s := s.answer q
  emit entry s := { s with output := s.output.append entry }

theorem loading_eq (s : Shared) (who : ContextId) (reg : Word)
    (k : Word → Shared → Flow × Shared) :
    World.loading s who reg k = s.reading reg fun w => k w s := by
  rw [reading_eq_slot]
  rfl

theorem storing_eq (s : Shared) (who : ContextId) (reg value : Word) :
    World.storing s who reg value = s.writing reg value := by
  rw [writing_eq_slot]
  rfl

end Shared

theorem Instr.execute_eq_effect (i : Instr) (who : ContextId) (r : RandomStream) (s : Shared) :
    i.execute who r s = i.effect who r s := by
  cases i with
  | outputList out list =>
    have hanswer : World.answer who (.snapshot list.bits) s =
        (s.lists.snapshot? list.bits, s) := rfl
    simp only [execute, effect, World.asking, hanswer]
    cases s.lists.snapshot? list.bits <;> rfl
  | _ => simp only [execute, effect, Shared.loading_eq, Shared.storing_eq] <;> rfl

end RegisterMachine
