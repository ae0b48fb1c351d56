import RegisterMachine.Context
import RegisterMachine.Proofs.Blocks
import RegisterMachine.Proofs.Placement

/-!
# Executing symbolic programs

A context that executes a symbolic program as it is written: it stands at the index of an
instruction, branches look for the marker or the closing member they lead to, and calls keep
indices. Instructions are executed on a world as they always are, so the two ways of execution
differ in control only.
-/

namespace RegisterMachine

/-- The instruction with a symbol where it will have an address, and without a skip target. -/
def SymbolicInstr.view? (x : SymbolicInstr) : Option Instr :=
  Instr.decode? x.op (if x.op.hasSkipTarget then x.operands ++ [.zero] else x.operands)

/-- The index at which control goes on when the instruction at an index branches. -/
def branchIndex (p : List SymbolicInstr) (index : Nat) : Instr → Nat
  | .jump id | .jumpIfZero _ id | .jumpIfNotZero _ id => p.idxOf (.label id.bits) + 1
  | .call id => p.idxOf (.function id.bits) + 1
  | .ifNonzero _ _ => skipIndex p .ifNonzero index
  | .orElse _ => skipIndex p .orElse index
  | _ => index + 1

/-- One stream of instructions of a symbolic program. -/
structure SymbolicContext where
  id : ContextId
  /-- Index of the next instruction. -/
  index : Nat
  /-- How many of the no-ops of a preload are done. -/
  phase : Nat := 0
  /-- Indices to return to. -/
  stack : CallStack := .empty
  random : RandomStream
  instructions : Nat := 0
  limit : Option Nat := none

namespace SymbolicContext

def start (id : ContextId) (index : Nat) (seed : UInt64) (limit : Option Nat) :
    SymbolicContext where
  id := id
  index := index
  random := .forContext seed id.ordinal
  limit := limit

def exhausted? (w : SymbolicContext) : Option Nat := w.limit.filter (· ≤ w.instructions)

def pc (p : List SymbolicInstr) (w : SymbolicContext) : Nat := address p w.index + w.phase

def rest (w : SymbolicContext) : SymbolicContext :=
  if w.phase + 1 < Opcode.listPreload.width then
    { w with phase := w.phase + 1, instructions := w.instructions + 1 }
  else { w with index := w.index + 1, phase := 0, instructions := w.instructions + 1 }

/-- The context past an instruction, as if control just went on. -/
def pass (w : SymbolicContext) (i : Instr) : SymbolicContext :=
  { w with
    index := w.index + 1
    random := i.advanceStream w.random
    instructions := w.instructions + 1 }

/-- Sends control where an instruction asks, with `branch` the index it branches to and `pc` its
place in encoded form. -/
def transfer (w : SymbolicContext) (branch pc : Nat) : Flow → Signal × SymbolicContext
  | .next => (.proceed, w)
  | .jump _ => (.proceed, { w with index := branch })
  | .call _ =>
    match w.stack.push? w.index with
    | some stack => (.proceed, { w with index := branch, stack := stack })
    | none => (.stop (.faulted w.stack.overflow pc), w)
  | .ret =>
    match w.stack.pop? with
    | some (index, stack) => (.proceed, { w with index := index, stack := stack })
    | none => (.stop .halted, w)
  | .halt => (.stop .halted, w)
  | .badRegister index => (.stop (.faulted (Registers.outOfRange index) pc), w)

/-- Executes the instruction at the context's index. One with a wrong number of operands has no
meaning and ends the context. -/
def step {σ : Type} [World σ] (p : List SymbolicInstr) (w : SymbolicContext) (s : σ) :
    Signal × SymbolicContext × σ :=
  match p[w.index]? with
  | none => (.stop .halted, w, s)
  | some x =>
    match w.exhausted? with
    | some limit => (.stop (.faulted (.instructionLimitExceeded limit) (w.pc p)), w, s)
    | none =>
      if x.op = .listPreload then (.proceed, w.rest, s)
      else match x.view? with
        | none => (.stop .halted, w, s)
        | some i =>
          let (flow, s) := i.execute w.id w.random s
          let (signal, w) := (w.pass i).transfer (branchIndex p w.index i) (w.pc p) flow
          (signal, w, s)

def report (w : SymbolicContext) (status : Status) : ContextReport :=
  ⟨w.id, status, w.instructions⟩

/-- Executes until the context stops, for at most `fuel` steps; `none` if it still goes on. -/
def run {σ : Type} [World σ] (p : List SymbolicInstr) :
    Nat → SymbolicContext → σ → Option (ContextReport × σ)
  | 0, _, _ => none
  | fuel + 1, w, s =>
    match w.step p s with
    | (.proceed, w, s) => run p fuel w s
    | (.stop status, w, s) => some (w.report status, s)

end SymbolicContext

end RegisterMachine
