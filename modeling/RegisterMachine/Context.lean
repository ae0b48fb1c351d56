import RegisterMachine.CallStack
import RegisterMachine.Program
import RegisterMachine.World

/-!
# Contexts

A context executes one stream of instructions: it owns an address, a call stack, a random
stream and a count of instructions, and works on a world. `Context.step` executes one
instruction; `Context.run` iterates it until the context stops. A context stops when it halts,
when it returns outside all calls, when it runs past the end of the program, or by a fault,
which changes nothing but the context's own count and random stream.
-/

namespace RegisterMachine

/-- One stream of instructions. -/
structure Context where
  id : ContextId
  /-- Address of the next instruction. -/
  pc : Nat
  stack : CallStack := .empty
  random : RandomStream
  /-- Instructions executed so far, markers and no-ops included. -/
  instructions : Nat := 0
  /-- How many instructions the context may execute. -/
  limit : Option Nat := none
  deriving DecidableEq

inductive Status where
  | halted
  /-- By a fault of the instruction at an address. -/
  | faulted (cause : RuntimeFault) (pc : Nat)
  deriving DecidableEq

namespace Status

def isHalted : Status → Bool
  | .halted => true
  | .faulted .. => false

def fault? : Status → Option Fault
  | .halted => none
  | .faulted cause pc => some (.runtime cause (.atPc pc))

end Status

/-- Whether a context goes on after a step. -/
inductive Signal where
  | proceed
  | stop (status : Status)
  deriving DecidableEq

/-- What a context did in all. -/
structure ContextReport where
  context : ContextId
  status : Status
  instructions : Nat
  deriving DecidableEq

namespace Context

/-- A context about to execute from an entry, with the stream of its id. -/
def start (id : ContextId) (entry : Nat) (seed : UInt64) (limit : Option Nat) : Context where
  id := id
  pc := entry
  random := .forContext seed id.ordinal
  limit := limit

/-- The limit, once it is used up. -/
def exhausted? (c : Context) : Option Nat := c.limit.filter (· ≤ c.instructions)

/-- The context past an instruction, as if control just went on. -/
def pass (c : Context) (i : Instr) : Context :=
  { c with
    pc := c.pc + i.width
    random := i.advanceStream c.random
    instructions := c.instructions + 1 }

/-- Sends control where the instruction at `pc` asks; a call returns to the address the context
has already moved to. -/
def transfer (c : Context) (pc : Nat) : Flow → Signal × Context
  | .next => (.proceed, c)
  | .jump target => (.proceed, { c with pc := target.toNat })
  | .call target =>
    match c.stack.push? c.pc with
    | some stack => (.proceed, { c with pc := target.toNat, stack := stack })
    | none => (.stop (.faulted c.stack.overflow pc), c)
  | .ret =>
    match c.stack.pop? with
    | some (returnPc, stack) => (.proceed, { c with pc := returnPc, stack := stack })
    | none => (.stop .halted, c)
  | .halt => (.stop .halted, c)
  | .badRegister index => (.stop (.faulted (Registers.outOfRange index) pc), c)

/-- Executes the instruction at the context's address. -/
def step {σ : Type} [World σ] (p : Program) (c : Context) (s : σ) : Signal × Context × σ :=
  match p.fetch? c.pc with
  | none => (.stop .halted, c, s)
  | some (.unknown word) => (.stop (.faulted (.unknownOpcode word) c.pc), c, s)
  | some (.truncated op available) =>
    (.stop (.faulted (.truncatedInstruction op op.width available) c.pc), c, s)
  | some (.instr i) =>
    match c.exhausted? with
    | some limit => (.stop (.faulted (.instructionLimitExceeded limit) c.pc), c, s)
    | none =>
      let (flow, s) := i.execute c.id c.random s
      let (signal, c) := (c.pass i).transfer c.pc flow
      (signal, c, s)

def report (c : Context) (status : Status) : ContextReport := ⟨c.id, status, c.instructions⟩

/-- Executes until the context stops, for at most `fuel` steps; `none` if it still goes on. -/
def run {σ : Type} [World σ] (p : Program) :
    Nat → Context → σ → Option (ContextReport × σ)
  | 0, _, _ => none
  | fuel + 1, c, s =>
    match c.step p s with
    | (.proceed, c, s) => run p fuel c s
    | (.stop status, c, s) => some (c.report status, s)

/-- Executes contexts one after another on the shared state. -/
def runAll (p : Program) (fuel : Nat) :
    List Context → Shared → Option (List ContextReport × Shared)
  | [], s => some ([], s)
  | c :: rest, s =>
    (run p fuel c s).bind fun (report, s) =>
      (runAll p fuel rest s).map fun (reports, s) => (report :: reports, s)

end Context

end RegisterMachine
