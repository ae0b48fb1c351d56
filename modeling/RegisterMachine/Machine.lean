import RegisterMachine.Assembly
import RegisterMachine.Config
import RegisterMachine.Pool
import RegisterMachine.Preload.Resolve
import RegisterMachine.Sink

/-!
# The machine

A machine holds the state that contexts share, from one run to the next. A run executes the
main context from address zero; in fan-out mode, once that has halted, one context for each
function follows in ascending order of ids. Those are left to a pool of workers if the
configuration allows it. A fault ends the context that raised it and no other. The entries all of
them emitted are handed out with the report.
-/

namespace RegisterMachine

structure RunReport where
  /-- The main context, then those of functions. -/
  contexts : List ContextReport
  /-- Emitted entries, grouped by output id. -/
  outputs : List Entry
  deriving DecidableEq

namespace RunReport

def context? (r : RunReport) (id : ContextId) : Option ContextReport :=
  r.contexts.find? fun c => c.context == id

def main? (r : RunReport) : Option ContextReport := r.context? .main

def isClean (r : RunReport) : Bool := r.contexts.all fun c => c.status.isHalted

def faults (r : RunReport) : List (ContextId × Fault) :=
  r.contexts.filterMap fun c => c.status.fault?.map fun f => (c.context, f)

def values (r : RunReport) (id : UInt32) : List Payload :=
  (r.outputs.filter fun e => e.id == id).map (·.payload)

def totalInstructions (r : RunReport) : Nat :=
  r.contexts.foldl (fun total c => total + c.instructions) 0

def toText (r : RunReport) : String := String.join (r.outputs.map fun e => e.textLine ++ "\n")

def toJsonLines (r : RunReport) : String := SinkFormat.jsonLines.render r.outputs

end RunReport

/-- The workers that execute the contexts of functions. -/
def Config.workers (config : Config) (pool : Pool) : Pool :=
  if config.runsInParallel then pool else .single

/-- A configured machine and its state. -/
structure Machine where
  config : Config := {}
  shared : Shared := {}

namespace Machine

def preload (m : Machine) (bindings : List PreloadBinding) (source : Preload.Source) :
    Machine × Preload.Summary :=
  let (lists, summary) := Preload.resolve source bindings m.shared.lists
  ({ m with shared := { m.shared with lists := lists } }, summary)

def reset (m : Machine) : Machine := { m with shared := {} }

def register? (m : Machine) (index : Nat) : Option Word := m.shared.registers.get? index

def list? (m : Machine) (id : UInt32) : Option (List Word) := m.shared.lists.snapshot? id

def start (m : Machine) (id : ContextId) (entry : Nat) : Context :=
  .start id entry m.config.seed m.config.limit

/-- The contexts that follow the main one. -/
def followers (m : Machine) (p : Program) (main : ContextReport) : List Context :=
  if m.config.mode = .fanOut ∧ main.status = .halted then
    p.functions.entries.map fun (id, entry) => m.start (.function id) entry
  else []

/-- Executes a program, each context for at most `fuel` steps; `none` if one still goes on. -/
def run (m : Machine) (pool : Pool) (fuel : Nat) (p : Program) : Option (RunReport × Machine) :=
  (Context.run p fuel (m.start .main 0) m.shared).bind fun (main, shared) =>
    ((m.config.workers pool).runAll p fuel (m.followers p main) shared).map fun (rest, shared) =>
      let (outputs, output) := shared.output.drain
      (⟨main :: rest, outputs⟩, { m with shared := { shared with output := output } })

end Machine

/-- Assembles, preloads and runs a program on a fresh machine. Faults of the program come before
faults of the preload text. -/
def runSymbolic (program : List SymbolicInstr) (preloadText : String) (config : Config)
    (pool : Pool) (fuel : Nat) : Except Fault (Option RunReport) :=
  (assemble program).bind fun assembly =>
    (Preload.parse preloadText).map fun source =>
      let (m, _) := Machine.preload { config := config } assembly.preloads source
      (m.run pool fuel assembly.program).map (·.1)

end RegisterMachine
