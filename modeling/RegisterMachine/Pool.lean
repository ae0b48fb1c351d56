import RegisterMachine.Context

/-!
# Contexts at the same time

A pool of workers executes contexts, one of them in turn, several of them at the same time. What a
context does depends on nothing but the answers to its requests. So several contexts are executed
each against the answers it gets, and what they did is put into one log, in the order in which it
took place. The memory then has to confirm the answers. Nothing more is known of a memory than that
it holds what it is given: it may answer late, in any order, or in the midst of other requests.
-/

namespace RegisterMachine

/-- What a context does for others to see. -/
inductive Event where
  | exchange (q : Request) (answer : q.Answer)
  | emission (entry : Entry)

def Event.emitted? : Event → Option Entry
  | .exchange _ _ => none
  | .emission entry => some entry

/-- The answer to each request, by the number of events before it. -/
abbrev Replies := Nat → (q : Request) → q.Answer

/-- The world as a context sees it that is not alone: what it will be answered, and its own part in
what has happened. -/
structure Conversation where
  replies : Replies
  events : List Event := []

instance : World Conversation where
  answer _ q s :=
    let reply := s.replies s.events.length q
    (reply, { s with events := s.events ++ [.exchange q reply] })
  emit entry s := { s with events := s.events ++ [.emission entry] }

/-- What happened, in order, and by whom. -/
abbrev Log := List (ContextId × Event)

def Log.entries (log : Log) : List Entry := log.filterMap fun (_, event) => event.emitted?

/-- What has registers and lists while several contexts use them. -/
structure Memory where
  State : Type
  enter : Registers → Lists → State
  answer : ContextId → (q : Request) → State → q.Answer × State
  leave : State → Registers × Lists
  leave_enter : ∀ registers lists, leave (enter registers lists) = (registers, lists)

namespace Memory

/-- The state after a log, each request answered on the state the ones before it left; `none` if an
answer is not the memory's. -/
def replay (memory : Memory) : memory.State → Log → Option memory.State
  | s, [] => some s
  | s, (who, .exchange q reply) :: log =>
    if (memory.answer who q s).1 = reply then memory.replay (memory.answer who q s).2 log else none
  | s, (_, .emission _) :: log => memory.replay s log

/-- The shared state after a log. -/
def settle (memory : Memory) (s : Shared) (log : Log) : Option Shared :=
  (memory.replay (memory.enter s.registers s.lists) log).map fun left =>
    { registers := (memory.leave left).1
      lists := (memory.leave left).2
      output := log.entries.foldl Collector.append s.output }

/-- The memory in which every request takes place at once. -/
def plain : Memory where
  State := Shared
  enter registers lists := { registers := registers, lists := lists }
  answer _ q s := s.answer q
  leave s := (s.registers, s.lists)
  leave_enter _ _ := rfl

end Memory

/-- How several contexts fared: what each was answered, and whose event came next, by position. -/
structure Execution where
  replies : ContextId → Replies
  order : List Nat

/-- The log of contexts with their events. Those that the order does not mention come last. -/
def interleave : List Nat → List (ContextId × List Event) → Log
  | [], queues => queues.flatMap fun (who, events) => events.map (who, ·)
  | i :: order, queues =>
    match queues[i]? with
    | some (who, event :: events) => (who, event) :: interleave order (queues.set i (who, events))
    | _ => interleave order queues

def Execution.log (execution : Execution) (talks : List (ContextReport × List Event)) : Log :=
  interleave execution.order (talks.map fun talk => (talk.1.context, talk.2))

namespace Context

/-- Executes contexts, each against its own answers. -/
def converseAll (p : Program) (fuel : Nat) (replies : ContextId → Replies) :
    List Context → Option (List (ContextReport × List Event))
  | [] => some []
  | c :: rest =>
    (run p fuel c (Conversation.mk (replies c.id) [])).bind fun (report, talk) =>
      (converseAll p fuel replies rest).map fun talks => (report, talk.events) :: talks

/-- Executes contexts at the same time on a memory, each for at most `fuel` steps; `none` also if
the memory does not give the answers of the execution. -/
def runTogether (p : Program) (fuel : Nat) (memory : Memory) (execution : Execution)
    (cs : List Context) (s : Shared) : Option (List ContextReport × Shared) :=
  (converseAll p fuel execution.replies cs).bind fun talks =>
    (memory.settle s (execution.log talks)).map fun t => (talks.map (·.1), t)

end Context

/-- The workers that execute contexts. -/
inductive Pool where
  | single
  | several (memory : Memory) (execution : Execution)

def Pool.runAll (p : Program) (fuel : Nat) :
    Pool → List Context → Shared → Option (List ContextReport × Shared)
  | .single, cs, s => Context.runAll p fuel cs s
  | .several memory execution, cs, s => Context.runTogether p fuel memory execution cs s

end RegisterMachine
