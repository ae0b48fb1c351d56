import RegisterMachine.Word

/-!
# Output

Contexts emit entries tagged with an output id. Entries are collected in the order of emission
and handed out grouped by id: groups in the order of their first entry, entries within a group
in the order of emission.
-/

namespace RegisterMachine

inductive ContextId where
  /-- The context that starts at address zero. -/
  | main
  /-- A context that starts at a function's entry. -/
  | function (id : UInt32)
  deriving DecidableEq, Repr

namespace ContextId

/-- A number of its own for each context, from which its random stream is derived. -/
def ordinal : ContextId → UInt64
  | .main => 0
  | .function id => id.toUInt64 + 1

def text : ContextId → String
  | .main => "main"
  | .function id => "function " ++ Text.decimal id.toNat

end ContextId

inductive Payload where
  | int (value : Int32)
  | float (bits : Word)
  /-- The elements of a list at the moment of emission. -/
  | list (items : List Word)
  deriving DecidableEq

def Payload.kindText : Payload → String
  | .int _ => "int"
  | .float _ => "float"
  | .list _ => "list"

structure Entry where
  id : UInt32
  payload : Payload
  context : ContextId
  deriving DecidableEq

/-- Entries grouped by id, stably, in the order in which the ids first appear. -/
def groupById (entries : List Entry) : List Entry :=
  (entries.map (·.id)).eraseDups.flatMap fun id => entries.filter fun e => e.id == id

/-- Entries in the order of emission. -/
structure Collector where
  entries : Array Entry := #[]
  deriving DecidableEq

namespace Collector

def empty : Collector where

def append (c : Collector) (e : Entry) : Collector := ⟨c.entries.push e⟩

def length (c : Collector) : Nat := c.entries.size

/-- All entries, grouped, and the collector that is left without them. -/
def drain (c : Collector) : List Entry × Collector := (groupById c.entries.toList, empty)

end Collector

end RegisterMachine
