import RegisterMachine.Text.Numeral

/-!
# Configuration of a run
-/

namespace RegisterMachine

inductive ExecutionMode where
  /-- The main context only. -/
  | sequential
  /-- After the main context has halted, one context for each function. -/
  | fanOut
  deriving DecidableEq, Repr

def ExecutionMode.name : ExecutionMode → String
  | .sequential => "sequential"
  | .fanOut => "fan_out"

structure Config where
  mode : ExecutionMode := .sequential
  /-- Seed from which each context's random stream is derived. -/
  seed : UInt64 := 0
  /-- How many instructions each context may execute. -/
  maxInstructions : Option UInt64 := none
  /-- Whether contexts after the main one may run at the same time. -/
  parallel : Bool := true
  deriving DecidableEq, Repr

namespace Config

def limit (c : Config) : Option Nat := c.maxInstructions.map UInt64.toNat

def runsInParallel (c : Config) : Bool := c.parallel

def toJson (c : Config) : String :=
  let limit := match c.maxInstructions with
    | some n => Text.decimal n.toNat
    | none => "null"
  "\x7b\"mode\":\"" ++ c.mode.name ++ "\",\"seed\":" ++ Text.decimal c.seed.toNat
    ++ ",\"max_instructions\":" ++ limit
    ++ ",\"parallel\":" ++ (if c.parallel then "true" else "false") ++ "\x7d"

end Config

end RegisterMachine
