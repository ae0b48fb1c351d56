import RegisterMachine.Numeric

/-!
# Random streams

Each context draws from a stream of its own: a counter that advances by a fixed odd increment,
whose value is scrambled by two rounds of xor-shift and multiplication. Every part of the
scrambling can be undone, so distinct counters give distinct draws.
-/

namespace RegisterMachine

/-- A stream, by the value of its counter. -/
structure RandomStream where
  state : UInt64
  deriving DecidableEq, Repr

namespace RandomStream

def increment : UInt64 := 0x9e3779b97f4a7c15

def scramble (z : UInt64) : UInt64 :=
  let z := (z ^^^ (z >>> 30)) * 0xbf58476d1ce4e5b9
  let z := (z ^^^ (z >>> 27)) * 0x94d049bb133111eb
  z ^^^ (z >>> 31)

def advance (s : RandomStream) : RandomStream := ⟨s.state + increment⟩

def draw (s : RandomStream) : UInt64 := scramble s.advance.state

/-- The stream of the context with a number, derived from a run's seed so that contexts do not
repeat each other. -/
def forContext (seed ordinal : UInt64) : RandomStream :=
  ⟨draw ⟨seed ^^^ (ordinal * increment)⟩⟩

/-- The next draw as a float from zero to one, both included: its top 24 bits over the largest
24-bit number. -/
def drawFloat (s : RandomStream) : Word := .ofFraction (s.draw >>> 40).toNat 16777215

end RandomStream

end RegisterMachine
