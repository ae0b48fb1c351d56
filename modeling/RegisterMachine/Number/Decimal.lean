import RegisterMachine.Number.Binary
import RegisterMachine.Text.Numeral

/-!
# Decimals and binary floats

A decimal is a whole number of a power of ten. Reading rounds it to the nearest float of a
format. Writing picks the fewest digits that read back: since a half unit `2 ^ -(scale + 1)` is
`5 ^ (scale + 1)` steps of `10 ^ -(scale + 1)`, the numbers that round to a float form an
interval with whole end points, and the search only divides natural numbers.
-/

namespace RegisterMachine.Number

/-- The number `digits * 10 ^ exponent`. -/
structure Decimal where
  digits : Nat
  exponent : Int
  deriving DecidableEq, Repr

/-- Where an exact tie between two neighbours goes. -/
inductive Tie where
  | up
  | toEven
  deriving DecidableEq, Repr

/-- The pattern nearest to a decimal. The two guards only spare the computation of powers far
outside the format: ten to the power `scale` is past every magnitude, and its reciprocal is
below half a unit. -/
def BinaryFormat.ofDecimal (f : BinaryFormat) (d : Decimal) : Nat :=
  let top : Int := (Text.digits d.digits).length + d.exponent
  if d.digits = 0 then 0
  else if f.scale < top then f.infinity
  else if top < -f.scale then 0
  else match d.exponent with
    | .ofNat k => f.nearest (d.digits * Nat.pow 10 k * f.one) 1
    | .negSucc k => f.nearest (d.digits * f.one) (Nat.pow 10 (k + 1))

/-- The numbers that round to one float, in whole steps. -/
structure RoundingInterval where
  lower : Nat
  value : Nat
  upper : Nat
  /-- Whether the end points round to the float too. -/
  closed : Bool

namespace RoundingInterval

/-- Half a unit, in steps of `10 ^ -(scale + 1)`. -/
def halfUnit (f : BinaryFormat) : Nat := Nat.pow 5 (f.scale + 1)

/-- The interval of a finite nonzero pattern, in steps of `10 ^ -(scale + 1)`. A tie rounds to
the even pattern, so the ends belong to it exactly when the pattern is even. -/
def ofPattern (f : BinaryFormat) (pattern : Nat) : RoundingInterval where
  lower := (f.units (pattern - 1) + f.units pattern) * halfUnit f
  value := 2 * f.units pattern * halfUnit f
  upper := (f.units pattern + f.units (pattern + 1)) * halfUnit f
  closed := pattern % 2 == 0

def contains (i : RoundingInterval) (x : Nat) : Bool :=
  if i.closed then i.lower ≤ x && x ≤ i.upper else i.lower < x && x < i.upper

/-- Which of the two multiples of `step` around the value lies in the interval, as a count of
steps; of two the nearer one, with `tie` deciding between equals. -/
def pick? (i : RoundingInterval) (tie : Tie) (step : Nat) : Option Nat :=
  let below := i.value / step
  let gap := i.value % step
  match i.contains (below * step), i.contains ((below + 1) * step) with
  | false, false => none
  | true, false => some below
  | false, true => some (below + 1)
  | true, true =>
    if 2 * gap < step then some below
    else if step < 2 * gap then some (below + 1)
    else match tie with
      | .up => some (below + 1)
      | .toEven => if below % 2 = 0 then some below else some (below + 1)

/-- The coarsest power of ten, at most `10 ^ k` steps, with a multiple in the interval: that
multiple's count and the power. -/
def coarsest (i : RoundingInterval) (tie : Tie) : Nat → Nat × Nat
  | 0 => (i.value, 0)
  | k + 1 => match i.pick? tie (Nat.pow 10 (k + 1)) with
    | some count => (count, k + 1)
    | none => i.coarsest tie k

end RoundingInterval

/-- The decimal with the fewest digits that rounds to a finite nonzero pattern, nearest to its
value among those. -/
def BinaryFormat.shortest (f : BinaryFormat) (tie : Tie) (pattern : Nat) : Decimal :=
  let i := RoundingInterval.ofPattern f pattern
  let (count, k) := i.coarsest tie (Text.digits i.value).length
  ⟨count, k - (f.scale + 1)⟩

end RegisterMachine.Number
