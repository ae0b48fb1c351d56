import RegisterMachine.Number.Binary

/-!
# Arithmetic on floats

Operations of a binary format on floats that are given by kind, sign and pattern. Finite floats
are whole numbers of units, so an operation computes its exact result and rounds it once.
-/

namespace RegisterMachine.Number.BinaryFormat

def signedUnits (f : BinaryFormat) (negative : Bool) (pattern : Nat) : Int :=
  if negative then -(f.units pattern : Int) else f.units pattern

/-- The float nearest to `num / den` units. -/
def round (f : BinaryFormat) (negative : Bool) (num den : Nat) : FloatClass :=
  let pattern := f.nearest num den
  if pattern < f.infinity then .finite negative pattern else .infinite negative

/-- A float of the format `g` as a float of the format `f`. -/
def convert (f g : BinaryFormat) : FloatClass → FloatClass
  | .nan => .nan
  | .infinite negative => .infinite negative
  | .finite negative pattern => f.round negative (g.units pattern * f.one) g.one

/-- The sum of two floats. Infinities of both signs have none, and a sum of zero is negative only
if both summands are. -/
def add (f : BinaryFormat) : FloatClass → FloatClass → FloatClass
  | .finite a p, .finite b q =>
    let sum := f.signedUnits a p + f.signedUnits b q
    if sum = 0 then .finite (a && b) 0 else f.round (sum < 0) sum.natAbs 1
  | .finite _ _, .infinite b => .infinite b
  | .infinite a, .finite _ _ => .infinite a
  | .infinite a, .infinite b => if a = b then .infinite a else .nan
  | .nan, _ => .nan
  | _, .nan => .nan

/-- The greatest whole number that is not above a float, as a float with its sign. -/
def floor (f : BinaryFormat) : FloatClass → FloatClass
  | .nan => .nan
  | .infinite negative => .infinite negative
  | .finite negative pattern =>
    f.round negative ((f.signedUnits negative pattern / f.one).natAbs * f.one) 1

end RegisterMachine.Number.BinaryFormat
