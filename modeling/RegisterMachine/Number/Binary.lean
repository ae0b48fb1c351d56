/-!
# Binary interchange formats

A format is given by the widths of its exponent and fraction fields. The magnitude of a float
is named by its *pattern*, the bits below the sign. Patterns are in the order of the magnitudes
they denote, and every finite magnitude is a whole number of *units*, the least positive
magnitude `2 ^ -scale`, so all arithmetic on them is exact arithmetic on natural numbers.
-/

namespace RegisterMachine.Number

/-- A binary interchange format. -/
structure BinaryFormat where
  exponentBits : Nat
  fractionBits : Nat

/-- Which kind of number a bit pattern stands for; a finite one keeps its magnitude's pattern. -/
inductive FloatClass where
  | nan
  | infinite (negative : Bool)
  | finite (negative : Bool) (pattern : Nat)
  deriving DecidableEq, Repr

/-- Nearest integer to `num / den`, a half going to the even neighbour. -/
def roundHalfEven (num den : Nat) : Nat :=
  let q := num / den
  let r := num % den
  if 2 * r < den then q
  else if den < 2 * r then q + 1
  else if q % 2 = 0 then q else q + 1

namespace BinaryFormat

def binary32 : BinaryFormat := ⟨8, 23⟩

def binary64 : BinaryFormat := ⟨11, 52⟩

/-- One unit is `2 ^ -scale`. -/
def scale (f : BinaryFormat) : Nat := Nat.pow 2 (f.exponentBits - 1) - 2 + f.fractionBits

def one (f : BinaryFormat) : Nat := Nat.pow 2 f.scale

/-- How many patterns share an exponent. -/
def binade (f : BinaryFormat) : Nat := Nat.pow 2 f.fractionBits

/-- The sign bit: bits below it are the pattern of the magnitude. -/
def signBit (f : BinaryFormat) : Nat := Nat.pow 2 (f.exponentBits + f.fractionBits)

def infinity (f : BinaryFormat) : Nat := (Nat.pow 2 f.exponentBits - 1) * f.binade

/-- Magnitude of a pattern in units. On the pattern of infinity it is the magnitude that would
come next, which is what rounding near the largest finite magnitude needs. -/
def units (f : BinaryFormat) (pattern : Nat) : Nat :=
  let exponent := pattern / f.binade
  let fraction := pattern % f.binade
  if exponent = 0 then fraction else (f.binade + fraction) * Nat.pow 2 (exponent - 1)

def classify (f : BinaryFormat) (bits : Nat) : FloatClass :=
  let negative := decide (f.signBit ≤ bits)
  let pattern := bits % f.signBit
  if pattern < f.infinity then .finite negative pattern
  else if pattern = f.infinity then .infinite negative
  else .nan

/-- Bits of a sign and a pattern. -/
def assemble (f : BinaryFormat) (negative : Bool) (pattern : Nat) : Nat :=
  if negative then f.signBit + pattern else pattern

/-- The pattern whose magnitude is nearest to `num / den` units, a half going to the even
pattern and everything past the largest finite magnitude to infinity. With `shift` chosen so
that the quotient has the width of a significand, the rounded significand and the shift add up
to the pattern, also when rounding carries into the next exponent. -/
def nearest (f : BinaryFormat) (num den : Nat) : Nat :=
  let shift := Nat.log2 (num / den) - f.fractionBits
  min f.infinity (shift * f.binade + roundHalfEven num (den * Nat.pow 2 shift))

end BinaryFormat

end RegisterMachine.Number
