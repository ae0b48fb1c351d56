import RegisterMachine.Number.Decimal

/-!
# Float literals

The grammar of a float written by hand: an optional sign, then either one of the words `inf`,
`infinity` and `nan` in any case, or decimal digits with an optional point and an optional
exponent. At least one digit stands before the exponent; the point may lead or trail.
-/

namespace RegisterMachine.Number

def splitSign : List Char → Bool × List Char
  | '-' :: cs => (true, cs)
  | '+' :: cs => (false, cs)
  | cs => (false, cs)

def splitDigits (cs : List Char) : List Char × List Char :=
  (cs.takeWhile Char.isDigit, cs.dropWhile Char.isDigit)

/-- The exponent part up to the end of the literal; it may be missing. -/
def readExponent? : List Char → Option Int
  | [] => some 0
  | c :: cs =>
    if c = 'e' ∨ c = 'E' then
      let (negative, digits) := splitSign cs
      (Text.readDecimal? digits).map fun n => if negative then -n else n
    else none

/-- Fraction digits after a point, and the rest; without a point there are none. -/
def splitFraction : List Char → List Char × List Char
  | '.' :: cs => splitDigits cs
  | cs => ([], cs)

def readDecimalLiteral? (cs : List Char) : Option Decimal :=
  let (whole, rest) := splitDigits cs
  let (fraction, rest) := splitFraction rest
  (readExponent? rest).bind fun exponent =>
    (Text.readDecimal? (whole ++ fraction)).map fun digits =>
      ⟨digits, exponent - fraction.length⟩

/-- The pattern of an unsigned literal. The one NaN it can name has only the top fraction bit
set. -/
def BinaryFormat.readPattern? (f : BinaryFormat) (cs : List Char) : Option Nat :=
  let word := String.ofList (cs.map Char.toLower)
  if word = "inf" ∨ word = "infinity" then some f.infinity
  else if word = "nan" then some (f.infinity + f.binade / 2)
  else (readDecimalLiteral? cs).map f.ofDecimal

def BinaryFormat.readLiteral? (f : BinaryFormat) (cs : List Char) : Option Nat :=
  let (negative, magnitude) := splitSign cs
  (f.readPattern? magnitude).map (f.assemble negative)

end RegisterMachine.Number
