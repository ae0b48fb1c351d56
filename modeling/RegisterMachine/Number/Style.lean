import RegisterMachine.Number.Decimal

/-!
# Float text

A style fixes everything about the text of a float that its value leaves open: where positional
notation ends, how an exponent is signed, which way ties go, and how the non-finite ones are
spelled. All styles share the shortest digits that read back.
-/

namespace RegisterMachine.Number

/-- Layout of float text. -/
structure NumberStyle where
  /-- Where an exact tie between two shortest decimals goes. -/
  tie : Tie
  /-- Decimal exponents of the leading digit that are written positionally. -/
  positional : Int → Bool
  /-- Whether an exponent of zero or more carries a plus sign. -/
  plus : Bool
  nan : String
  infinity : String
  negativeInfinity : String

/-- `digits * 10 ^ exponent` written out, with at least one digit on either side of the point. -/
def positionalText (digits : List Char) : Int → List Char
  | .ofNat k => digits ++ List.replicate k '0' ++ ['.', '0']
  | .negSucc k =>
    let whole := digits.length - (k + 1)
    if whole = 0 then
      '0' :: '.' :: List.replicate (k + 1 - digits.length) '0' ++ digits
    else
      digits.take whole ++ '.' :: digits.drop whole

/-- The digits with a point after the first, if more follow, and the leading digit's exponent. -/
def exponentText (plus : Bool) (digits : List Char) (leading : Int) : List Char :=
  let mantissa := match digits with
    | d :: rest@(_ :: _) => d :: '.' :: rest
    | _ => digits
  let sign := if plus && 0 ≤ leading then ['+'] else []
  mantissa ++ 'e' :: sign ++ (Text.signedDecimal leading).toList

namespace NumberStyle

def decimalText (style : NumberStyle) (d : Decimal) : List Char :=
  let digits := Text.digits d.digits
  let leading := d.exponent + digits.length - 1
  if style.positional leading then positionalText digits d.exponent
  else exponentText style.plus digits leading

def text (style : NumberStyle) (f : BinaryFormat) (bits : Nat) : String :=
  match f.classify bits with
  | .nan => style.nan
  | .infinite negative => if negative then style.negativeInfinity else style.infinity
  | .finite negative pattern =>
    let sign := if negative then ['-'] else []
    let magnitude :=
      if pattern = 0 then ['0', '.', '0']
      else style.decimalText (f.shortest style.tie pattern)
    String.ofList (sign ++ magnitude)

/-- Results are always written out in full. -/
def plain : NumberStyle where
  tie := .up
  positional := fun _ => true
  plus := false
  nan := "NaN"
  infinity := "inf"
  negativeInfinity := "-inf"

/-- Listings switch to an exponent below `1e-4` and from `1e16` on. -/
def compact : NumberStyle :=
  { plain with positional := fun e => -4 ≤ e && e ≤ 15 }

/-- JSON results switch to an exponent below `1e-6` and from `1e13` on, and have no spelling
for the non-finite. -/
def jsonSingle : NumberStyle where
  tie := .toEven
  positional := fun e => -6 ≤ e && e ≤ 12
  plus := true
  nan := "null"
  infinity := "null"
  negativeInfinity := "null"

/-- Doubles quoted from JSON input switch to an exponent below `1e-5` and from `1e16` on. -/
def jsonDouble : NumberStyle :=
  { jsonSingle with positional := fun e => -5 ≤ e && e ≤ 15 }

end NumberStyle

end RegisterMachine.Number
