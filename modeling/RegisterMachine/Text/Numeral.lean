/-!
# Numerals

Integers as text: decimal with a minus sign, lower-case hexadecimal, and the padding that
columns need.
-/

namespace RegisterMachine.Text

/-- Decimal digits of a natural number, most significant first, without leading zeros. -/
def digits (n : Nat) : List Char := Nat.toDigits 10 n

def decimal (n : Nat) : String := String.ofList (digits n)

/-- Decimal text of an integer; only negative ones carry a sign. -/
def signedDecimal : Int → String
  | .ofNat n => decimal n
  | .negSucc n => "-" ++ decimal (n + 1)

/-- Lower-case hexadecimal text, at least `width` digits wide. -/
def hexadecimal (width n : Nat) : String :=
  let ds := Nat.toDigits 16 n
  String.ofList (List.replicate (width - ds.length) '0' ++ ds)

/-- `text` moved to the right end of a column of `width` characters. -/
def alignRight (width : Nat) (text : String) : String :=
  String.ofList (List.replicate (width - text.length) ' ') ++ text

/-- `text` followed by blanks up to `width` characters. -/
def alignLeft (width : Nat) (text : String) : String :=
  text ++ String.ofList (List.replicate (width - text.length) ' ')

def digitValue? (c : Char) : Option Nat :=
  if '0' ≤ c ∧ c ≤ '9' then some (c.toNat - '0'.toNat) else none

/-- Number of a digit sequence that continues the number `acc`; `none` at a character that is
no digit. -/
def readDigits? (acc : Nat) : List Char → Option Nat
  | [] => some acc
  | c :: cs => (digitValue? c).bind fun d => readDigits? (10 * acc + d) cs

def readDecimal? (cs : List Char) : Option Nat :=
  if cs.isEmpty then none else readDigits? 0 cs

/-- Texts joined with `separator` between neighbours. -/
def join (separator : String) : List String → String
  | [] => ""
  | [text] => text
  | text :: rest => text ++ separator ++ join separator rest

end RegisterMachine.Text
