import RegisterMachine.Number.Arithmetic
import RegisterMachine.Number.Style
import RegisterMachine.Opcode
import RegisterMachine.Word

/-!
# Numeric meaning of words

Integer instructions read two's complement and wrap; dividing by zero gives zero. Float
instructions follow binary32; an operand that is not a number passes through with its quiet bit
set, the first of two taking precedence. Rounding to an integer goes through double precision,
and converting from one rounds the exact magnitude once.
-/

namespace RegisterMachine

open Number (BinaryFormat)

namespace Word

def toFloat (w : Word) : Float32 := Float32.ofBits w.bits

def ofFloat (x : Float32) : Word := ⟨x.toBits⟩

def floatClass (w : Word) : Number.FloatClass := BinaryFormat.binary32.classify w.toNat

def isNaN (w : Word) : Bool := w.floatClass == .nan

/-- The quiet form of a NaN: its top fraction bit set, all other bits kept. -/
def quieten (w : Word) : Word := ⟨w.bits ||| 0x00400000⟩

def floatText (w : Word) : String := Number.NumberStyle.plain.text .binary32 w.toNat

def compactFloatText (w : Word) : String := Number.NumberStyle.compact.text .binary32 w.toNat

def debugText (w : Word) : String :=
  "Word(0x" ++ Text.hexadecimal 8 w.toNat ++ " i=" ++ w.text ++ " f=" ++ w.compactFloatText ++ ")"

def ofFraction (num den : Nat) : Word :=
  ofNat (BinaryFormat.binary32.nearest (num * BinaryFormat.binary32.one) den)

def floatOfInt32 (v : Int32) : Word :=
  let pattern := BinaryFormat.binary32.nearest (v.toInt.natAbs * BinaryFormat.binary32.one) 1
  ofNat (BinaryFormat.binary32.assemble (v < 0) pattern)

/-- `v` forced into the range of signed words. -/
def clampInt32 (v : Int) : Int32 := Int32.ofInt (max (-2147483648) (min 2147483647 v))

/-- The whole part of a double. Values outside the signed range end at its ends, and a NaN gives
zero. -/
def truncate : Number.FloatClass → Int32
  | .nan => 0
  | .infinite negative => if negative then Int32.minValue else Int32.maxValue
  | .finite negative pattern =>
    let f := BinaryFormat.binary64
    clampInt32 ((f.signedUnits negative pattern).tdiv f.one)

def half : Number.FloatClass := .finite false 0x3fe0000000000000

/-- Nearest integer, a half going up: the whole number not above the sum with one half, which is
computed in double precision. -/
def roundHalfUp (w : Word) : Int32 :=
  let f := BinaryFormat.binary64
  truncate (f.floor (f.add (f.convert .binary32 w.floatClass) half))

end Word

def Arithmetic.evalInt (op : Arithmetic) (a b : Int32) : Int32 :=
  match op with
  | .add => a + b
  | .sub => a - b
  | .mul => a * b
  | .div => if b = 0 then 0 else a / b

/-- Remainder with the sign of the dividend, and zero for a zero divisor. -/
def remainder (a b : Int32) : Int32 := if b = 0 then 0 else a % b

def Comparison.evalInt (op : Comparison) (a b : Int32) : Bool :=
  match op with
  | .eq => a == b
  | .neq => a != b
  | .lt => a < b
  | .gt => b < a
  | .lte => a ≤ b
  | .gte => b ≤ a

/-- A float operation on words: NaN operands pass through, quietened. -/
def floatBinary (f : Float32 → Float32 → Float32) (a b : Word) : Word :=
  if a.isNaN then a.quieten
  else if b.isNaN then b.quieten
  else .ofFloat (f a.toFloat b.toFloat)

def Arithmetic.evalFloat (op : Arithmetic) : Word → Word → Word :=
  match op with
  | .add => floatBinary (· + ·)
  | .sub => floatBinary (· - ·)
  | .mul => floatBinary (· * ·)
  | .div => floatBinary (· / ·)

/-- Square root; the root of a negative number is not a number. -/
def sqrtFloat (w : Word) : Word := if w.isNaN then w.quieten else .ofFloat w.toFloat.sqrt

/-- Ordered comparisons with a NaN are false. -/
def Comparison.evalFloat (op : Comparison) (a b : Float32) : Bool :=
  match op with
  | .eq => a == b
  | .neq => !(a == b)
  | .lt => a < b
  | .gt => b < a
  | .lte => a < b || a == b
  | .gte => b < a || a == b

def UnaryOp.eval : UnaryOp → Word → Word
  | .move, w => w
  | .round, w => .ofInt32 w.roundHalfUp
  | .intToFloat, w => .floatOfInt32 w.toInt32
  | .sqrtFloat, w => RegisterMachine.sqrtFloat w
  | .not, w => .ofBool w.isZero

def BinaryOp.eval : BinaryOp → Word → Word → Word
  | .arithmetic .int op, a, b => .ofInt32 (op.evalInt a.toInt32 b.toInt32)
  | .arithmetic .float op, a, b => op.evalFloat a b
  | .modInt, a, b => .ofInt32 (remainder a.toInt32 b.toInt32)
  | .and, a, b => .ofBool (!a.isZero && !b.isZero)
  | .or, a, b => .ofBool (!a.isZero || !b.isZero)
  | .xor, a, b => ⟨a.bits ^^^ b.bits⟩
  | .comparison .int op, a, b => .ofBool (op.evalInt a.toInt32 b.toInt32)
  | .comparison .float op, a, b => .ofBool (op.evalFloat a.toFloat b.toFloat)

end RegisterMachine
