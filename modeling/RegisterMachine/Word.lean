import RegisterMachine.Text.Numeral

/-!
# Machine words

A word is thirty-two untagged bits. Whoever touches it decides whether the bits are a signed
integer, a binary32 float, an index or an address; moving a word never changes a bit.
-/

namespace RegisterMachine

/-- Thirty-two untagged bits. -/
structure Word where
  bits : UInt32
  deriving DecidableEq, Inhabited, Repr

namespace Word

/-- Integer zero, which is also the float `+0.0`. -/
def zero : Word := ⟨0⟩

def one : Word := ⟨1⟩

def ofBool (b : Bool) : Word := if b then one else zero

def toNat (w : Word) : Nat := w.bits.toNat

def ofNat (n : Nat) : Word := ⟨UInt32.ofNat n⟩

def toInt32 (w : Word) : Int32 := w.bits.toInt32

def ofInt32 (v : Int32) : Word := ⟨v.toUInt32⟩

def isZero (w : Word) : Bool := w.bits == 0

def bytes (w : Word) : List UInt8 :=
  [w.bits.toUInt8, (w.bits >>> 8).toUInt8, (w.bits >>> 16).toUInt8, (w.bits >>> 24).toUInt8]

def ofUnsigned? (n : Nat) : Option Word :=
  if n < UInt32.size then some (ofNat n) else none

/-- The word of a signed value. A value that is not negative may also be a bit pattern. -/
def ofSigned? (v : Int) : Option Word :=
  if 0 ≤ v then ofUnsigned? v.toNat
  else if Int32.minValue.toInt ≤ v ∧ v ≤ Int32.maxValue.toInt then some (ofInt32 (.ofInt v))
  else none

/-- The word an integer denotes: without a sign its bits, with one its value. -/
def ofInteger? : Int → Option Word
  | .ofNat n => ofUnsigned? n
  | .negSucc n => ofSigned? (.negSucc n)

def text (w : Word) : String := Text.signedDecimal w.toInt32.toInt

@[simp]
theorem toNat_lt (w : Word) : w.toNat < 4294967296 := w.bits.toNat_lt

@[simp]
theorem toNat_ofNat (n : Nat) : (ofNat n).toNat = n % 4294967296 := UInt32.toNat_ofNat'

theorem toNat_ofNat_of_lt {n : Nat} (h : n < 4294967296) : (ofNat n).toNat = n := by
  rw [toNat_ofNat, Nat.mod_eq_of_lt h]

@[simp]
theorem ofNat_toNat (w : Word) : ofNat w.toNat = w := by
  simp [ofNat, toNat]

@[simp]
theorem ofInt32_toInt32 (w : Word) : ofInt32 w.toInt32 = w := rfl

@[simp]
theorem toInt32_ofInt32 (v : Int32) : (ofInt32 v).toInt32 = v := rfl

end Word

end RegisterMachine
