import RegisterMachine.Number.Literal

/-!
# JSON numbers

A number without fraction and exponent is an integer as long as it fits 64 bits, signed or not.
Every other number is a double, found the quick way: leading digits are kept while they fit 64
bits, and the kept integer is multiplied or divided by a power of ten. Minus zero is a double.
-/

namespace RegisterMachine.Json

/-- The parts of a number as written. -/
structure Numeral where
  negative : Bool
  whole : List Char
  fraction : Option (List Char)
  /-- Whether the exponent is negative, and its digits. -/
  exponent : Option (Bool × List Char)

inductive NumberValue where
  | integer (value : Int)
  | double (bits : UInt64)
  /-- Past the largest double. -/
  | outOfRange
  deriving DecidableEq

/-- Digits before the point; a zero leads only alone. -/
def lexWhole? (cs : List Char) : Option (List Char × List Char) :=
  match Number.splitDigits cs with
  | ([], _) => none
  | ('0' :: _ :: _, _) => none
  | (digits, rest) => some (digits, rest)

def lexFraction? : List Char → Option (Option (List Char) × List Char)
  | '.' :: cs =>
    match Number.splitDigits cs with
    | ([], _) => none
    | (digits, rest) => some (some digits, rest)
  | cs => some (none, cs)

def lexExponent? : List Char → Option (Option (Bool × List Char) × List Char)
  | [] => some (none, [])
  | c :: cs =>
    if c = 'e' ∨ c = 'E' then
      match Number.splitDigits (Number.splitSign cs).2 with
      | ([], _) => none
      | (digits, rest) => some (some ((Number.splitSign cs).1, digits), rest)
    else some (none, c :: cs)

def lexUnsigned? (negative : Bool) (cs : List Char) : Option (Numeral × List Char) :=
  (lexWhole? cs).bind fun (whole, rest) =>
    (lexFraction? rest).bind fun (fraction, rest) =>
      (lexExponent? rest).map fun (exponent, rest) =>
        (⟨negative, whole, fraction, exponent⟩, rest)

def lexNumber? : List Char → Option (Numeral × List Char)
  | '-' :: cs => lexUnsigned? true cs
  | cs => lexUnsigned? false cs

/-- Continues a number by digits while it fits 64 bits; also the number of digits left over. -/
def keepDigits (acc : Nat) : List Char → Nat × Nat
  | [] => (acc, 0)
  | c :: cs =>
    let next := 10 * acc + (c.toNat - '0'.toNat)
    if next < 18446744073709551616 then keepDigits next cs else (acc, cs.length + 1)

def powerOfTen (k : Nat) : Float := Float.ofScientific 1 false k

/-- `x / 10 ^ k`, in steps a double can hold. -/
def divideByPower (x : Float) (k : Nat) : Float :=
  if k ≤ 308 then x / powerOfTen k
  else if x == 0 then x
  else divideByPower (x / powerOfTen 308) (k - 308)
termination_by k

/-- `x * 10 ^ e`; `none` past the largest double. -/
def scale? (x : Float) : Int → Option Float
  | .ofNat k =>
    if k ≤ 308 then
      let y := x * powerOfTen k
      if y.isInf then none else some y
    else if x == 0 then some x else none
  | .negSucc k => some (divideByPower x (k + 1))

def signed (negative : Bool) (x : Float) : NumberValue :=
  .double (if negative then -x else x).toBits

namespace Numeral

def doubleValue (n : Numeral) : NumberValue :=
  let (kept, dropped) := keepDigits 0 n.whole
  let fraction := n.fraction.getD []
  let (kept, unused) := keepDigits kept fraction
  let exponent : Int := match n.exponent with
    | some (negative, digits) =>
      let size := (Text.readDigits? 0 digits).getD 0
      if negative then -size else size
    | none => 0
  match scale? kept.toUInt64.toFloat (exponent + dropped - (fraction.length - unused)) with
  | some x => signed n.negative x
  | none => .outOfRange

def value (n : Numeral) : NumberValue :=
  match n.fraction, n.exponent, keepDigits 0 n.whole with
  | none, none, (size, 0) =>
    if !n.negative then .integer size
    else if 0 < size ∧ size ≤ 9223372036854775808 then .integer (-size)
    else n.doubleValue
  | _, _, _ => n.doubleValue

end Numeral

theorem length_of_splitDigits {cs ds rest : List Char} (h : Number.splitDigits cs = (ds, rest)) :
    ds.length + rest.length = cs.length := by
  cases h
  rw [← List.length_append, List.takeWhile_append_dropWhile]

theorem length_splitSign_le {cs : List Char} : (Number.splitSign cs).2.length ≤ cs.length := by
  unfold Number.splitSign
  split <;> simp

theorem length_of_lexWhole? {cs ds rest : List Char} (h : lexWhole? cs = some (ds, rest)) :
    rest.length < cs.length := by
  unfold lexWhole? at h
  split at h
  · cases h
  · cases h
  · rename_i hne _ hs
    cases h
    have := length_of_splitDigits hs
    have := List.length_pos_iff.2 hne
    omega

theorem length_of_lexFraction? {cs rest : List Char} {f : Option (List Char)}
    (h : lexFraction? cs = some (f, rest)) : rest.length ≤ cs.length := by
  unfold lexFraction? at h
  split at h
  · split at h
    · cases h
    · rename_i hs
      cases h
      have := length_of_splitDigits hs
      simp only [List.length_cons]
      omega
  · cases h
    exact Nat.le_refl _

theorem length_of_lexExponent? {cs rest : List Char} {e : Option (Bool × List Char)}
    (h : lexExponent? cs = some (e, rest)) : rest.length ≤ cs.length := by
  unfold lexExponent? at h
  split at h
  · cases h
    exact Nat.le_refl _
  · rename_i c cs'
    split at h
    · split at h
      · cases h
      · rename_i hs
        cases h
        have := length_of_splitDigits hs
        have := @length_splitSign_le cs'
        simp only [List.length_cons]
        omega
    · cases h
      exact Nat.le_refl _

theorem length_of_lexUnsigned? {b : Bool} {cs rest : List Char} {n : Numeral}
    (h : lexUnsigned? b cs = some (n, rest)) : rest.length < cs.length := by
  unfold lexUnsigned? at h
  obtain ⟨⟨_, r₁⟩, h₁, h⟩ := Option.bind_eq_some_iff.1 h
  obtain ⟨⟨_, r₂⟩, h₂, h⟩ := Option.bind_eq_some_iff.1 h
  obtain ⟨⟨_, r₃⟩, h₃, h⟩ := Option.map_eq_some_iff.1 h
  cases h
  have := length_of_lexWhole? h₁
  have := length_of_lexFraction? h₂
  have := length_of_lexExponent? h₃
  omega

theorem length_of_lexNumber? {cs rest : List Char} {n : Numeral}
    (h : lexNumber? cs = some (n, rest)) : rest.length < cs.length := by
  unfold lexNumber? at h
  split at h
  · have := length_of_lexUnsigned? h
    simp only [List.length_cons]
    omega
  · exact length_of_lexUnsigned? h

end RegisterMachine.Json
