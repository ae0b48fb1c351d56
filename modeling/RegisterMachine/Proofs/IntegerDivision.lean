import Mathlib.Data.Rat.Floor
import RegisterMachine.Numeric

/-!
# Integer division

Quotient and remainder of signed words belong together: wrapping included, they give the dividend
back. The quotient is the exact one without its fraction, but for the one pair whose quotient is no
signed word.
-/

namespace RegisterMachine

/-- A number without its fraction. -/
def towardZero (x : ℚ) : ℤ := if 0 ≤ x then ⌊x⌋ else ⌈x⌉

theorem towardZero_neg (x : ℚ) : towardZero (-x) = -towardZero x := by
  unfold towardZero
  rcases lt_trichotomy x 0 with hneg | rfl | hpos
  · rw [if_pos (by linarith), if_neg (by linarith), Int.floor_neg]
  · simp
  · rw [if_neg (by linarith), if_pos hpos.le, Int.ceil_neg]

theorem towardZero_div_natCast (a : ℤ) (n : ℕ) : towardZero (a / n) = a.tdiv n := by
  have hnonneg (m : ℤ) (hm : 0 ≤ m) : towardZero (m / n) = m.tdiv n := by
    rw [towardZero, if_pos (by positivity), Rat.floor_intCast_div_natCast,
      Int.tdiv_eq_ediv_of_nonneg hm]
  rcases le_total 0 a with hge | hle
  · exact hnonneg a hge
  · have hneg := hnonneg (-a) (by omega)
    rw [Int.cast_neg, neg_div, towardZero_neg, Int.neg_tdiv] at hneg
    omega

theorem towardZero_div (a b : ℤ) : towardZero (a / b) = a.tdiv b := by
  rcases Int.eq_nat_or_neg b with ⟨n, rfl | rfl⟩
  · exact towardZero_div_natCast a n
  · have hn := towardZero_div_natCast a n
    rw [Int.cast_neg, Int.cast_natCast, div_neg, towardZero_neg, hn, Int.tdiv_neg]

theorem div_eq_ofInt (a b : Int32) : a / b = Int32.ofInt (a.toInt.tdiv b.toInt) := by
  apply Int32.toInt_inj.1
  rw [Int32.toInt_div, Int32.toInt_ofInt]

theorem mod_eq_ofInt (a b : Int32) : a % b = Int32.ofInt (a.toInt.tmod b.toInt) := by
  rw [← Int32.toInt_mod, Int32.ofInt_toInt]

theorem mul_div_add_mod (a b : Int32) : b * (a / b) + a % b = a := by
  calc b * (a / b) + a % b
      = Int32.ofInt b.toInt * Int32.ofInt (a.toInt.tdiv b.toInt) +
          Int32.ofInt (a.toInt.tmod b.toInt) := by
        rw [div_eq_ofInt, mod_eq_ofInt, Int32.ofInt_toInt]
    _ = Int32.ofInt (b.toInt * a.toInt.tdiv b.toInt + a.toInt.tmod b.toInt) := by
        rw [Int32.ofInt_add, Int32.ofInt_mul]
    _ = a := by rw [Int.mul_tdiv_add_tmod, Int32.ofInt_toInt]

/-- The quotient is exact unless it is out of range, which it is for one pair only. -/
theorem toInt_div_of_ne {a b : Int32} (h : ¬ (a.toInt = -2 ^ 31 ∧ b.toInt = -1)) :
    (a / b).toInt = a.toInt.tdiv b.toInt := by
  by_cases ha : a = Int32.minValue
  · refine Int32.toInt_div_of_ne_right a b fun hb => h ⟨?_, ?_⟩
    · rw [ha]
      rfl
    · rw [hb]
      rfl
  · exact Int32.toInt_div_of_ne_left a b ha

/-- What a quotient and a remainder of signed words are. -/
structure Divides (a b q r : Int32) : Prop where
  /-- Multiplied and added up, wrapping, they give the dividend. -/
  sum : Arithmetic.add.evalInt (Arithmetic.mul.evalInt b q) r = a
  /-- The remainder is smaller than the divisor. -/
  lt : |r.toInt| < |b.toInt|
  /-- The remainder is on the dividend's side of zero. -/
  sign : r.toInt = 0 ∨ r.toInt.sign = a.toInt.sign
  /-- The quotient is the exact one, truncated. -/
  quotient : ¬ (a.toInt = -2 ^ 31 ∧ b.toInt = -1) → q.toInt = towardZero (a.toInt / b.toInt)
  /-- The one quotient that is out of range wraps. -/
  overflow : a.toInt = -2 ^ 31 → b.toInt = -1 → q.toInt = -2 ^ 31 ∧ r.toInt = 0

theorem divides_of_ne_zero {a b : Int32} (hb : b ≠ 0) :
    Divides a b (Arithmetic.div.evalInt a b) (remainder a b) := by
  have hq : Arithmetic.div.evalInt a b = a / b := if_neg hb
  have hr : remainder a b = a % b := if_neg hb
  have hb' : b.toInt ≠ 0 := by
    intro hzero
    exact hb (Int32.toInt_inj.1 hzero)
  rw [hq, hr]
  refine ⟨mul_div_add_mod a b, ?_, ?_, ?_, ?_⟩
  · have hlt : (a.toInt.tmod b.toInt).natAbs < b.toInt.natAbs := by
      rw [Int.natAbs_tmod]
      exact Nat.mod_lt _ (by omega)
    rw [Int32.toInt_mod, Int.abs_eq_natAbs, Int.abs_eq_natAbs]
    exact_mod_cast hlt
  · have hsign := Int.sign_tmod a.toInt b.toInt
    rw [Int32.toInt_mod]
    split at hsign
    case isTrue => exact .inl (Int.sign_eq_zero_iff_zero.1 hsign)
    case isFalse => exact .inr hsign
  · intro hne
    rw [toInt_div_of_ne hne, towardZero_div]
  · intro hmin hminus
    rw [Int32.toInt_div, Int32.toInt_mod, hmin, hminus]
    decide

/-- Division and remainder of all signed words: both are zero for a zero divisor, and otherwise they
obey the law of truncated division. The instructions compute them on words. -/
theorem division_law (a b : Int32) :
    (b = 0 → Arithmetic.div.evalInt a b = 0 ∧ remainder a b = 0) ∧
    (b ≠ 0 → Divides a b (Arithmetic.div.evalInt a b) (remainder a b)) ∧
    ∀ v w : Word, v.toInt32 = a → w.toInt32 = b →
      ((BinaryOp.arithmetic .int .div).eval v w).toInt32 = Arithmetic.div.evalInt a b ∧
      (BinaryOp.modInt.eval v w).toInt32 = remainder a b := by
  refine ⟨?_, divides_of_ne_zero, ?_⟩
  · intro hb
    exact ⟨if_pos hb, if_pos hb⟩
  · rintro v w rfl rfl
    exact ⟨rfl, rfl⟩

/-- A negative dividend, the quotient that wraps, and a zero divisor. -/
theorem division_law_at_edges :
    Divides (-7) 2 (Arithmetic.div.evalInt (-7) 2) (remainder (-7) 2) ∧
      Divides (-2147483648) (-1) (Arithmetic.div.evalInt (-2147483648) (-1))
        (remainder (-2147483648) (-1)) ∧
      Arithmetic.div.evalInt 5 0 = 0 ∧ remainder 5 0 = 0 :=
  ⟨(division_law (-7) 2).2.1 (by decide), (division_law (-2147483648) (-1)).2.1 (by decide),
    (division_law 5 0).1 rfl⟩

end RegisterMachine
