import Mathlib.Data.Rat.Floor
import RegisterMachine.Numeric
import RegisterMachine.Proofs.FloatArithmetic

/-!
# Rounding half up

Rounding to an integer adds one half in double precision and takes the floor. The sum is not always
a double, but then it is close to one half or far outside of the signed range, so the result is that
of the exact sum for every float.
-/

namespace RegisterMachine

open Number.BinaryFormat

/-- A unit of single precision is `2 ^ finer` units of double precision. -/
@[irreducible] -- so that no tactic computes the power
def finer : Nat := binary64.scale - binary32.scale

theorem finer_eq : finer = 925 := by
  rw [finer]
  decide

theorem even_binade_binary64 : binary64.binade % 2 = 0 := by decide

theorem one_binary64 : binary64.one = 2 ^ 149 * 2 ^ finer := by
  have hscale : binary64.scale = 149 + finer := by
    rw [finer_eq]
    decide
  rw [one, Nat.pow_eq, hscale, Nat.pow_add]

theorem representable_double {m s : Nat} (hm : m < 2 ^ 53) (hs : s + 3 ≤ 2048) :
    binary64.Representable (m * 2 ^ s) := by
  have hwidth : 2 * binary64.binade = 2 ^ 53 := by decide
  exact representable_of_lt (hwidth ▸ hm) hs

theorem exists_convert_double {p : Nat} (hfinite : p < binary32.infinity) (negative : Bool) :
    ∃ q, binary64.convert binary32 (.finite negative p) = .finite negative q ∧
      binary64.signedUnits negative q = binary32.signedUnits negative p * 2 ^ finer := by
  have hbinade : binary32.binade = 8388608 := by decide
  have hinfinity : binary32.infinity = 255 * 8388608 := by decide
  have hfiner := finer_eq
  obtain ⟨t, n, hp, hn, ht⟩ := binary32.exists_shift p
  have hunits : binary32.units p = n * 2 ^ t := hp ▸ units_shift (Nat.le_of_lt hn) ht
  rw [hbinade] at hp hn
  have hrepresentable : binary64.Representable (binary32.units p * 2 ^ finer) := by
    rw [hunits, Nat.mul_assoc, ← Nat.pow_add]
    exact representable_double (by omega) (by omega)
  have hone : binary32.one = 2 ^ 149 := by decide
  have hscaled : binary32.units p * binary64.one = binary32.units p * 2 ^ finer * binary32.one := by
    rw [one_binary64, hone]
    ring
  obtain ⟨q, hconvert, -, hq⟩ :=
    exists_convert_exact even_binade_binary64 hrepresentable hscaled negative
  refine ⟨q, hconvert, ?_⟩
  cases negative with
  | true =>
    rw [signedUnits_true, signedUnits_true, hq]
    push_cast
    ring
  | false =>
    rw [signedUnits_false, signedUnits_false, hq]
    push_cast
    rfl

theorem signedUnits_half : binary64.signedUnits false 0x3fe0000000000000 = 2 ^ 148 * 2 ^ finer := by
  have hbinade : binary64.binade = 2 ^ 52 := by decide
  have hpattern : 0x3fe0000000000000 = 1021 * binary64.binade + binary64.binade := by decide
  have hexponent : 52 + 1021 = 148 + finer := by rw [finer_eq]
  have hunits : binary64.units 0x3fe0000000000000 = 2 ^ 148 * 2 ^ finer := by
    rw [hpattern, units_shift (by omega) (.inr (Nat.le_refl _)), hbinade, ← Nat.pow_add,
      ← Nat.pow_add, hexponent]
  rw [signedUnits_false, hunits]
  push_cast
  rfl

/-- What the sum of a single and one half is like, in units of singles: close to one half, a number
with few significant bits, or far outside of the signed range. -/
theorem sum_cases (negative : Bool) (p : Nat) {t : Int}
    (ht : binary32.signedUnits negative p + 2 ^ 148 = t) :
    (2 ^ 147 ≤ t ∧ t ≤ 3 * 2 ^ 147) ∨
      (∃ (m : Int) (s : Nat), m.natAbs < 2 ^ 53 ∧ s ≤ 148 ∧ t = m * 2 ^ s) ∨
      2 ^ 189 ≤ t.natAbs := by
  obtain ⟨u, hu⟩ : ∃ u, u = binary32.signedUnits negative p := ⟨_, rfl⟩
  have habs : u.natAbs = binary32.units p := hu ▸ binary32.natAbs_signedUnits negative p
  have hwidth : 2 * binary32.binade = 2 ^ 24 := by decide
  have hdvd (j : Nat) (h : 2 ^ (24 + j) ≤ u.natAbs) : ∃ m, u = m * 2 ^ j := by
    have hle : 2 * binary32.binade * 2 ^ j ≤ binary32.units p := by
      rw [hwidth, ← Nat.pow_add, ← habs]
      exact h
    have hnat := pow_dvd_units hle
    rw [← habs, ← Int.natCast_dvd] at hnat
    obtain ⟨m, hm⟩ := hnat
    exact ⟨m, by rw [hm, Int.mul_comm]; push_cast; rfl⟩
  rw [← hu] at ht
  rcases Nat.lt_or_ge u.natAbs (2 ^ 147) with hsmall | hge
  · exact .inl (by omega)
  rcases Nat.lt_or_ge u.natAbs (2 ^ 174) with hmiddle | hge'
  · obtain ⟨m, rfl⟩ := hdvd 123 hge
    exact .inr (.inl ⟨m + 2 ^ 25, 123, by omega, by omega, by omega⟩)
  rcases Nat.lt_or_ge u.natAbs (2 ^ 190) with hlarge | hfar
  · obtain ⟨m, rfl⟩ := hdvd 149 (by omega)
    exact .inr (.inl ⟨2 * m + 1, 148, by omega, by omega, by omega⟩)
  · exact .inr (.inr (by omega))

/-! ### The result -/

theorem clampInt32_of_ge {v : Int} (h : 2147483647 ≤ v) : Word.clampInt32 v = Int32.maxValue := by
  rw [Word.clampInt32, Int.min_eq_left h]
  rfl

theorem clampInt32_of_le {v : Int} (h : v ≤ -2147483648) : Word.clampInt32 v = Int32.minValue := by
  rw [Word.clampInt32, Int.min_eq_right (by omega), Int.max_eq_left h]
  rfl

theorem truncate_floor {r : Nat} (hfinite : r < binary64.infinity) (negative : Bool) :
    Word.truncate (binary64.floor (.finite negative r)) =
      Word.clampInt32 (binary64.signedUnits negative r / binary64.one) := by
  obtain ⟨q, hfloor, hq⟩ := exists_floor_exact even_binade_binary64 (by decide) hfinite negative
  have hone : (binary64.one : Int) ≠ 0 := by exact_mod_cast Nat.ne_of_gt binary64.one_pos
  have htruncate : Word.truncate (.finite negative q) =
      Word.clampInt32 ((binary64.signedUnits negative q).tdiv binary64.one) := rfl
  rw [hfloor, htruncate, hq, Int.mul_tdiv_cancel _ hone]

theorem natAbs_scaled (t : Int) : (t * 2 ^ finer).natAbs = t.natAbs * 2 ^ finer := by
  rw [Int.natAbs_mul, Int.natAbs_pow]
  rfl

theorem ediv_one_binary64 (t : Int) : t * 2 ^ finer / binary64.one = t / 2 ^ 149 := by
  have hone : (binary64.one : Int) = 2 ^ 149 * 2 ^ finer := by
    rw [one_binary64]
    push_cast
    rfl
  rw [hone]
  exact Int.mul_ediv_mul_of_pos_left _ _ (by positivity)

section
variable {a b : Bool} {p q : Nat} {t : Int}

theorem floor_sum_exact (hsum : binary64.signedUnits a p + binary64.signedUnits b q = t * 2 ^ finer)
    (h : binary64.Representable (t.natAbs * 2 ^ finer)) :
    Word.truncate (binary64.floor (binary64.add (.finite a p) (.finite b q))) =
      Word.clampInt32 (t / 2 ^ 149) := by
  rw [← natAbs_scaled] at h
  obtain ⟨negative, r, hadd, hfinite, hr⟩ := exists_add_exact even_binade_binary64 hsum h
  rw [hadd, truncate_floor hfinite, hr, ediv_one_binary64]

theorem exists_sum_between
    (hsum : binary64.signedUnits a p + binary64.signedUnits b q = t * 2 ^ finer)
    (low i high j : Nat) (hpos : 0 < low) (hlow : low < 2 ^ 53) (hi : i ≤ 1000)
    (hhigh : high < 2 ^ 53) (hj : j ≤ 1000) (hle : low * 2 ^ i ≤ t.natAbs)
    (hge : t.natAbs ≤ high * 2 ^ j) :
    ∃ r, binary64.add (.finite a p) (.finite b q) = .finite (decide (t < 0)) r ∧
      r < binary64.infinity ∧ low * 2 ^ i * 2 ^ finer ≤ binary64.units r ∧
      binary64.units r ≤ high * 2 ^ j * 2 ^ finer := by
  have hfiner := finer_eq
  have hbelow : binary64.Representable (low * 2 ^ (i + finer)) :=
    representable_double hlow (by omega)
  have habove : binary64.Representable (high * 2 ^ (j + finer)) :=
    representable_double hhigh (by omega)
  rw [Nat.pow_add, ← Nat.mul_assoc] at hbelow habove
  have hpow : (0 : Int) < 2 ^ finer := by positivity
  have hsign : decide (t * 2 ^ finer < 0) = decide (t < 0) :=
    decide_eq_decide.2 ⟨fun h => neg_of_mul_neg_left h hpow.le,
      fun h => Int.mul_neg_of_neg_of_pos h hpow⟩
  rw [← hsign]
  apply exists_add_between even_binade_binary64 hsum hbelow habove (by positivity)
  · rw [natAbs_scaled]
    exact Nat.mul_le_mul_right _ hle
  · rw [natAbs_scaled]
    exact Nat.mul_le_mul_right _ hge

theorem floor_sum_near (hsum : binary64.signedUnits a p + binary64.signedUnits b q = t * 2 ^ finer)
    (hlow : 2 ^ 147 ≤ t) (hhigh : t ≤ 3 * 2 ^ 147) :
    Word.truncate (binary64.floor (binary64.add (.finite a p) (.finite b q))) =
      Word.clampInt32 (t / 2 ^ 149) := by
  obtain ⟨r, hadd, hfinite, -, hge⟩ := exists_sum_between hsum 1 147 3 147
    (by omega) (by omega) (by omega) (by omega) (by omega) (by omega) (by omega)
  have hsign : decide (t < 0) = false := decide_eq_false (by omega)
  have hlt : binary64.units r < binary64.one := by
    rw [one_binary64]
    exact Nat.lt_of_le_of_lt hge
      (Nat.mul_lt_mul_of_pos_right (by decide) (Nat.pow_pos (by decide)))
  have hr : binary64.signedUnits false r / binary64.one = 0 := by
    rw [signedUnits_false]
    exact Int.ediv_eq_zero_of_lt (Int.natCast_nonneg _) (Int.ofNat_lt.2 hlt)
  have ht : t / 2 ^ 149 = 0 := Int.ediv_eq_zero_of_lt (by omega) (by omega)
  rw [hadd, hsign, truncate_floor hfinite, hr, ht]

theorem floor_sum_far (hsum : binary64.signedUnits a p + binary64.signedUnits b q = t * 2 ^ finer)
    (hlow : 2 ^ 189 ≤ t.natAbs) (hhigh : t.natAbs ≤ 2 ^ 25 * 2 ^ 254) :
    Word.truncate (binary64.floor (binary64.add (.finite a p) (.finite b q))) =
      Word.clampInt32 (t / 2 ^ 149) := by
  obtain ⟨r, hadd, hfinite, hle, -⟩ := exists_sum_between hsum 1 189 (2 ^ 25) 254
    (by omega) (by omega) (by omega) (by omega) (by omega) (by omega) hhigh
  have hone := binary64.one_pos
  have hwhole : 2 ^ 40 * binary64.one ≤ binary64.units r := by
    refine Nat.le_trans (Nat.le_of_eq ?_) hle
    rw [one_binary64]
    ring
  rw [hadd, truncate_floor hfinite]
  rcases Int.lt_or_le t 0 with hneg | hpos
  · have hr : binary64.signedUnits true r / binary64.one ≤ -2 ^ 40 := by
      apply Int.ediv_le_of_le_mul (by omega)
      rw [signedUnits_true]
      omega
    rw [decide_eq_true hneg, clampInt32_of_le (by omega), clampInt32_of_le (by omega)]
  · have hr : 2 ^ 40 ≤ binary64.signedUnits false r / binary64.one := by
      apply Int.le_ediv_of_mul_le (by omega)
      rw [signedUnits_false]
      omega
    rw [decide_eq_false (by omega), clampInt32_of_ge (by omega), clampInt32_of_ge (by omega)]

end

theorem roundHalfUp_eq {w : Word} {negative : Bool} {p : Nat}
    (hclass : w.floatClass = .finite negative p) (hfinite : p < binary32.infinity) :
    w.roundHalfUp = Word.clampInt32 ((binary32.signedUnits negative p + 2 ^ 148) / 2 ^ 149) := by
  obtain ⟨q, hconvert, hq⟩ := exists_convert_double hfinite negative
  obtain ⟨t, ht⟩ : ∃ t, binary32.signedUnits negative p + 2 ^ 148 = t := ⟨_, rfl⟩
  have hsum : binary64.signedUnits negative q + binary64.signedUnits false 0x3fe0000000000000 =
      t * 2 ^ finer := by
    rw [hq, signedUnits_half, ← ht]
    ring
  have hresult : w.roundHalfUp = Word.truncate (binary64.floor
      (binary64.add (.finite negative q) (.finite false 0x3fe0000000000000))) := by
    rw [Word.roundHalfUp, hclass, hconvert]
    rfl
  rw [hresult, ht]
  rcases sum_cases negative p ht with ⟨hlow, hhigh⟩ | ⟨m, s, hm, hs, rfl⟩ | hfar
  · exact floor_sum_near hsum hlow hhigh
  · apply floor_sum_exact hsum
    rw [Int.natAbs_mul, Int.natAbs_pow, Nat.mul_assoc]
    show binary64.Representable (m.natAbs * (2 ^ s * 2 ^ finer))
    rw [← Nat.pow_add]
    exact representable_double hm (by rw [finer_eq]; omega)
  · apply floor_sum_far hsum hfar
    have habs := binary32.natAbs_signedUnits negative p
    have htop : binary32.units p ≤ binary32.units binary32.infinity :=
      binary32.units_strictMono.monotone (Nat.le_of_lt hfinite)
    have hinfinity : binary32.units binary32.infinity = 2 ^ 23 * 2 ^ 254 := by decide
    omega

/-! ### Values of words -/

namespace Word

def exponentField (w : Word) : Nat := w.toNat / 2 ^ 23 % 2 ^ 8

def fractionField (w : Word) : Nat := w.toNat % 2 ^ 23

def isNegative (w : Word) : Bool := 2 ^ 31 ≤ w.toNat

/-- The size of the number a finite float stands for. Only floats with the least exponent lack the
leading one. -/
def magnitude (w : Word) : ℚ :=
  if w.exponentField = 0 then w.fractionField / 2 ^ 23 * 2 ^ (-126 : ℤ)
  else (1 + w.fractionField / 2 ^ 23) * 2 ^ ((w.exponentField : ℤ) - 127)

/-- The number a finite float stands for. -/
def value (w : Word) : ℚ := if w.isNegative then -w.magnitude else w.magnitude

variable {w : Word}

theorem floatClass_of_finite (h : w.exponentField ≠ 255) :
    w.floatClass = .finite w.isNegative (w.toNat % 2 ^ 31) ∧
      w.toNat % 2 ^ 31 < binary32.infinity := by
  have hlt := w.toNat_lt
  have hfinite : w.toNat % 2 ^ 31 < binary32.infinity := by
    have hinfinity : binary32.infinity = 255 * 2 ^ 23 := by decide
    unfold exponentField at h
    omega
  exact ⟨if_pos hfinite, hfinite⟩

theorem floatClass_of_nan (h : w.exponentField = 255) (hfraction : w.fractionField ≠ 0) :
    w.floatClass = .nan := by
  have hinfinity : binary32.infinity = 255 * 2 ^ 23 := by decide
  have hgt : binary32.infinity < w.toNat % binary32.signBit := by
    show _ < w.toNat % 2 ^ 31
    unfold exponentField at h
    unfold fractionField at hfraction
    omega
  simp only [floatClass, classify]
  rw [if_neg (Nat.lt_asymm hgt), if_neg (Nat.ne_of_gt hgt)]

theorem units_eq (w : Word) :
    binary32.units (w.toNat % 2 ^ 31) =
      if w.exponentField = 0 then w.fractionField
      else (2 ^ 23 + w.fractionField) * 2 ^ (w.exponentField - 1) := by
  have hexponent : w.toNat % 2 ^ 31 / 2 ^ 23 = w.exponentField := by
    unfold exponentField
    omega
  have hfraction : w.toNat % 2 ^ 31 % 2 ^ 23 = w.fractionField := by
    unfold fractionField
    omega
  rw [← hexponent, ← hfraction]
  rfl

theorem magnitude_eq (w : Word) :
    w.magnitude = (binary32.units (w.toNat % 2 ^ 31) : ℚ) / 2 ^ 149 := by
  rw [magnitude, units_eq]
  split
  case isTrue =>
    have hpow : (2 : ℚ) ^ (-126 : ℤ) = 1 / 2 ^ 126 := by norm_num
    rw [hpow]
    ring
  case isFalse hne =>
    obtain ⟨e, he⟩ : ∃ e, w.exponentField = e + 1 := ⟨w.exponentField - 1, by omega⟩
    have hsub : ((e + 1 : Nat) : ℤ) - 127 = e - 126 := by
      push_cast
      ring
    rw [he, hsub, zpow_sub₀ (by norm_num), zpow_natCast, Nat.add_sub_cancel]
    push_cast
    norm_num
    ring

theorem value_eq (w : Word) :
    w.value = (binary32.signedUnits w.isNegative (w.toNat % 2 ^ 31) : ℚ) / 2 ^ 149 := by
  rw [value, magnitude_eq]
  cases w.isNegative with
  | true => simp [signedUnits_true, neg_div]
  | false => simp [signedUnits_false]

theorem toInt_clampInt32 (v : Int) :
    (clampInt32 v).toInt = max (-2 ^ 31) (min (2 ^ 31 - 1) v) := by
  rw [clampInt32, Int32.toInt_ofInt_of_le (by omega) (by omega)]
  rfl

theorem toInt_roundHalfUp (h : w.exponentField ≠ 255) :
    w.roundHalfUp.toInt = max (-2 ^ 31) (min (2 ^ 31 - 1) ⌊w.value + 1 / 2⌋) := by
  obtain ⟨hclass, hfinite⟩ := floatClass_of_finite h
  have hfloor : ⌊w.value + 1 / 2⌋ =
      (binary32.signedUnits w.isNegative (w.toNat % 2 ^ 31) + 2 ^ 148) / 2 ^ 149 := by
    have hsum : w.value + 1 / 2 =
        ((binary32.signedUnits w.isNegative (w.toNat % 2 ^ 31) + 2 ^ 148 : Int) : ℚ) /
          ((2 ^ 149 : Nat) : ℚ) := by
      rw [value_eq]
      push_cast
      ring
    rw [hsum, Rat.floor_intCast_div_natCast]
    rfl
  rw [roundHalfUp_eq hclass hfinite, toInt_clampInt32, hfloor]

end Word

/-- Rounding is exact: every finite float gives the floor of its value and one half, clamped to the
signed range, which infinities end at; a NaN gives zero. So it is monotone, and a value in the range
is moved by at most one half, down by less. -/
theorem rounds_half_up_exactly :
    (∀ w : Word, w.exponentField ≠ 255 →
      w.roundHalfUp.toInt = max (-2 ^ 31) (min (2 ^ 31 - 1) ⌊w.value + 1 / 2⌋)) ∧
    (Word.roundHalfUp ⟨0x7f800000⟩).toInt = 2 ^ 31 - 1 ∧
    (Word.roundHalfUp ⟨0xff800000⟩).toInt = -2 ^ 31 ∧
    (∀ w : Word, w.exponentField = 255 → w.fractionField ≠ 0 → w.roundHalfUp.toInt = 0) ∧
    (∀ v w : Word, v.exponentField ≠ 255 → w.exponentField ≠ 255 → v.value ≤ w.value →
      v.roundHalfUp.toInt ≤ w.roundHalfUp.toInt) ∧
    ∀ w : Word, w.exponentField ≠ 255 → -2 ^ 31 ≤ w.value → w.value ≤ 2 ^ 31 - 1 →
      -(1 / 2) < w.roundHalfUp.toInt - w.value ∧ w.roundHalfUp.toInt - w.value ≤ 1 / 2 := by
  refine ⟨fun w => Word.toInt_roundHalfUp, by decide +kernel, by decide +kernel, ?_, ?_, ?_⟩
  · intro w hexponent hfraction
    rw [Word.roundHalfUp, Word.floatClass_of_nan hexponent hfraction]
    rfl
  · intro v w hv hw hle
    have hfloor : ⌊v.value + 1 / 2⌋ ≤ ⌊w.value + 1 / 2⌋ := Int.floor_le_floor (by linarith)
    rw [Word.toInt_roundHalfUp hv, Word.toInt_roundHalfUp hw]
    omega
  · intro w hw hlow hhigh
    have hge : -2 ^ 31 ≤ ⌊w.value + 1 / 2⌋ := by
      rw [Int.le_floor]
      push_cast
      linarith
    have hlt : ⌊w.value + 1 / 2⌋ < 2 ^ 31 := by
      rw [Int.floor_lt]
      push_cast
      linarith
    have hround : w.roundHalfUp.toInt = ⌊w.value + 1 / 2⌋ := by
      rw [Word.toInt_roundHalfUp hw]
      omega
    have hbelow := Int.floor_le (w.value + 1 / 2)
    have habove := Int.lt_floor_add_one (w.value + 1 / 2)
    rw [hround]
    exact ⟨by linarith, by linarith⟩

/-- The last float below one half, which adding in single precision would round to one, a NaN with
a payload, and the step from below one half to it. -/
theorem below_one_half_rounds_exactly :
    (Word.roundHalfUp ⟨0x3effffff⟩).toInt =
        max (-2 ^ 31) (min (2 ^ 31 - 1) ⌊Word.value ⟨0x3effffff⟩ + 1 / 2⌋) ∧
      (Word.roundHalfUp ⟨0x7f800001⟩).toInt = 0 ∧
      (Word.roundHalfUp ⟨0x3effffff⟩).toInt ≤ (Word.roundHalfUp ⟨0x3f000000⟩).toInt ∧
      -(1 / 2) < (Word.roundHalfUp ⟨0x3effffff⟩).toInt - Word.value ⟨0x3effffff⟩ ∧
      (Word.roundHalfUp ⟨0x3effffff⟩).toInt - Word.value ⟨0x3effffff⟩ ≤ 1 / 2 := by
  obtain ⟨hfinite, -, -, hnan, hmono, herror⟩ := rounds_half_up_exactly
  exact ⟨hfinite _ (by decide), hnan _ (by decide) (by decide),
    hmono _ _ (by decide) (by decide) (by decide +kernel),
    herror _ (by decide) (by decide +kernel) (by decide +kernel)⟩

end RegisterMachine
