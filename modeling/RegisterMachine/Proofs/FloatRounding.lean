import Mathlib.Order.Monotone.Basic
import Mathlib.Tactic.Linarith
import Mathlib.Tactic.Ring
import RegisterMachine.Proofs.Numerals

/-!
# Rounding decimals to floats

Reading a decimal rounds to the nearest float, and the shortest decimal of a float lies among the
numbers that round to it. Magnitudes are counted in units and compared after cross-multiplication,
so every step is about natural numbers.
-/

namespace RegisterMachine.Number

/-- Every number between the midpoints around an integer is rounded to it; the midpoints
themselves are if it is even. -/
theorem roundHalfEven_eq {num den n : Nat} (hden : 0 < den)
    (hlow : 2 * (n * den) ≤ 2 * num + den) (hhigh : 2 * num ≤ 2 * (n * den) + den)
    (hodd : n % 2 = 1 → 2 * (n * den) < 2 * num + den ∧ 2 * num < 2 * (n * den) + den) :
    roundHalfEven num den = n := by
  have hdiv : num / den * den + num % den = num := Nat.div_add_mod' num den
  have hmod : num % den < den := Nat.mod_lt num hden
  have hle : num / den ≤ n := by
    by_contra hlt
    have hmul : (n + 1) * den ≤ num / den * den := Nat.mul_le_mul_right den (by omega)
    rw [Nat.add_mul, Nat.one_mul] at hmul
    omega
  have hge : n ≤ num / den + 1 := by
    by_contra hlt
    have hmul : (num / den + 2) * den ≤ n * den := Nat.mul_le_mul_right den (by omega)
    rw [Nat.add_mul] at hmul
    omega
  rcases Nat.eq_or_lt_of_le hle with hn | hlt
  · subst hn
    simp only [roundHalfEven]
    split
    · rfl
    · split
      · omega
      · split
        · rfl
        · have := hodd (by omega)
          omega
  · obtain rfl : n = num / den + 1 := by omega
    have hmul : (num / den + 1) * den = num / den * den + den := by rw [Nat.add_mul, Nat.one_mul]
    simp only [hmul] at *
    simp only [roundHalfEven]
    split
    · omega
    · split
      · rfl
      · split
        · have := hodd (by omega)
          omega
        · rfl

namespace BinaryFormat

variable {f : BinaryFormat}

theorem binade_pos (f : BinaryFormat) : 0 < f.binade := Nat.pow_pos (by decide)

/-- The magnitude of a significand `n` shifted by `t`. The first significand of a binade may also
be written as the one past the last of the binade before. -/
theorem units_shift {t n : Nat} (hn : n ≤ 2 * f.binade) (ht : t = 0 ∨ f.binade ≤ n) :
    f.units (t * f.binade + n) = n * 2 ^ t := by
  have hpos := f.binade_pos
  rcases Nat.lt_or_ge n f.binade with hlt | hge
  · obtain rfl : t = 0 := by omega
    simp [units, Nat.div_eq_of_lt hlt, Nat.mod_eq_of_lt hlt]
  · rcases Nat.lt_or_ge n (2 * f.binade) with hlt' | hge'
    · obtain ⟨m, rfl⟩ : ∃ m, n = f.binade + m := ⟨n - f.binade, by omega⟩
      have hm : m < f.binade := by omega
      have hpattern : t * f.binade + (f.binade + m) = m + f.binade * (t + 1) := by ring
      have hdiv : (m + f.binade * (t + 1)) / f.binade = t + 1 := by
        rw [Nat.add_mul_div_left _ _ hpos, Nat.div_eq_of_lt hm, Nat.zero_add]
      have hmod : (m + f.binade * (t + 1)) % f.binade = m := by
        rw [Nat.add_mul_mod_self_left, Nat.mod_eq_of_lt hm]
      simp [units, hpattern, hdiv, hmod]
    · obtain rfl : n = 2 * f.binade := by omega
      have hpattern : t * f.binade + 2 * f.binade = f.binade * (t + 2) := by ring
      simp only [units, hpattern, Nat.mul_div_cancel_left _ hpos, Nat.mul_mod_right]
      rw [if_neg (by omega)]
      show f.binade * 2 ^ (t + 1) = 2 * f.binade * 2 ^ t
      ring

theorem exists_shift (f : BinaryFormat) (p : Nat) :
    ∃ t n, p = t * f.binade + n ∧ n < 2 * f.binade ∧ (t = 0 ∨ f.binade ≤ n) := by
  have hpos := f.binade_pos
  have hmod := Nat.mod_lt p hpos
  have hdiv : p / f.binade * f.binade + p % f.binade = p := Nat.div_add_mod' p f.binade
  rcases Nat.eq_zero_or_pos (p / f.binade) with hzero | hexp
  · exact ⟨0, p % f.binade, by rw [hzero] at hdiv; omega, by omega, .inl rfl⟩
  · obtain ⟨t, ht⟩ : ∃ t, p / f.binade = t + 1 := ⟨p / f.binade - 1, by omega⟩
    refine ⟨t, f.binade + p % f.binade, ?_, by omega, .inr (by omega)⟩
    rw [ht, Nat.add_mul] at hdiv
    omega

theorem units_lt_succ (p : Nat) : f.units p < f.units (p + 1) := by
  obtain ⟨t, n, rfl, hn, ht⟩ := f.exists_shift p
  rw [Nat.add_assoc, units_shift (by omega) ht, units_shift (by omega) (by omega)]
  exact Nat.mul_lt_mul_of_pos_right (Nat.lt_succ_self n) (Nat.pow_pos (by decide))

theorem units_strictMono (f : BinaryFormat) : StrictMono f.units :=
  strictMono_nat_of_lt_succ fun p => f.units_lt_succ p

/-! ### Nearest pattern -/

/-- A quotient of `num / den` units that is rounded to a pattern: it lies between the midpoints to
the neighbours, and at a midpoint only if the pattern is even. -/
structure RoundsTo (f : BinaryFormat) (num den pattern : Nat) : Prop where
  lower : (f.units (pattern - 1) + f.units pattern) * den ≤ 2 * num
  upper : 2 * num ≤ (f.units pattern + f.units (pattern + 1)) * den
  even : (f.units (pattern - 1) + f.units pattern) * den = 2 * num ∨
    2 * num = (f.units pattern + f.units (pattern + 1)) * den → pattern % 2 = 0

theorem shift_le {num den t : Nat} (h : num < 2 * f.binade * 2 ^ t * den) :
    Nat.log2 (num / den) - f.fractionBits ≤ t := by
  by_cases hzero : num / den = 0
  · rw [hzero, Nat.log2_zero]
    omega
  · have hpow : 2 ^ (f.fractionBits + t + 1) = 2 * f.binade * 2 ^ t := by
      show _ = 2 * 2 ^ f.fractionBits * 2 ^ t
      ring
    have hlt : num / den < 2 ^ (f.fractionBits + t + 1) := by
      rw [hpow]
      exact Nat.div_lt_of_lt_mul (by rwa [Nat.mul_comm])
    have hlog := (Nat.log2_lt hzero).2 hlt
    omega

theorem le_shift {num den t : Nat} (hden : 0 < den) (h : f.binade * 2 ^ t * den ≤ num) :
    t ≤ Nat.log2 (num / den) - f.fractionBits := by
  have hpow : 2 ^ (f.fractionBits + t) = f.binade * 2 ^ t := by
    show _ = 2 ^ f.fractionBits * 2 ^ t
    ring
  have hle : 2 ^ (f.fractionBits + t) ≤ num / den := by
    rw [hpow]
    exact (Nat.le_div_iff_mul_le hden).2 h
  have hpos : 0 < 2 ^ (f.fractionBits + t) := Nat.pow_pos (by decide)
  have hlog := (Nat.le_log2 (by omega)).2 hle
  omega

theorem nearest_of_shift {num den s r : Nat}
    (hs : Nat.log2 (num / den) - f.fractionBits = s) (hr : roundHalfEven num (2 ^ s * den) = r)
    (hfinite : s * f.binade + r < f.infinity) : f.nearest num den = s * f.binade + r := by
  have hr' : roundHalfEven num (den * Nat.pow 2 s) = r := by
    rw [Nat.mul_comm]
    exact hr
  simp only [nearest, hs, hr']
  exact Nat.min_eq_right (Nat.le_of_lt hfinite)

/-! In a binade the magnitudes are whole steps of `2 ^ t * den`. Only the midpoint below the first
magnitude of a binade is half a step closer. -/

/-- The midpoints around a pattern that is not the first of its binade. -/
theorem RoundsTo.inside {num den t m : Nat} (hm : m + 1 < 2 * f.binade)
    (ht : t = 0 ∨ f.binade ≤ m) (h : f.RoundsTo num den (t * f.binade + (m + 1))) :
    2 * (m * (2 ^ t * den)) + 2 ^ t * den ≤ 2 * num ∧
      2 * num ≤ 2 * (m * (2 ^ t * den)) + 3 * (2 ^ t * den) ∧
      (2 * (m * (2 ^ t * den)) + 2 ^ t * den = 2 * num ∨
        2 * num = 2 * (m * (2 ^ t * den)) + 3 * (2 ^ t * den) →
          (t * f.binade + (m + 1)) % 2 = 0) := by
  have hbelow : f.units (t * f.binade + (m + 1) - 1) = m * 2 ^ t := by
    rw [← Nat.add_assoc, Nat.add_sub_cancel]
    exact units_shift (by omega) ht
  have hat : f.units (t * f.binade + (m + 1)) = (m + 1) * 2 ^ t :=
    units_shift (by omega) (by omega)
  have habove : f.units (t * f.binade + (m + 1) + 1) = (m + 2) * 2 ^ t := by
    rw [Nat.add_assoc]
    exact units_shift (by omega) (by omega)
  have hlow : (m * 2 ^ t + (m + 1) * 2 ^ t) * den = 2 * (m * (2 ^ t * den)) + 2 ^ t * den := by ring
  have hhigh : ((m + 1) * 2 ^ t + (m + 2) * 2 ^ t) * den =
      2 * (m * (2 ^ t * den)) + 3 * (2 ^ t * den) := by ring
  obtain ⟨hlower, hupper, heven⟩ := h
  rw [hbelow, hat, hlow] at hlower
  rw [hat, habove, hhigh] at hupper
  rw [hbelow, hat, habove, hlow, hhigh] at heven
  exact ⟨hlower, hupper, heven⟩

/-- The midpoints around the first pattern of a binade, in steps of the binade below. -/
theorem RoundsTo.first {num den t : Nat}
    (h : f.RoundsTo num den ((t + 1) * f.binade + f.binade)) :
    4 * (f.binade * (2 ^ t * den)) ≤ 2 * num + 2 ^ t * den ∧
      2 * num ≤ 4 * (f.binade * (2 ^ t * den)) + 2 * (2 ^ t * den) := by
  have hpos := f.binade_pos
  have hbelow : f.units ((t + 1) * f.binade + f.binade - 1) = (2 * f.binade - 1) * 2 ^ t := by
    have hpattern : (t + 1) * f.binade + f.binade - 1 = t * f.binade + (2 * f.binade - 1) := by
      rw [Nat.add_mul]
      omega
    rw [hpattern]
    exact units_shift (by omega) (by omega)
  have hat : f.units ((t + 1) * f.binade + f.binade) = f.binade * 2 ^ (t + 1) :=
    units_shift (by omega) (by omega)
  have habove : f.units ((t + 1) * f.binade + f.binade + 1) = (f.binade + 1) * 2 ^ (t + 1) := by
    rw [Nat.add_assoc]
    exact units_shift (by omega) (by omega)
  have hlow : ((2 * f.binade - 1) * 2 ^ t + f.binade * 2 ^ (t + 1)) * den + 2 ^ t * den =
      4 * (f.binade * (2 ^ t * den)) := by
    have hsucc : 2 * f.binade - 1 + 1 = 2 * f.binade := by omega
    calc ((2 * f.binade - 1) * 2 ^ t + f.binade * 2 ^ (t + 1)) * den + 2 ^ t * den
        = (2 * f.binade - 1 + 1) * (2 ^ t * den) + 2 * (f.binade * (2 ^ t * den)) := by ring
      _ = 4 * (f.binade * (2 ^ t * den)) := by rw [hsucc]; ring
  have hhigh : (f.binade * 2 ^ (t + 1) + (f.binade + 1) * 2 ^ (t + 1)) * den =
      4 * (f.binade * (2 ^ t * den)) + 2 * (2 ^ t * den) := by ring
  have hlower := h.lower
  have hupper := h.upper
  rw [hbelow, hat] at hlower
  rw [hat, habove, hhigh] at hupper
  exact ⟨by omega, hupper⟩

/-- A pattern that is not the first of its binade: the quotient is as wide as its significand. -/
theorem nearest_inside {num den t m : Nat} (hden : 0 < den) (heven : f.binade % 2 = 0)
    (hm : m + 1 < 2 * f.binade) (ht : t = 0 ∨ f.binade ≤ m)
    (hfinite : t * f.binade + (m + 1) < f.infinity)
    (h : f.RoundsTo num den (t * f.binade + (m + 1))) :
    f.nearest num den = t * f.binade + (m + 1) := by
  obtain ⟨hlow, hhigh, htie⟩ := h.inside hm ht
  have hstep : 0 < 2 ^ t * den := Nat.mul_pos (Nat.pow_pos (by decide)) hden
  have hat : (m + 1) * (2 ^ t * den) = m * (2 ^ t * den) + 2 ^ t * den := by ring
  have hshift : Nat.log2 (num / den) - f.fractionBits = t := by
    have hle : Nat.log2 (num / den) - f.fractionBits ≤ t := by
      have hmul : (m + 2) * (2 ^ t * den) ≤ 2 * f.binade * (2 ^ t * den) :=
        Nat.mul_le_mul_right _ (by omega)
      rw [Nat.add_mul] at hmul
      apply shift_le
      rw [Nat.mul_assoc]
      omega
    rcases ht with rfl | hge
    · omega
    · have hmul : f.binade * (2 ^ t * den) ≤ m * (2 ^ t * den) := Nat.mul_le_mul_right _ hge
      have hge' : t ≤ Nat.log2 (num / den) - f.fractionBits := by
        apply le_shift hden
        rw [Nat.mul_assoc]
        omega
      omega
  have hround : roundHalfEven num (2 ^ t * den) = m + 1 := by
    refine roundHalfEven_eq hstep (by omega) (by omega) fun hodd => ?_
    have hparity : (t * f.binade + (m + 1)) % 2 = 1 := by
      rw [Nat.add_mod, Nat.mul_mod, heven, Nat.mul_zero, Nat.zero_mod, Nat.zero_add, Nat.mod_mod]
      exact hodd
    omega
  exact nearest_of_shift hshift hround hfinite

/-- The first pattern of a binade: a quotient below its value is narrower by a bit, and rounding
carries it into the binade. -/
theorem nearest_first {num den t : Nat} (hden : 0 < den) (heven : f.binade % 2 = 0)
    (hfinite : (t + 1) * f.binade + f.binade < f.infinity)
    (h : f.RoundsTo num den ((t + 1) * f.binade + f.binade)) :
    f.nearest num den = (t + 1) * f.binade + f.binade := by
  obtain ⟨hlow, hhigh⟩ := h.first
  have hstep : 0 < 2 ^ t * den := Nat.mul_pos (Nat.pow_pos (by decide)) hden
  have hbinade : 2 ^ t * den ≤ f.binade * (2 ^ t * den) := Nat.le_mul_of_pos_left _ f.binade_pos
  have hwide : 2 ^ (t + 1) * den = 2 * (2 ^ t * den) := by ring
  have htwice : f.binade * (2 * (2 ^ t * den)) = 2 * (f.binade * (2 ^ t * den)) := by ring
  have hle : Nat.log2 (num / den) - f.fractionBits ≤ t + 1 := by
    apply shift_le
    rw [Nat.mul_assoc, hwide, Nat.mul_assoc, htwice]
    omega
  have hge : t ≤ Nat.log2 (num / den) - f.fractionBits := by
    apply le_shift hden
    rw [Nat.mul_assoc]
    omega
  rcases Nat.eq_or_lt_of_le hle with hshift | hlt
  · have hround : roundHalfEven num (2 ^ (t + 1) * den) = f.binade := by
      rw [hwide]
      exact roundHalfEven_eq (by omega) (by omega) (by omega) (by omega)
    exact nearest_of_shift hshift hround hfinite
  · have hshift : Nat.log2 (num / den) - f.fractionBits = t := by omega
    have hnum : num < 2 * (f.binade * (2 ^ t * den)) := by
      by_contra hnot
      have hge' : t + 1 ≤ Nat.log2 (num / den) - f.fractionBits := by
        apply le_shift hden
        rw [Nat.mul_assoc, hwide, htwice]
        omega
      omega
    have hround : roundHalfEven num (2 ^ t * den) = 2 * f.binade := by
      have hmul : 2 * f.binade * (2 ^ t * den) = 2 * (f.binade * (2 ^ t * den)) := by ring
      exact roundHalfEven_eq hstep (by omega) (by omega) (by omega)
    have hpattern : t * f.binade + 2 * f.binade = (t + 1) * f.binade + f.binade := by ring
    rw [nearest_of_shift hshift hround (by omega), hpattern]

theorem nearest_eq {num den p : Nat} (hden : 0 < den) (heven : f.binade % 2 = 0) (hp : 0 < p)
    (hfinite : p < f.infinity) (h : f.RoundsTo num den p) : f.nearest num den = p := by
  obtain ⟨t, n, rfl, hn, ht⟩ := f.exists_shift p
  rcases Nat.eq_zero_or_pos t with rfl | hpos
  · obtain ⟨m, rfl⟩ : ∃ m, n = m + 1 := ⟨n - 1, by omega⟩
    exact nearest_inside hden heven hn (.inl rfl) hfinite h
  · rcases Nat.eq_or_lt_of_le (ht.resolve_left (by omega)) with rfl | hlt
    · obtain ⟨t, rfl⟩ : ∃ u, t = u + 1 := ⟨t - 1, by omega⟩
      exact nearest_first hden heven hfinite h
    · obtain ⟨m, rfl⟩ : ∃ m, n = m + 1 := ⟨n - 1, by omega⟩
      exact nearest_inside hden heven hn (.inr (by omega)) hfinite h

end BinaryFormat

/-! ### Shortest decimals -/

namespace RoundingInterval

theorem contains_iff {i : RoundingInterval} {x : Nat} :
    i.contains x = true ↔
      i.lower ≤ x ∧ x ≤ i.upper ∧ (i.lower = x ∨ x = i.upper → i.closed = true) := by
  unfold contains
  cases hclosed : i.closed with
  | true => simp
  | false =>
    simp only [Bool.false_eq_true, if_false, Bool.and_eq_true, decide_eq_true_eq, imp_false, not_or]
    omega

theorem contains_of_pick? {i : RoundingInterval} {tie : Tie} {step count : Nat}
    (h : i.pick? tie step = some count) : i.contains (count * step) = true := by
  unfold pick? at h
  simp only at h
  split at h
  case h_1 => cases h
  case h_2 hbelow _ =>
    cases h
    exact hbelow
  case h_3 _ habove =>
    cases h
    exact habove
  case h_4 hbelow habove =>
    have hcount : count = i.value / step ∨ count = i.value / step + 1 := by
      split at h
      · exact .inl (Option.some.inj h).symm
      · split at h
        · exact .inr (Option.some.inj h).symm
        · split at h
          · exact .inr (Option.some.inj h).symm
          · split at h
            · exact .inl (Option.some.inj h).symm
            · exact .inr (Option.some.inj h).symm
    rcases hcount with rfl | rfl
    · exact hbelow
    · exact habove

/-- The search ends at a number of the interval, since the value itself is one. -/
theorem contains_coarsest {i : RoundingInterval} (hvalue : i.contains i.value = true) (tie : Tie)
    (k : Nat) : i.contains ((i.coarsest tie k).1 * 10 ^ (i.coarsest tie k).2) = true := by
  induction k with
  | zero => simpa [coarsest] using hvalue
  | succ k ih =>
    rw [coarsest]
    cases hpick : i.pick? tie (Nat.pow 10 (k + 1)) with
    | none => exact ih
    | some count => exact contains_of_pick? hpick

variable {f : BinaryFormat} {p : Nat}

theorem contains_value (hp : 0 < p) : (ofPattern f p).contains (ofPattern f p).value = true := by
  have hbelow : f.units (p - 1) < f.units p := f.units_strictMono (by omega)
  have habove : f.units p < f.units (p + 1) := f.units_lt_succ p
  have hhalf : 0 < halfUnit f := Nat.pow_pos (by decide)
  have hlow : (f.units (p - 1) + f.units p) * halfUnit f < 2 * f.units p * halfUnit f :=
    Nat.mul_lt_mul_of_pos_right (by omega) hhalf
  have hhigh : 2 * f.units p * halfUnit f < (f.units p + f.units (p + 1)) * halfUnit f :=
    Nat.mul_lt_mul_of_pos_right (by omega) hhalf
  refine contains_iff.2 ⟨Nat.le_of_lt hlow, Nat.le_of_lt hhigh, ?_⟩
  rintro (heq | heq)
  · exact absurd heq (Nat.ne_of_lt hlow)
  · exact absurd heq (Nat.ne_of_lt hhigh)

/-- A decimal whose value is in the interval of a pattern is rounded to the pattern. -/
theorem roundsTo_of_contains {x d k : Nat} (h : (ofPattern f p).contains x = true)
    (hvalue : d * 10 ^ (f.scale + 1) = x * 10 ^ k) :
    f.RoundsTo (d * f.one) (10 ^ k) p := by
  have hhalf : 0 < halfUnit f := Nat.pow_pos (by decide)
  have hpow : 0 < 10 ^ k := Nat.pow_pos (by decide)
  have hx : x * 10 ^ k = 2 * (d * f.one) * halfUnit f := by
    rw [← hvalue]
    show d * 10 ^ (f.scale + 1) = 2 * (d * 2 ^ f.scale) * 5 ^ (f.scale + 1)
    have hten : 10 ^ (f.scale + 1) = 2 ^ (f.scale + 1) * 5 ^ (f.scale + 1) := by
      rw [← Nat.mul_pow]
    rw [hten]
    ring
  have hle (u : Nat) : u * halfUnit f ≤ x ↔ u * 10 ^ k ≤ 2 * (d * f.one) := by
    rw [← Nat.mul_le_mul_right_iff hpow, hx, Nat.mul_right_comm, Nat.mul_le_mul_right_iff hhalf]
  have hge (u : Nat) : x ≤ u * halfUnit f ↔ 2 * (d * f.one) ≤ u * 10 ^ k := by
    rw [← Nat.mul_le_mul_right_iff hpow, hx, Nat.mul_right_comm u, Nat.mul_le_mul_right_iff hhalf]
  obtain ⟨hlow, hhigh, hends⟩ := contains_iff.1 h
  refine ⟨(hle _).1 hlow, (hge _).1 hhigh, fun htie => ?_⟩
  have hclosed : (ofPattern f p).closed = true := by
    apply hends
    rcases htie with heq | heq
    · exact .inl (Nat.le_antisymm hlow ((hge _).2 (Nat.le_of_eq heq.symm)))
    · exact .inr (Nat.le_antisymm hhigh ((hle _).2 (Nat.le_of_eq heq.symm)))
  exact eq_of_beq hclosed

end RoundingInterval

theorem lt_pow_length_digits (n : Nat) : n < 10 ^ (Text.digits n).length :=
  (Nat.length_toDigits_le_iff (by decide) Nat.length_toDigits_pos).1 (Nat.le_refl _)

namespace BinaryFormat

variable {f : BinaryFormat}

/-- What reading needs of a format: a fraction, so that binades begin at even patterns, and no
magnitude up to ten to the power `scale`. -/
structure Regular (f : BinaryFormat) : Prop where
  even : f.binade % 2 = 0
  bounded : f.units f.infinity < f.one * 10 ^ f.scale

theorem regular_binary32 : binary32.Regular where
  even := by decide
  bounded := by decide +kernel

theorem RoundsTo.lt_pow (hf : f.Regular) {d k p : Nat} (hfinite : p < f.infinity)
    (h : f.RoundsTo (d * f.one) (10 ^ k) p) : d < 10 ^ (f.scale + k) := by
  have hlast : f.units p ≤ f.units f.infinity := f.units_strictMono.monotone (Nat.le_of_lt hfinite)
  have hnext : f.units (p + 1) ≤ f.units f.infinity := f.units_strictMono.monotone hfinite
  have hupper := h.upper
  have hmul : (f.units p + f.units (p + 1)) * 10 ^ k ≤ 2 * f.units f.infinity * 10 ^ k :=
    Nat.mul_le_mul_right _ (by omega)
  have hbounded : f.units f.infinity * 10 ^ k < f.one * 10 ^ f.scale * 10 ^ k :=
    Nat.mul_lt_mul_of_pos_right hf.bounded (Nat.pow_pos (by decide))
  have hlt : f.one * d < f.one * 10 ^ (f.scale + k) := by
    calc f.one * d = d * f.one := Nat.mul_comm _ _
      _ ≤ f.units f.infinity * 10 ^ k := by rw [Nat.mul_assoc] at hmul; omega
      _ < f.one * 10 ^ f.scale * 10 ^ k := hbounded
      _ = f.one * 10 ^ (f.scale + k) := by rw [Nat.pow_add, Nat.mul_assoc]
  exact Nat.lt_of_mul_lt_mul_left hlt

theorem RoundsTo.pow_le {d k p : Nat} (hp : 0 < p) (h : f.RoundsTo (d * f.one) (10 ^ k) p) :
    10 ^ k ≤ d * 2 ^ (f.scale + 1) := by
  have hunits : 0 < f.units p := Nat.lt_of_le_of_lt (Nat.zero_le _) (f.units_strictMono hp)
  calc 10 ^ k ≤ (f.units (p - 1) + f.units p) * 10 ^ k := Nat.le_mul_of_pos_left _ (by omega)
    _ ≤ 2 * (d * f.one) := h.lower
    _ = d * 2 ^ (f.scale + 1) := by
      show 2 * (d * 2 ^ f.scale) = _
      ring

/-- A decimal with a fraction is read as the pattern it is rounded to; the guards against far
powers do not cut it off. -/
theorem ofDecimal_eq (hf : f.Regular) {d j p : Nat} (hp : 0 < p) (hfinite : p < f.infinity)
    (h : f.RoundsTo (d * f.one) (10 ^ (j + 1)) p) : f.ofDecimal ⟨d, .negSucc j⟩ = p := by
  have hpow : 0 < 10 ^ (j + 1) := Nat.pow_pos (by decide)
  have hpow_le := h.pow_le hp
  have hd : 0 < d := by
    rcases Nat.eq_zero_or_pos d with rfl | hd
    · omega
    · exact hd
  have hhigh : (Text.digits d).length ≤ f.scale + (j + 1) :=
    (Nat.length_toDigits_le_iff (by decide) (by omega)).2 (h.lt_pow hf hfinite)
  have hlow : j + 1 < (Text.digits d).length + (f.scale + 1) := by
    have hlt : 10 ^ (j + 1) < 10 ^ ((Text.digits d).length + (f.scale + 1)) := by
      calc 10 ^ (j + 1) ≤ d * 2 ^ (f.scale + 1) := hpow_le
        _ < 10 ^ (Text.digits d).length * 2 ^ (f.scale + 1) :=
          Nat.mul_lt_mul_of_pos_right (lt_pow_length_digits d) (Nat.pow_pos (by decide))
        _ ≤ 10 ^ (Text.digits d).length * 10 ^ (f.scale + 1) :=
          Nat.mul_le_mul_left _ (Nat.pow_le_pow_left (by decide) _)
        _ = 10 ^ ((Text.digits d).length + (f.scale + 1)) := (Nat.pow_add _ _ _).symm
    exact (Nat.pow_lt_pow_iff_right (by decide)).1 hlt
  simp only [ofDecimal]
  rw [if_neg (by omega), if_neg (by omega), if_neg (by omega)]
  exact nearest_eq hpow hf.even hp hfinite h

/-- The shortest decimal is among the numbers that are rounded to the pattern. -/
theorem shortest_contains (tie : Tie) {p : Nat} (hp : 0 < p) :
    ∃ k : Nat, (f.shortest tie p).exponent = k - (f.scale + 1) ∧
      (RoundingInterval.ofPattern f p).contains ((f.shortest tie p).digits * 10 ^ k) = true :=
  ⟨_, rfl, RoundingInterval.contains_coarsest (RoundingInterval.contains_value hp) tie _⟩

/-- The shortest decimal, written out with `j + 1` digits after the point, is read as the pattern
it was made of. -/
theorem ofDecimal_shortest (hf : f.Regular) (tie : Tie) {d j p : Nat} (hp : 0 < p)
    (hfinite : p < f.infinity) (hplaces : 0 ≤ (f.shortest tie p).exponent + (j + 1))
    (hd : d = (f.shortest tie p).digits * 10 ^ ((f.shortest tie p).exponent + (j + 1)).toNat) :
    f.ofDecimal ⟨d, .negSucc j⟩ = p := by
  obtain ⟨k, hexponent, hcontains⟩ := f.shortest_contains tie hp
  have hvalue : d * 10 ^ (f.scale + 1) = (f.shortest tie p).digits * 10 ^ k * 10 ^ (j + 1) := by
    have hpowers : ((f.shortest tie p).exponent + (j + 1)).toNat + (f.scale + 1) = k + (j + 1) := by
      omega
    rw [hd, Nat.mul_assoc, Nat.mul_assoc, ← Nat.pow_add, ← Nat.pow_add, hpowers]
  exact ofDecimal_eq hf hp hfinite (RoundingInterval.roundsTo_of_contains hcontains hvalue)

end BinaryFormat

end RegisterMachine.Number
