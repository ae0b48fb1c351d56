import Mathlib.Data.Nat.Find
import RegisterMachine.Number.Arithmetic
import RegisterMachine.Proofs.FloatRounding

/-!
# Exact and rounded float operations

Rounding never leaves the floats around a number, so a result that is a float itself is kept, and
any other lies between whatever floats its exact value lies between. Whole numbers, widened floats
and floors are results of the first kind.
-/

namespace RegisterMachine.Number.BinaryFormat

variable {f : BinaryFormat}

theorem one_pos (f : BinaryFormat) : 0 < f.one := Nat.pow_pos (by decide)

/-- A whole number of units that is the magnitude of a finite float. -/
def Representable (f : BinaryFormat) (u : Nat) : Prop := ∃ p, p < f.infinity ∧ f.units p = u

/-- A number that fits the significand, shifted by any amount, is the magnitude of a pattern. -/
theorem exists_units {m : Nat} (hm : m < 2 * f.binade) (s : Nat) :
    ∃ p, p < (s + 2) * f.binade ∧ f.units p = m * 2 ^ s := by
  induction s generalizing m with
  | zero => exact ⟨0 * f.binade + m, by omega, units_shift (Nat.le_of_lt hm) (.inl rfl)⟩
  | succ s ih =>
    have hnext : (s + 1 + 2) * f.binade = (s + 1) * f.binade + 2 * f.binade := by ring
    rcases Nat.lt_or_ge m f.binade with hlt | hge
    · obtain ⟨p, hp, hunits⟩ := ih (m := 2 * m) (by omega)
      have hlast : (s + 2) * f.binade = (s + 1) * f.binade + f.binade := by ring
      exact ⟨p, by omega, by rw [hunits]; ring⟩
    · exact ⟨(s + 1) * f.binade + m, by omega, units_shift (Nat.le_of_lt hm) (.inr hge)⟩

theorem representable_of_lt {m s : Nat} (hm : m < 2 * f.binade)
    (hs : s + 3 ≤ 2 ^ f.exponentBits) : f.Representable (m * 2 ^ s) := by
  obtain ⟨p, hp, hunits⟩ := exists_units hm s
  have hinfinity : (s + 2) * f.binade ≤ f.infinity :=
    Nat.mul_le_mul_right _ (Nat.le_sub_of_add_le hs)
  exact ⟨p, by omega, hunits⟩

/-- A magnitude as wide as `j` bits beyond the significand ends in `j` zero bits. -/
theorem pow_dvd_units {j p : Nat} (h : 2 * f.binade * 2 ^ j ≤ f.units p) : 2 ^ j ∣ f.units p := by
  obtain ⟨t, n, rfl, hn, ht⟩ := f.exists_shift p
  rw [units_shift (Nat.le_of_lt hn) ht] at h ⊢
  have hjt : j ≤ t := by
    by_contra hlt
    have hpow : 2 ^ t ≤ 2 ^ j := Nat.pow_le_pow_right (by decide) (by omega)
    have hmul : n * 2 ^ t < 2 * f.binade * 2 ^ j :=
      Nat.lt_of_le_of_lt (Nat.mul_le_mul_left n hpow)
        (Nat.mul_lt_mul_of_pos_right hn (Nat.pow_pos (by decide)))
    omega
  exact Nat.dvd_mul_left_of_dvd (Nat.pow_dvd_pow 2 hjt) n

theorem roundsTo_neighbour {num p : Nat} (hp : 0 < p) (hlow : f.units p ≤ num)
    (hhigh : num < f.units (p + 1)) : f.RoundsTo num 1 p ∨ f.RoundsTo num 1 (p + 1) := by
  have hbelow : f.units (p - 1) < f.units p := f.units_strictMono (by omega)
  have habove : f.units (p + 1) < f.units (p + 1 + 1) := f.units_lt_succ (p + 1)
  have hdown (h : 2 * num < f.units p + f.units (p + 1) ∨
      2 * num = f.units p + f.units (p + 1) ∧ p % 2 = 0) : f.RoundsTo num 1 p :=
    ⟨by omega, by omega, by omega⟩
  have hup (h : f.units p + f.units (p + 1) < 2 * num ∨
      2 * num = f.units p + f.units (p + 1) ∧ p % 2 = 1) : f.RoundsTo num 1 (p + 1) := by
    have hpred : f.units (p + 1 - 1) = f.units p := rfl
    exact ⟨by omega, by omega, by omega⟩
  rcases Nat.lt_trichotomy (2 * num) (f.units p + f.units (p + 1)) with hlt | heq | hgt
  · exact .inl (hdown (.inl hlt))
  · rcases Nat.mod_two_eq_zero_or_one p with heven | hodd
    · exact .inl (hdown (.inr ⟨heq, heven⟩))
    · exact .inr (hup (.inr ⟨heq, hodd⟩))
  · exact .inr (hup (.inl hgt))

/-- A number between two floats is rounded to a float between them. -/
theorem nearest_between (heven : f.binade % 2 = 0) {num p q : Nat} (hp : 0 < p)
    (hq : q < f.infinity) (hlow : f.units p ≤ num) (hhigh : num ≤ f.units q) :
    p ≤ f.nearest num 1 ∧ f.nearest num 1 ≤ q := by
  have hpq : p ≤ q := f.units_strictMono.le_iff_le.1 (Nat.le_trans hlow hhigh)
  obtain ⟨r, hr⟩ : ∃ r, r = Nat.findGreatest (fun r => f.units r ≤ num) q := ⟨_, rfl⟩
  have hle : f.units r ≤ num := hr ▸ Nat.findGreatest_spec (P := fun r => f.units r ≤ num) hpq hlow
  have hpr : p ≤ r := hr ▸ Nat.le_findGreatest (P := fun r => f.units r ≤ num) hpq hlow
  have hrq : r ≤ q := hr ▸ Nat.findGreatest_le q
  have hlt : num < f.units (r + 1) := by
    rcases Nat.eq_or_lt_of_le hrq with heq | hlt
    · rw [heq]
      exact Nat.lt_of_le_of_lt hhigh (f.units_lt_succ q)
    · exact Nat.lt_of_not_le (Nat.findGreatest_is_greatest (P := fun r => f.units r ≤ num)
        (by omega) hlt)
  rcases roundsTo_neighbour (by omega) hle hlt with hdown | hup
  · rw [nearest_eq (by decide) heven (by omega) (by omega) hdown]
    exact ⟨hpr, hrq⟩
  · have hne : r ≠ q := by
      rintro rfl
      have hlower := hup.lower
      rw [Nat.add_sub_cancel, Nat.mul_one] at hlower
      have hstep := f.units_lt_succ r
      omega
    rw [nearest_eq (by decide) heven (by omega) (by omega) hup]
    omega

theorem nearest_units (heven : f.binade % 2 = 0) {den p : Nat} (hden : 0 < den)
    (hfinite : p < f.infinity) : f.nearest (f.units p * den) den = p := by
  rcases Nat.eq_zero_or_pos p with rfl | hp
  · have hzero : f.units 0 = 0 := by simp [units]
    simp [hzero, nearest, roundHalfEven, hden]
  · have hbelow : f.units (p - 1) < f.units p := f.units_strictMono (by omega)
    have habove : f.units p < f.units (p + 1) := f.units_lt_succ p
    have htwice : 2 * (f.units p * den) = 2 * f.units p * den := by ring
    have hlow : (f.units (p - 1) + f.units p) * den < 2 * f.units p * den :=
      Nat.mul_lt_mul_of_pos_right (by omega) hden
    have hhigh : 2 * f.units p * den < (f.units p + f.units (p + 1)) * den :=
      Nat.mul_lt_mul_of_pos_right (by omega) hden
    exact nearest_eq hden heven hp hfinite ⟨by omega, by omega, by omega⟩

theorem round_of_lt {negative : Bool} {num den : Nat} (h : f.nearest num den < f.infinity) :
    f.round negative num den = .finite negative (f.nearest num den) := if_pos h

theorem exists_round_exact (heven : f.binade % 2 = 0) {u den : Nat} (hden : 0 < den)
    (h : f.Representable u) (negative : Bool) :
    ∃ p, f.round negative (u * den) den = .finite negative p ∧ p < f.infinity ∧ f.units p = u := by
  obtain ⟨p, hfinite, rfl⟩ := h
  have hnearest := nearest_units heven hden hfinite
  refine ⟨p, ?_, hfinite, rfl⟩
  rw [round_of_lt (by omega), hnearest]

theorem exists_round_between (heven : f.binade % 2 = 0) {low num high : Nat}
    (hlow : f.Representable low) (hhigh : f.Representable high) (hpos : 0 < low)
    (hle : low ≤ num) (hge : num ≤ high) (negative : Bool) :
    ∃ p, f.round negative num 1 = .finite negative p ∧ p < f.infinity ∧
      low ≤ f.units p ∧ f.units p ≤ high := by
  obtain ⟨p, -, rfl⟩ := hlow
  obtain ⟨q, hfinite, rfl⟩ := hhigh
  have hp : 0 < p := by
    rcases Nat.eq_zero_or_pos p with rfl | hp
    · simp [units] at hpos
    · exact hp
  obtain ⟨hlow, hhigh⟩ := nearest_between heven hp hfinite hle hge
  refine ⟨_, round_of_lt (by omega), by omega, ?_, ?_⟩
  · exact f.units_strictMono.monotone hlow
  · exact f.units_strictMono.monotone hhigh

theorem signedUnits_true (f : BinaryFormat) (p : Nat) : f.signedUnits true p = -(f.units p : Int) :=
  rfl

theorem signedUnits_false (f : BinaryFormat) (p : Nat) : f.signedUnits false p = f.units p := rfl

theorem natAbs_signedUnits (f : BinaryFormat) (negative : Bool) (p : Nat) :
    (f.signedUnits negative p).natAbs = f.units p := by
  cases negative with
  | true => rw [signedUnits_true, Int.natAbs_neg, Int.natAbs_natCast]
  | false => rw [signedUnits_false, Int.natAbs_natCast]

theorem signedUnits_of_natAbs {negative : Bool} {p : Nat} {v : Int}
    (hsign : negative = true ∧ v ≤ 0 ∨ negative = false ∧ 0 ≤ v) (hunits : f.units p = v.natAbs) :
    f.signedUnits negative p = v := by
  rcases hsign with ⟨rfl, hv⟩ | ⟨rfl, hv⟩
  · rw [signedUnits_true, hunits]
    omega
  · rw [signedUnits_false, hunits]
    omega

theorem sign_signedUnits (f : BinaryFormat) (negative : Bool) (p : Nat) :
    negative = true ∧ f.signedUnits negative p ≤ 0 ∨
      negative = false ∧ 0 ≤ f.signedUnits negative p := by
  cases negative with
  | true => exact .inl ⟨rfl, by rw [signedUnits_true]; omega⟩
  | false => exact .inr ⟨rfl, by rw [signedUnits_false]; omega⟩

section
variable {a b : Bool} {p q : Nat} {sum : Int}

theorem exists_add_exact (heven : f.binade % 2 = 0)
    (hsum : f.signedUnits a p + f.signedUnits b q = sum) (h : f.Representable sum.natAbs) :
    ∃ negative r, f.add (.finite a p) (.finite b q) = .finite negative r ∧ r < f.infinity ∧
      f.signedUnits negative r = sum := by
  simp only [add, hsum]
  by_cases hzero : sum = 0
  · obtain ⟨r, hfinite, -⟩ := h
    refine ⟨a && b, 0, if_pos hzero, by omega, ?_⟩
    rw [hzero]
    cases a && b <;> simp [signedUnits, units]
  · obtain ⟨r, hround, hfinite, hunits⟩ := exists_round_exact heven Nat.one_pos h (decide (sum < 0))
    rw [Nat.mul_one] at hround
    refine ⟨_, r, (if_neg hzero).trans hround, hfinite, signedUnits_of_natAbs ?_ hunits⟩
    simp only [decide_eq_true_eq, decide_eq_false_iff_not]
    omega

theorem exists_add_between (heven : f.binade % 2 = 0)
    (hsum : f.signedUnits a p + f.signedUnits b q = sum) {low high : Nat}
    (hlow : f.Representable low) (hhigh : f.Representable high) (hpos : 0 < low)
    (hle : low ≤ sum.natAbs) (hge : sum.natAbs ≤ high) :
    ∃ r, f.add (.finite a p) (.finite b q) = .finite (decide (sum < 0)) r ∧ r < f.infinity ∧
      low ≤ f.units r ∧ f.units r ≤ high := by
  obtain ⟨r, hround, hfinite, hbounds⟩ :=
    exists_round_between heven hlow hhigh hpos hle hge (decide (sum < 0))
  refine ⟨r, ?_, hfinite, hbounds⟩
  simp only [add, hsum]
  rw [if_neg (by omega), hround]

end

theorem exists_convert_exact {g : BinaryFormat} {p u : Nat} (heven : f.binade % 2 = 0)
    (h : f.Representable u) (hunits : g.units p * f.one = u * g.one) (negative : Bool) :
    ∃ q, f.convert g (.finite negative p) = .finite negative q ∧ q < f.infinity ∧
      f.units q = u := by
  rw [convert, hunits]
  exact exists_round_exact heven g.one_pos h negative

/-- The whole part of a float is a float: either there is nothing below the point, or it is so
small that the significand holds it. -/
theorem representable_floor (hwide : f.scale + 3 ≤ 2 ^ f.exponentBits) {p : Nat}
    (hfinite : p < f.infinity) (negative : Bool) :
    f.Representable ((f.signedUnits negative p / f.one).natAbs * f.one) := by
  obtain ⟨u, hu⟩ : ∃ u, u = f.signedUnits negative p := ⟨_, rfl⟩
  have habs : u.natAbs = f.units p := hu ▸ f.natAbs_signedUnits negative p
  have hone := f.one_pos
  rw [← hu]
  obtain ⟨t, n, hp, hn, ht⟩ := f.exists_shift p
  have hunits : f.units p = n * 2 ^ t := hp ▸ units_shift (Nat.le_of_lt hn) ht
  rcases Nat.lt_or_ge t f.scale with hlt | hge
  · have hsmall : f.units p ≤ f.binade * f.one := by
      have hpow : 2 * 2 ^ t ≤ f.one := by
        rw [← Nat.pow_succ']
        exact Nat.pow_le_pow_right (by decide) hlt
      calc f.units p = n * 2 ^ t := hunits
        _ ≤ 2 * f.binade * 2 ^ t := Nat.mul_le_mul_right _ (Nat.le_of_lt hn)
        _ = f.binade * (2 * 2 ^ t) := by ring
        _ ≤ f.binade * f.one := Nat.mul_le_mul_left _ hpow
    have hbound : u.natAbs ≤ f.binade * f.one := habs ▸ hsmall
    have hlow : -(f.binade : Int) ≤ u / f.one := by
      apply Int.le_ediv_of_mul_le (by omega)
      rw [Int.neg_mul, ← Int.natCast_mul]
      omega
    have hhigh : u / f.one ≤ f.binade := by
      apply Int.ediv_le_of_le_mul (by omega)
      rw [← Int.natCast_mul]
      omega
    have hpos := f.binade_pos
    have hm : (u / f.one).natAbs < 2 * f.binade := by omega
    exact representable_of_lt hm hwide
  · have hdvd : (f.one : Int) ∣ u := by
      rw [Int.natCast_dvd, habs, hunits]
      exact Nat.dvd_mul_left_of_dvd (Nat.pow_dvd_pow 2 hge) n
    have hwhole : (u / f.one).natAbs * f.one = f.units p := by
      rw [← habs, ← Int.natAbs_natCast f.one, ← Int.natAbs_mul, Int.natAbs_natCast,
        Int.ediv_mul_cancel hdvd]
    exact ⟨p, hfinite, hwhole.symm⟩

theorem exists_floor_exact (heven : f.binade % 2 = 0)
    (hwide : f.scale + 3 ≤ 2 ^ f.exponentBits) {p : Nat} (hfinite : p < f.infinity)
    (negative : Bool) :
    ∃ q, f.floor (.finite negative p) = .finite negative q ∧
      f.signedUnits negative q = f.signedUnits negative p / f.one * f.one := by
  obtain ⟨q, hround, -, hunits⟩ :=
    exists_round_exact heven Nat.one_pos (representable_floor hwide hfinite negative) negative
  rw [Nat.mul_one] at hround
  refine ⟨q, hround, signedUnits_of_natAbs ?_ ?_⟩
  · have hone : (0 : Int) < f.one := by exact_mod_cast f.one_pos
    rcases f.sign_signedUnits negative p with ⟨hsign, hle⟩ | ⟨hsign, hge⟩
    · have hdiv : f.signedUnits negative p / f.one ≤ 0 := Int.ediv_nonpos_of_nonpos_of_neg hle hone
      exact .inl ⟨hsign, Int.mul_nonpos_of_nonpos_of_nonneg hdiv (by omega)⟩
    · exact .inr ⟨hsign, Int.mul_nonneg (Int.ediv_nonneg hge (by omega)) (by omega)⟩
  · rw [hunits, Int.natAbs_mul, Int.natAbs_natCast]

end RegisterMachine.Number.BinaryFormat
