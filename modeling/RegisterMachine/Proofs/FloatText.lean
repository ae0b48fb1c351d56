import RegisterMachine.Number.Style
import RegisterMachine.Proofs.FloatRounding

/-!
# Float text read back

Floats written out in full are read back bit for bit, whatever their sign and magnitude, zeros
and infinities included. A finite float is written as digits around a point, and what is read
from those digits has the value of the shortest decimal.
-/

namespace RegisterMachine.Number

open Text (digits)

/-- Digits with a point among them, at least one before it. -/
structure Pointed (whole fraction : List Char) : Prop where
  isDigit : ∀ c ∈ whole ++ fraction, c.isDigit = true
  leading : whole ≠ []

theorem Pointed.readDecimalLiteral? {whole fraction : List Char} (h : Pointed whole fraction) :
    readDecimalLiteral? (whole ++ '.' :: fraction) =
      some ⟨Nat.ofDigitChars 10 (whole ++ fraction) 0, -fraction.length⟩ := by
  have hwhole : splitDigits (whole ++ '.' :: fraction) = (whole, '.' :: fraction) :=
    splitDigits_append (fun c hc => h.isDigit c (List.mem_append_left _ hc))
      (endsDigits_cons (by decide) fraction)
  have hfraction : splitDigits fraction = (fraction, []) := by
    have hsplit := splitDigits_append (fun c hc => h.isDigit c (List.mem_append_right _ hc))
      endsDigits_nil
    rwa [List.append_nil] at hsplit
  have hread : Text.readDecimal? (whole ++ fraction) =
      some (Nat.ofDigitChars 10 (whole ++ fraction) 0) :=
    Text.readDecimal?_of_isDigit h.isDigit (List.append_ne_nil_of_left_ne_nil h.leading _)
  simp [Number.readDecimalLiteral?, hwhole, splitFraction, hfraction, readExponent?, hread]

/-- A decimal written out in full is read with its value: the digits are those of the number
without its point. -/
theorem positionalText_pointed {ds : List Char} (hds : ∀ c ∈ ds, c.isDigit = true) (hne : ds ≠ [])
    (e : Int) :
    ∃ whole fraction j, positionalText ds e = whole ++ '.' :: fraction ∧ Pointed whole fraction ∧
      fraction.length = j + 1 ∧ 0 ≤ e + (j + 1) ∧
      Nat.ofDigitChars 10 (whole ++ fraction) 0 =
        Nat.ofDigitChars 10 ds 0 * 10 ^ (e + (j + 1)).toNat := by
  have hzeros (k : Nat) : ∀ c ∈ List.replicate k '0', c.isDigit = true := by
    intro c hc
    rw [List.eq_of_mem_replicate hc]
    decide
  cases e with
  | ofNat k =>
    refine ⟨ds ++ List.replicate k '0', ['0'], 0, by simp [positionalText], ⟨?_, by simp [hne]⟩,
      rfl, by simp; omega, ?_⟩
    · simp only [List.forall_mem_append]
      exact ⟨⟨hds, hzeros k⟩, hzeros 1⟩
    · have hexponent : (Int.ofNat k + ((0 : Nat) + 1 : Int)).toNat = k + 1 := by
        simp only [Int.ofNat_eq_natCast]
        omega
      rw [hexponent, List.append_assoc, Nat.ofDigitChars_append, ← List.replicate_succ',
        Nat.ofDigitChars_replicate_zero, Nat.mul_comm]
  | negSucc k =>
    have hexponent : (Int.negSucc k + ((k : Nat) + 1 : Int)).toNat = 0 := by omega
    by_cases hwhole : ds.length - (k + 1) = 0
    · refine ⟨['0'], List.replicate (k + 1 - ds.length) '0' ++ ds, k, ?_, ⟨?_, by simp⟩, ?_,
        by omega, ?_⟩
      · simp [positionalText, hwhole]
      · simp only [List.forall_mem_append]
        exact ⟨hzeros 1, hzeros _, hds⟩
      · rw [List.length_append, List.length_replicate]
        omega
      · rw [hexponent, ← List.append_assoc, Nat.ofDigitChars_append]
        simp [Nat.ofDigitChars_cons]
    · refine ⟨ds.take (ds.length - (k + 1)), ds.drop (ds.length - (k + 1)), k, ?_, ⟨?_, ?_⟩, ?_,
        by omega, ?_⟩
      · simp [positionalText, hwhole]
      · rwa [List.take_append_drop]
      · simp only [ne_eq, List.take_eq_nil_iff, not_or]
        exact ⟨hwhole, hne⟩
      · rw [List.length_drop]
        omega
      · rw [hexponent, List.take_append_drop, Nat.pow_zero, Nat.mul_one]

variable {f : BinaryFormat}

def magnitudeText (f : BinaryFormat) (pattern : Nat) : List Char :=
  if pattern = f.infinity then ['i', 'n', 'f']
  else if pattern = 0 then ['0', '.', '0']
  else positionalText (digits (f.shortest .up pattern).digits) (f.shortest .up pattern).exponent

/-- A finite magnitude is written as digits around a point that are read as its pattern. -/
theorem magnitudeText_pointed (hf : f.Regular) {p : Nat} (hfinite : p < f.infinity) :
    ∃ whole fraction, magnitudeText f p = whole ++ '.' :: fraction ∧ Pointed whole fraction ∧
      f.ofDecimal ⟨Nat.ofDigitChars 10 (whole ++ fraction) 0, -fraction.length⟩ = p := by
  rw [magnitudeText, if_neg (Nat.ne_of_lt hfinite)]
  rcases Nat.eq_zero_or_pos p with rfl | hp
  · have hdigits : (['0'] ++ ['0']).all Char.isDigit = true := by decide
    exact ⟨['0'], ['0'], rfl, ⟨List.all_eq_true.1 hdigits, by decide⟩, rfl⟩
  · obtain ⟨whole, fraction, j, htext, hpointed, hlength, hplaces, hvalue⟩ :=
      positionalText_pointed (fun _ => Text.isDigit_of_mem_digits)
        (Text.digits_ne_nil (f.shortest .up p).digits) (f.shortest .up p).exponent
    have hdigits : Nat.ofDigitChars 10 (digits (f.shortest .up p).digits) 0 =
        (f.shortest .up p).digits := Nat.ofDigitChars_ten_toDigits
    rw [hdigits] at hvalue
    refine ⟨whole, fraction, ?_, hpointed, ?_⟩
    · rw [if_neg (Nat.ne_of_gt hp), htext]
    · rw [hlength]
      exact BinaryFormat.ofDecimal_shortest hf .up hp hfinite hplaces hvalue

def isMagnitudeChar (c : Char) : Bool := c.isDigit || c == '.' || c == 'i' || c == 'n' || c == 'f'

theorem magnitudeText_chars (hf : f.Regular) {p : Nat} (hp : p ≤ f.infinity) :
    magnitudeText f p ≠ [] ∧ ∀ c ∈ magnitudeText f p, isMagnitudeChar c = true := by
  rcases Nat.eq_or_lt_of_le hp with rfl | hfinite
  · have hchars : ['i', 'n', 'f'].all isMagnitudeChar = true := by decide
    rw [magnitudeText, if_pos rfl]
    exact ⟨by decide, List.all_eq_true.1 hchars⟩
  · obtain ⟨whole, fraction, htext, hpointed, -⟩ := magnitudeText_pointed hf hfinite
    have hdigit := hpointed.isDigit
    rw [List.forall_mem_append] at hdigit
    rw [htext]
    refine ⟨by simp, ?_⟩
    rw [List.forall_mem_append, List.forall_mem_cons]
    refine ⟨fun c hc => ?_, by decide, fun c hc => ?_⟩
    · simp [isMagnitudeChar, hdigit.1 c hc]
    · simp [isMagnitudeChar, hdigit.2 c hc]

theorem readPattern?_magnitudeText (hf : f.Regular) {p : Nat} (hp : p ≤ f.infinity) :
    f.readPattern? (magnitudeText f p) = some p := by
  rcases Nat.eq_or_lt_of_le hp with rfl | hfinite
  · rw [magnitudeText, if_pos rfl]
    have hword : String.ofList (['i', 'n', 'f'].map Char.toLower) = "inf" := by decide
    simp only [BinaryFormat.readPattern?, hword, true_or, if_true]
  · obtain ⟨whole, fraction, htext, hpointed, hvalue⟩ := magnitudeText_pointed hf hfinite
    have hword (word : String) (hpoint : '.' ∉ word.toList) :
        String.ofList ((magnitudeText f p).map Char.toLower) ≠ word := by
      rintro rfl
      rw [String.toList_ofList, htext] at hpoint
      exact hpoint (List.mem_map.2 ⟨'.', by simp, by decide⟩)
    simp only [BinaryFormat.readPattern?, hword "inf" (by decide), hword "infinity" (by decide),
      hword "nan" (by decide), or_self, if_false]
    rw [htext, hpointed.readDecimalLiteral?, Option.map_some, hvalue]

theorem splitSign_of_chars {cs : List Char} (h : ∀ c ∈ cs, isMagnitudeChar c = true) :
    splitSign cs = (false, cs) := by
  unfold splitSign
  split
  case h_1 => cases h '-' List.mem_cons_self
  case h_2 => cases h '+' List.mem_cons_self
  case h_3 => rfl

theorem assemble_fields {bits : Nat} (h : bits < 2 * f.signBit) :
    f.assemble (decide (f.signBit ≤ bits)) (bits % f.signBit) = bits := by
  unfold BinaryFormat.assemble
  rcases Nat.lt_or_ge bits f.signBit with hlt | hge
  · rw [if_neg (by simpa using hlt), Nat.mod_eq_of_lt hlt]
  · have hmod : bits % f.signBit = bits - f.signBit := by
      rw [Nat.mod_eq_sub_mod hge, Nat.mod_eq_of_lt (by omega)]
    rw [if_pos (by simpa using hge), hmod]
    omega

/-- The text of a float that is a number: its sign, then its magnitude. -/
theorem text_plain {bits : Nat} (hnan : f.classify bits ≠ .nan) :
    bits % f.signBit ≤ f.infinity ∧ (NumberStyle.plain.text f bits).toList =
      (if f.signBit ≤ bits then ['-'] else []) ++ magnitudeText f (bits % f.signBit) := by
  unfold NumberStyle.text
  unfold BinaryFormat.classify at hnan ⊢
  simp only at hnan ⊢
  rcases Nat.lt_trichotomy (bits % f.signBit) f.infinity with hlt | heq | hgt
  · refine ⟨Nat.le_of_lt hlt, ?_⟩
    have hne : bits % f.signBit ≠ f.infinity := Nat.ne_of_lt hlt
    simp only [hlt, if_true, String.toList_ofList, magnitudeText, hne, if_false, decide_eq_true_eq]
    rfl
  · refine ⟨Nat.le_of_eq heq, ?_⟩
    simp only [heq, Nat.lt_irrefl, if_true, if_false, magnitudeText]
    by_cases hsign : f.signBit ≤ bits
    · simp only [hsign, decide_true, if_true]
      rfl
    · simp only [hsign, decide_false, if_false]
      rfl
  · have hnot : ¬ bits % f.signBit < f.infinity := by omega
    have hne : bits % f.signBit ≠ f.infinity := Nat.ne_of_gt hgt
    simp only [hnot, hne, if_false, ne_eq, not_true] at hnan

theorem text_plain_chars (hf : f.Regular) {bits : Nat} (hnan : f.classify bits ≠ .nan) :
    (NumberStyle.plain.text f bits).toList ≠ [] ∧
      ∀ c ∈ (NumberStyle.plain.text f bits).toList, c = '-' ∨ isMagnitudeChar c = true := by
  obtain ⟨hle, htext⟩ := text_plain hnan
  obtain ⟨hne, hchars⟩ := magnitudeText_chars hf hle
  rw [htext]
  refine ⟨by simp [hne], fun c hc => ?_⟩
  rcases List.mem_append.1 hc with hsign | hmagnitude
  · split at hsign
    · exact .inl (List.mem_singleton.1 hsign)
    · cases hsign
  · exact .inr (hchars c hmagnitude)

/-- A float is read from its sign and any text that its pattern is read from. -/
theorem readLiteral?_signed {bits : Nat} {cs : List Char} (hbits : bits < 2 * f.signBit)
    (hunsigned : splitSign cs = (false, cs)) (hpattern : f.readPattern? cs = some (bits % f.signBit)) :
    f.readLiteral? ((if f.signBit ≤ bits then ['-'] else []) ++ cs) = some bits := by
  have hassemble := assemble_fields hbits
  by_cases hsign : f.signBit ≤ bits
  · rw [if_pos hsign]
    simp only [hsign, decide_true] at hassemble
    simp only [BinaryFormat.readLiteral?, List.cons_append, List.nil_append, splitSign, hpattern,
      Option.map_some, hassemble]
  · rw [if_neg hsign, List.nil_append]
    simp only [hsign, decide_false] at hassemble
    simp only [BinaryFormat.readLiteral?, hunsigned, hpattern, Option.map_some, hassemble]

/-- A float that is a number is read back from its text, bit for bit. -/
theorem readLiteral?_text (hf : f.Regular) {bits : Nat} (hbits : bits < 2 * f.signBit)
    (hnan : f.classify bits ≠ .nan) :
    f.readLiteral? (NumberStyle.plain.text f bits).toList = some bits := by
  obtain ⟨hle, htext⟩ := text_plain hnan
  rw [htext]
  exact readLiteral?_signed hbits (splitSign_of_chars (magnitudeText_chars hf hle).2)
    (readPattern?_magnitudeText hf hle)

end RegisterMachine.Number
