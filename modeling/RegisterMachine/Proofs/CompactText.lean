import RegisterMachine.Proofs.PaddedText

/-!
# Compact float text read back

Listings write floats far from one with an exponent. Such a text is read as the very decimal it was
made of, so the shortest decimal of a float, in either notation, gives back all its bits.
-/

namespace RegisterMachine.Number

open Text (digits)

namespace BinaryFormat

variable {f : BinaryFormat}

/-- A whole decimal is read as the pattern it is rounded to; the guards against far powers do not
cut it off. -/
theorem ofDecimal_whole (hf : f.Regular) {d k p : Nat} (hp : 0 < p) (hfinite : p < f.infinity)
    (h : f.RoundsTo (d * 10 ^ k * f.one) (10 ^ 0) p) : f.ofDecimal ⟨d, .ofNat k⟩ = p := by
  have hlt : d * 10 ^ k < 10 ^ f.scale := h.lt_pow hf hfinite
  have hd : 0 < d := by
    rcases Nat.eq_zero_or_pos d with rfl | hd
    · have hpos := h.pow_le hp
      omega
    · exact hd
  have hk : k < f.scale := by
    refine (Nat.pow_lt_pow_iff_right (a := 10) (by decide)).1 (Nat.lt_of_le_of_lt ?_ hlt)
    exact Nat.le_mul_of_pos_left _ hd
  have hlength : (digits d).length ≤ f.scale - k := by
    refine (Nat.length_toDigits_le_iff (by decide) (by omega)).2 ?_
    refine Nat.lt_of_mul_lt_mul_right (a := 10 ^ k) ?_
    rw [← Nat.pow_add, Nat.sub_add_cancel (Nat.le_of_lt hk)]
    exact hlt
  simp only [ofDecimal]
  rw [if_neg (by omega), if_neg (by simp only [Int.ofNat_eq_natCast]; omega),
    if_neg (by simp only [Int.ofNat_eq_natCast]; omega)]
  exact nearest_eq (by decide) hf.even hp hfinite h

theorem ofDecimal_shortest_self (hf : f.Regular) (tie : Tie) {p : Nat} (hp : 0 < p)
    (hfinite : p < f.infinity) : f.ofDecimal (f.shortest tie p) = p := by
  obtain ⟨d, e, hshortest⟩ : ∃ d e, f.shortest tie p = ⟨d, e⟩ := ⟨_, _, rfl⟩
  rw [hshortest]
  cases e with
  | ofNat k =>
    obtain ⟨j, hexponent, hcontains⟩ := f.shortest_contains tie hp
    rw [hshortest] at hexponent hcontains
    simp only [Int.ofNat_eq_natCast] at hexponent
    refine ofDecimal_whole hf hp hfinite (RoundingInterval.roundsTo_of_contains hcontains ?_)
    rw [Nat.mul_assoc, ← Nat.pow_add, Nat.pow_zero, Nat.mul_one]
    congr 2
    omega
  | negSucc k =>
    refine ofDecimal_shortest hf tie hp hfinite ?_ ?_
    · rw [hshortest]
      simp only
      omega
    · have hzero : (Int.negSucc k + ((k : Nat) + 1 : Int)).toNat = 0 := by omega
      rw [hshortest, hzero, Nat.pow_zero, Nat.mul_one]

end BinaryFormat

theorem splitSign_digits (n : Nat) : splitSign (digits n) = (false, digits n) :=
  splitSign_of_chars fun c hc => by simp [isMagnitudeChar, Text.isDigit_of_mem_digits hc]

theorem readExponent?_signedDecimal (e : Int) :
    readExponent? ('e' :: (Text.signedDecimal e).toList) = some e := by
  cases e with
  | ofNat n =>
    have htext : (Text.signedDecimal (.ofNat n)).toList = digits n := by
      rw [Text.signedDecimal, Text.decimal, String.toList_ofList]
    rw [htext, readExponent?, if_pos (.inl rfl)]
    simp only [splitSign_digits, Text.readDecimal?_digits, Bool.false_eq_true, if_false]
    rfl
  | negSucc n =>
    have htext : (Text.signedDecimal (.negSucc n)).toList = '-' :: digits (n + 1) := by
      simp [Text.signedDecimal, Text.decimal]
    have hsign : splitSign ('-' :: digits (n + 1)) = (true, digits (n + 1)) := rfl
    rw [htext, readExponent?, if_pos (.inl rfl)]
    simp only [hsign, Text.readDecimal?_digits, if_true]
    rfl

theorem readDecimalLiteral?_of_parts {cs whole rest fraction last : List Char} {e : Int} {n : Nat}
    (hwhole : splitDigits cs = (whole, rest)) (hfraction : splitFraction rest = (fraction, last))
    (hexponent : readExponent? last = some e)
    (hdigits : Text.readDecimal? (whole ++ fraction) = some n) :
    readDecimalLiteral? cs = some ⟨n, e - fraction.length⟩ := by
  simp only [readDecimalLiteral?, hwhole, hfraction, hexponent, Option.bind_some, hdigits,
    Option.map_some]

/-- Digits with an exponent are read as the decimal they stand for. -/
theorem readDecimalLiteral?_exponentText {ds : List Char} (hds : ∀ c ∈ ds, c.isDigit = true)
    (hne : ds ≠ []) (leading : Int) :
    readDecimalLiteral? (exponentText false ds leading) =
      some ⟨Nat.ofDigitChars 10 ds 0, leading - (ds.length - 1 : Nat)⟩ := by
  have hread := Text.readDecimal?_of_isDigit hds hne
  have hexponent := readExponent?_signedDecimal leading
  generalize hlast : 'e' :: (Text.signedDecimal leading).toList = last at hexponent
  have hends : EndsDigits last := hlast ▸ endsDigits_cons (by decide) _
  obtain ⟨d, rest, rfl⟩ := List.exists_cons_of_ne_nil hne
  rw [List.forall_mem_cons] at hds
  have hfirst : ∀ c ∈ [d], c.isDigit = true := by simpa using hds.1
  cases rest with
  | nil =>
    have htext : exponentText false [d] leading = [d] ++ last := by
      rw [← hlast]
      rfl
    have hpoint : splitFraction last = ([], last) := by
      rw [← hlast]
      rfl
    rw [htext]
    exact readDecimalLiteral?_of_parts (splitDigits_append hfirst hends) hpoint hexponent hread
  | cons d' rest =>
    have htext : exponentText false (d :: d' :: rest) leading =
        [d] ++ '.' :: (d' :: rest ++ last) := by
      rw [← hlast]
      simp [exponentText]
    have hpoint : EndsDigits ('.' :: (d' :: rest ++ last)) := endsDigits_cons (by decide) _
    have hwhole := splitDigits_append hfirst hpoint
    have hfraction : splitFraction ('.' :: (d' :: rest ++ last)) = (d' :: rest, last) :=
      splitDigits_append hds.2 hends
    rw [htext]
    exact readDecimalLiteral?_of_parts hwhole hfraction hexponent hread

variable {f : BinaryFormat}

def exponentMagnitude (f : BinaryFormat) (p : Nat) : List Char :=
  let d := f.shortest .up p
  exponentText false (digits d.digits) (d.exponent + (digits d.digits).length - 1)

/-- A finite float is given by its sign and the pattern of its magnitude. -/
theorem eq_of_classify_finite {bits p : Nat} {negative : Bool}
    (h : f.classify bits = .finite negative p) :
    p < f.infinity ∧ bits % f.signBit = p ∧ decide (f.signBit ≤ bits) = negative := by
  unfold BinaryFormat.classify at h
  simp only at h
  split at h
  case isTrue hlt =>
    cases h
    exact ⟨hlt, rfl, rfl⟩
  case isFalse => split at h <;> cases h

/-- A float is written compactly as it is in full, or as its shortest digits with an exponent. -/
theorem text_compact {bits : Nat} (hnan : f.classify bits ≠ .nan) :
    NumberStyle.compact.text f bits = NumberStyle.plain.text f bits ∨
      0 < bits % f.signBit ∧ bits % f.signBit < f.infinity ∧
        (NumberStyle.compact.text f bits).toList =
          (if f.signBit ≤ bits then ['-'] else []) ++ exponentMagnitude f (bits % f.signBit) := by
  unfold NumberStyle.text
  cases hclass : f.classify bits with
  | nan => exact absurd hclass hnan
  | infinite negative => exact .inl rfl
  | finite negative p =>
    obtain ⟨hfinite, hp, hsign⟩ := eq_of_classify_finite hclass
    rcases Nat.eq_zero_or_pos p with rfl | hpos
    · exact .inl rfl
    · have hne : p ≠ 0 := Nat.ne_of_gt hpos
      simp only [hne, if_false, NumberStyle.decimalText]
      cases hplace : NumberStyle.compact.positional ((f.shortest .up p).exponent +
          (digits (f.shortest .up p).digits).length - 1) with
      | true =>
        left
        have htie : NumberStyle.compact.tie = .up := rfl
        rw [htie, hplace]
        rfl
      | false =>
        right
        rw [hp]
        refine ⟨hpos, hfinite, ?_⟩
        have htie : NumberStyle.compact.tie = .up := rfl
        rw [htie, hplace, String.toList_ofList, ← hsign]
        simp only [decide_eq_true_eq]
        rfl

theorem readDecimalLiteral?_exponentMagnitude (p : Nat) :
    readDecimalLiteral? (exponentMagnitude f p) = some (f.shortest .up p) := by
  have hread := readDecimalLiteral?_exponentText (fun _ => Text.isDigit_of_mem_digits)
    (Text.digits_ne_nil (f.shortest .up p).digits)
    ((f.shortest .up p).exponent + (digits (f.shortest .up p).digits).length - 1)
  have hpos : 0 < (digits (f.shortest .up p).digits).length :=
    List.length_pos_iff.2 (Text.digits_ne_nil _)
  have hdigits : Nat.ofDigitChars 10 (digits (f.shortest .up p).digits) 0 =
      (f.shortest .up p).digits := Nat.ofDigitChars_ten_toDigits
  have hexponent : (f.shortest .up p).exponent + (digits (f.shortest .up p).digits).length - 1 -
      ((digits (f.shortest .up p).digits).length - 1 : Nat) = (f.shortest .up p).exponent := by
    omega
  rw [hdigits, hexponent] at hread
  exact hread

theorem toLower_of_isDigit {c : Char} (h : c.isDigit = true) : c.toLower = c := by
  have hrange : 48 ≤ c.toNat ∧ c.toNat ≤ 57 := by
    simpa [Char.isDigit, UInt32.le_iff_toNat_le] using h
  unfold Char.toLower
  rw [dif_neg]
  rintro ⟨hge, hle⟩
  have hge' : 65 ≤ c.toNat := hge
  omega

/-- A number with an exponent begins with a digit, so it is no word and has no sign. -/
theorem exponentMagnitude_cons (f : BinaryFormat) (p : Nat) :
    ∃ d rest, exponentMagnitude f p = d :: rest ∧ d.isDigit = true := by
  obtain ⟨d, rest, hds⟩ := List.exists_cons_of_ne_nil (Text.digits_ne_nil (f.shortest .up p).digits)
  have hd : d.isDigit = true := Text.isDigit_of_mem_digits (hds ▸ List.mem_cons_self)
  unfold exponentMagnitude
  simp only [hds]
  cases rest with
  | nil => exact ⟨d, _, rfl, hd⟩
  | cons d' rest => exact ⟨d, _, rfl, hd⟩

theorem readPattern?_exponentMagnitude (hf : f.Regular) {p : Nat} (hp : 0 < p)
    (hfinite : p < f.infinity) : f.readPattern? (exponentMagnitude f p) = some p := by
  have hword (word : String) (hhead : word.toList.head?.all Char.isDigit = false) :
      String.ofList ((exponentMagnitude f p).map Char.toLower) ≠ word := by
    rintro rfl
    obtain ⟨d, rest, hcs, hd⟩ := exponentMagnitude_cons f p
    rw [hcs, String.toList_ofList, List.map_cons, List.head?_cons, toLower_of_isDigit hd,
      Option.all_some, hd] at hhead
    cases hhead
  simp only [BinaryFormat.readPattern?, hword "inf" (by decide), hword "infinity" (by decide),
    hword "nan" (by decide), or_self, if_false]
  rw [readDecimalLiteral?_exponentMagnitude, Option.map_some,
    BinaryFormat.ofDecimal_shortest_self hf .up hp hfinite]

theorem splitSign_exponentMagnitude (f : BinaryFormat) (p : Nat) :
    splitSign (exponentMagnitude f p) = (false, exponentMagnitude f p) := by
  obtain ⟨d, rest, hcs, hd⟩ := exponentMagnitude_cons f p
  rw [hcs]
  unfold splitSign
  split
  case h_1 heq =>
    cases heq
    cases hd
  case h_2 heq =>
    cases heq
    cases hd
  case h_3 => rfl

/-- A float that is a number is read back from its compact text, bit for bit. -/
theorem readLiteral?_text_compact (hf : f.Regular) {bits : Nat} (hbits : bits < 2 * f.signBit)
    (hnan : f.classify bits ≠ .nan) :
    f.readLiteral? (NumberStyle.compact.text f bits).toList = some bits := by
  rcases text_compact hnan with hplain | ⟨hp, hfinite, htext⟩
  · rw [hplain]
    exact readLiteral?_text hf hbits hnan
  · rw [htext]
    exact readLiteral?_signed hbits (splitSign_exponentMagnitude f _)
      (readPattern?_exponentMagnitude hf hp hfinite)

end RegisterMachine.Number

namespace RegisterMachine.Text

theorem decimal_inj {m n : Nat} (h : decimal m = decimal n) : m = n := by
  have hread := readDecimal?_digits m
  rw [String.ofList_injective h, readDecimal?_digits n] at hread
  exact (Option.some.inj hread).symm

theorem signedDecimal_inj {u v : Int} (h : signedDecimal u = signedDecimal v) : u = v := by
  have hread := Number.readExponent?_signedDecimal u
  rw [h, Number.readExponent?_signedDecimal v] at hread
  exact (Option.some.inj hread).symm

theorem chars_of_signedDecimal {v : Int} {c : Char} (h : c ∈ (signedDecimal v).toList) :
    c = '-' ∨ c.isDigit = true := by
  cases v with
  | ofNat n =>
    rw [signedDecimal, decimal, String.toList_ofList] at h
    exact .inr (isDigit_of_mem_digits h)
  | negSucc n =>
    rw [signedDecimal, String.toList_append] at h
    rcases List.mem_append.1 h with hsign | hdigit
    · exact .inl (List.mem_singleton.1 hsign)
    · rw [decimal, String.toList_ofList] at hdigit
      exact .inr (isDigit_of_mem_digits hdigit)

end RegisterMachine.Text

namespace RegisterMachine.Word

open Number (BinaryFormat isLiteralChar)

variable {w v : Word}

theorem readLiteral?_compactFloatText (h : w.isNaN = false) :
    BinaryFormat.binary32.readLiteral? w.compactFloatText.toList = some w.toNat :=
  Number.readLiteral?_text_compact BinaryFormat.regular_binary32 w.toNat_lt (classify_ne_nan h)

/-- The compact text of a number determines its bits. -/
theorem compactFloatText_inj (hw : w.isNaN = false) (hv : v.isNaN = false)
    (h : w.compactFloatText = v.compactFloatText) : w = v := by
  have hread := readLiteral?_compactFloatText hw
  rw [h, readLiteral?_compactFloatText hv] at hread
  rw [← ofNat_toNat w, ← ofNat_toNat v, Option.some.inj hread]

theorem text_of_nan {style : Number.NumberStyle} (hstyle : style.nan = "NaN") (h : w.isNaN = true) :
    (style.text .binary32 w.toNat).toList = ['N', 'a', 'N'] := by
  have hclass : BinaryFormat.binary32.classify w.toNat = .nan := beq_iff_eq.1 h
  rw [Number.NumberStyle.text, hclass]
  simp only [hstyle]
  rfl

/-- In a style that is read back, text is made of the characters of literals, also where it is no
number. -/
theorem text_chars {style : Number.NumberStyle} (hstyle : style.nan = "NaN")
    (hread : w.isNaN = false →
      BinaryFormat.binary32.readLiteral? (style.text .binary32 w.toNat).toList = some w.toNat) :
    (style.text .binary32 w.toNat).toList ≠ [] ∧
      ∀ c ∈ (style.text .binary32 w.toNat).toList, isLiteralChar c = true := by
  cases h : w.isNaN with
  | true =>
    have hchars : ['N', 'a', 'N'].all isLiteralChar = true := by decide
    rw [text_of_nan hstyle h]
    exact ⟨by decide, List.all_eq_true.1 hchars⟩
  | false => exact Number.chars_of_readLiteral? (hread h)

theorem compactFloatText_chars (w : Word) :
    w.compactFloatText.toList ≠ [] ∧ ∀ c ∈ w.compactFloatText.toList, isLiteralChar c = true :=
  text_chars rfl readLiteral?_compactFloatText

end RegisterMachine.Word
