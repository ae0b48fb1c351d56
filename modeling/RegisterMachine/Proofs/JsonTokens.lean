import RegisterMachine.Json.Token
import RegisterMachine.Proofs.Numerals

/-!
# Tokens of written JSON

Which tokens a written text is read as. A number is read up to the first character that cannot
continue it, so every statement is about text in front of such a character. An integer is read as
itself exactly if it fits 64 bits, signed or not.
-/

namespace RegisterMachine.Json

open Text (digits)

def endsNumber (c : Char) : Bool := !c.isDigit && c != '.' && c != 'e' && c != 'E'

def EndsNumber (cs : List Char) : Prop := ∀ c ∈ cs.head?, endsNumber c = true

theorem endsNumber_nil : EndsNumber [] := by
  intro c hc
  cases hc

theorem endsNumber_cons {c : Char} (h : endsNumber c = true) (cs : List Char) :
    EndsNumber (c :: cs) := by
  intro d hd
  cases hd
  exact h

theorem EndsNumber.endsDigits {cs : List Char} (h : EndsNumber cs) : Number.EndsDigits cs := by
  rintro c rest rfl
  have hc := h c rfl
  simp only [endsNumber, Bool.and_eq_true, Bool.not_eq_true'] at hc
  exact hc.1.1.1

/-! ### Lexing a number -/

theorem lexWhole?_digits (n : Nat) {rest : List Char} (h : EndsNumber rest) :
    lexWhole? (digits n ++ rest) = some (digits n, rest) := by
  have hsplit : Number.splitDigits (digits n ++ rest) = (digits n, rest) :=
    Number.splitDigits_append (fun _ => Text.isDigit_of_mem_digits) h.endsDigits
  unfold lexWhole?
  rw [hsplit]
  split
  case h_1 hds =>
    obtain ⟨hds, _⟩ := Prod.mk.inj hds
    exact absurd hds (Text.digits_ne_nil n)
  case h_2 hds =>
    obtain ⟨hds, _⟩ := Prod.mk.inj hds
    rcases Nat.eq_zero_or_pos n with rfl | hpos
    · cases hds
    · exact absurd (by rw [hds]; rfl) (Text.head?_digits_ne hpos)
  case h_3 hds => rw [hds]

theorem lexFraction?_of_endsNumber {rest : List Char} (h : EndsNumber rest) :
    lexFraction? rest = some (none, rest) := by
  unfold lexFraction?
  split
  case h_1 => cases h '.' rfl
  case h_2 => rfl

theorem lexExponent?_of_endsNumber {rest : List Char} (h : EndsNumber rest) :
    lexExponent? rest = some (none, rest) := by
  cases rest with
  | nil => rfl
  | cons c rest =>
    have hc := h c rfl
    simp only [endsNumber, Bool.and_eq_true, bne_iff_ne] at hc
    rw [lexExponent?, if_neg]
    rintro (rfl | rfl)
    · exact hc.1.2 rfl
    · exact hc.2 rfl

def numeral (v : Int) : Numeral where
  negative := decide (v < 0)
  whole := digits v.natAbs
  fraction := none
  exponent := none

theorem toList_signedDecimal (v : Int) :
    (Text.signedDecimal v).toList = (if v < 0 then ['-'] else []) ++ digits v.natAbs := by
  cases v with
  | ofNat n => simp [Text.signedDecimal, Text.decimal]
  | negSucc n =>
    have hneg : Int.negSucc n < 0 := by omega
    simp [Text.signedDecimal, Text.decimal, hneg]

theorem lexUnsigned?_digits (negative : Bool) (n : Nat) {rest : List Char} (h : EndsNumber rest) :
    lexUnsigned? negative (digits n ++ rest) =
      some (⟨negative, digits n, none, none⟩, rest) := by
  simp only [lexUnsigned?, lexWhole?_digits n h, lexFraction?_of_endsNumber h,
    lexExponent?_of_endsNumber h, Option.bind_some, Option.map_some]

theorem lexNumber?_signedDecimal (v : Int) {rest : List Char} (h : EndsNumber rest) :
    lexNumber? ((Text.signedDecimal v).toList ++ rest) = some (numeral v, rest) := by
  rw [toList_signedDecimal]
  by_cases hneg : v < 0
  · rw [if_pos hneg]
    simp only [List.cons_append, List.nil_append, lexNumber?, lexUnsigned?_digits true _ h, numeral,
      hneg, decide_true]
  · rw [if_neg hneg, List.nil_append]
    unfold lexNumber?
    split
    case h_1 cs hcs =>
      have hsign : '-' ∉ digits v.natAbs := Text.notMem_digits (by decide) _
      cases hds : digits v.natAbs with
      | nil => exact absurd hds (Text.digits_ne_nil _)
      | cons c ds =>
        rw [hds] at hcs hsign
        cases hcs
        exact absurd List.mem_cons_self hsign
    case h_2 => simp only [lexUnsigned?_digits false _ h, numeral, hneg, decide_false]

theorem le_ofDigitChars (cs : List Char) (acc : Nat) : acc ≤ Nat.ofDigitChars 10 cs acc := by
  induction cs generalizing acc with
  | nil => exact Nat.le_refl _
  | cons c cs ih =>
    have hcs := ih (10 * acc + (c.toNat - '0'.toNat))
    rw [Nat.ofDigitChars_cons]
    omega

theorem keepDigits_eq (cs : List Char) (acc : Nat) (hacc : acc < 18446744073709551616) :
    keepDigits acc cs = (Nat.ofDigitChars 10 cs acc, 0) ∧
        Nat.ofDigitChars 10 cs acc < 18446744073709551616 ∨
      (keepDigits acc cs).2 ≠ 0 ∧ 18446744073709551616 ≤ Nat.ofDigitChars 10 cs acc := by
  induction cs generalizing acc with
  | nil => exact .inl ⟨rfl, hacc⟩
  | cons c cs ih =>
    rw [keepDigits, Nat.ofDigitChars_cons]
    by_cases hfits : 10 * acc + (c.toNat - '0'.toNat) < 18446744073709551616
    · rw [if_pos hfits]
      exact ih _ hfits
    · rw [if_neg hfits]
      have hle := le_ofDigitChars cs (10 * acc + (c.toNat - '0'.toNat))
      exact .inr ⟨Nat.succ_ne_zero _, by omega⟩

theorem doubleValue_ne_integer (n : Numeral) (v : Int) : n.doubleValue ≠ .integer v := by
  intro h
  unfold Numeral.doubleValue at h
  simp only at h
  split at h <;> cases h

theorem eq_of_value_numeral {u v : Int} (h : (numeral v).value = .integer u) : u = v := by
  have hdigits : Nat.ofDigitChars 10 (digits v.natAbs) 0 = v.natAbs := Nat.ofDigitChars_ten_toDigits
  unfold Numeral.value at h
  split at h
  case h_1 size _ _ hkeep =>
    have hsize : size = v.natAbs := by
      rcases keepDigits_eq (digits v.natAbs) 0 (by decide) with ⟨heq, _⟩ | ⟨hne, _⟩
      · rw [hdigits] at heq
        exact (Prod.mk.inj (hkeep.symm.trans heq)).1
      · exact absurd (congrArg Prod.snd hkeep) hne
    split at h
    case isTrue hpos =>
      have hnonneg : ¬ v < 0 := by simpa [numeral] using hpos
      cases h
      omega
    case isFalse hneg =>
      have hv : v < 0 := by simpa [numeral] using hneg
      split at h
      case isTrue =>
        cases h
        omega
      case isFalse => exact absurd h (doubleValue_ne_integer _ u)
  case h_2 => exact absurd h (doubleValue_ne_integer _ u)

theorem value_numeral {v : Int} (hlow : -9223372036854775808 ≤ v)
    (hhigh : v < 18446744073709551616) : (numeral v).value = .integer v := by
  have hdigits : Nat.ofDigitChars 10 (digits v.natAbs) 0 = v.natAbs := Nat.ofDigitChars_ten_toDigits
  have hkeep : keepDigits 0 (numeral v).whole = (v.natAbs, 0) := by
    rcases keepDigits_eq (digits v.natAbs) 0 (by decide) with ⟨heq, _⟩ | ⟨_, hle⟩
    · rwa [hdigits] at heq
    · rw [hdigits] at hle
      omega
  unfold Numeral.value
  rw [hkeep]
  by_cases hneg : v < 0
  · have hsize : 0 < v.natAbs ∧ v.natAbs ≤ 9223372036854775808 := by omega
    have hv : -(v.natAbs : Int) = v := by omega
    simp only [numeral, hneg, hsize, hv, decide_true, Bool.not_true, Bool.false_eq_true, if_false,
      and_self, if_true]
  · have hv : (v.natAbs : Int) = v := by omega
    simp only [numeral, hneg, hv, decide_false, Bool.not_false, if_true]

/-! ### Tokens in front of other text -/

/-- Text that is read as tokens, whatever comes after that cannot continue a number. -/
def Spells (cs : List Char) (ts : List Token) : Prop :=
  ∀ rest, EndsNumber rest → tokens (cs ++ rest) = ts ++ tokens rest

theorem tokens_cons {c : Char} {cs rest : List Char} {t : Token} (hspace : isSpace c = false)
    (h : lexToken? c cs = some (t, rest)) : tokens (c :: cs) = t :: tokens rest := by
  rw [tokens, if_neg (by simp [hspace])]
  split
  case h_1 hnone =>
    rw [h] at hnone
    cases hnone
  case h_2 hsome =>
    rw [h] at hsome
    cases hsome
    rfl

theorem spells_nil : Spells [] [] := by
  intro rest _
  rfl

theorem Spells.append {cs ds : List Char} {c : Char} {ts us : List Token} (h : Spells cs ts)
    (hc : endsNumber c = true) (h' : Spells (c :: ds) us) : Spells (cs ++ c :: ds) (ts ++ us) := by
  intro rest hrest
  have hnext := h (c :: ds ++ rest) (endsNumber_cons hc (ds ++ rest))
  rw [List.append_assoc, hnext, h' rest hrest, List.append_assoc]

theorem Spells.mark {c : Char} {t : Token} {cs : List Char} {ts : List Token}
    (hspace : isSpace c = false) (hc : punctuation? c = some t) (h : Spells cs ts) :
    Spells (c :: cs) (t :: ts) := by
  intro rest hrest
  have hlex : lexToken? c (cs ++ rest) = some (t, cs ++ rest) := by
    rw [lexToken?, hc]
  rw [List.cons_append, tokens_cons hspace hlex, h rest hrest, List.cons_append]

def integerToken (v : Int) : Token := numberToken (numeral v).value

def startsNumber (c : Char) : Bool := c.isDigit || c == '-'

theorem lexToken?_of_startsNumber {c : Char} (h : startsNumber c = true) (cs : List Char) :
    isSpace c = false ∧
      lexToken? c cs = (lexNumber? (c :: cs)).map fun (n, rest) => (numberToken n.value, rest) := by
  have hne {d : Char} (hd : startsNumber d = false) : c ≠ d := by
    rintro rfl
    rw [h] at hd
    cases hd
  have hpunctuation : punctuation? c = none := by
    unfold punctuation?
    split
    all_goals first | rfl | cases h
  constructor
  · simp [isSpace, hne (d := ' ') rfl, hne (d := '\n') rfl, hne (d := '\t') rfl,
      hne (d := '\r') rfl]
  · simp only [lexToken?, hpunctuation, hne (d := '"') rfl, hne (d := 'n') rfl,
      hne (d := 't') rfl, hne (d := 'f') rfl, if_false]

theorem startsNumber_signedDecimal (v : Int) :
    ∃ c cs, (Text.signedDecimal v).toList = c :: cs ∧ startsNumber c = true := by
  rw [toList_signedDecimal]
  by_cases hneg : v < 0
  · exact ⟨'-', digits v.natAbs, by rw [if_pos hneg]; rfl, rfl⟩
  · cases hds : digits v.natAbs with
    | nil => exact absurd hds (Text.digits_ne_nil _)
    | cons c ds =>
      have hc : c.isDigit = true :=
        Text.isDigit_of_mem_digits (by rw [hds]; exact List.mem_cons_self)
      exact ⟨c, ds, by rw [if_neg hneg]; rfl, by simp [startsNumber, hc]⟩

theorem spells_integer (v : Int) : Spells (Text.signedDecimal v).toList [integerToken v] := by
  intro rest hrest
  have hlex := lexNumber?_signedDecimal v hrest
  obtain ⟨c, cs, hcs, hc⟩ := startsNumber_signedDecimal v
  rw [hcs, List.cons_append] at hlex ⊢
  obtain ⟨hspace, htoken⟩ := lexToken?_of_startsNumber hc (cs ++ rest)
  rw [hlex] at htoken
  rw [tokens_cons hspace htoken]
  rfl

def isPlain (c : Char) : Bool := c != '"' && c != '\\' && 0x20 ≤ c.toNat

theorem lexString?_plain {name : List Char} (h : ∀ c ∈ name, isPlain c = true)
    (seen rest : List Char) :
    lexString? (some seen) (name ++ '"' :: rest) =
      some (.string (String.ofList (seen.reverse ++ name)), rest) := by
  induction name generalizing seen with
  | nil => simp [lexString?]
  | cons c name ih =>
    have hc := h c List.mem_cons_self
    simp only [isPlain, Bool.and_eq_true, bne_iff_ne, decide_eq_true_eq] at hc
    obtain ⟨⟨hquote, hslash⟩, hcontrol⟩ := hc
    have hname := ih (fun d hd => h d (List.mem_cons_of_mem _ hd)) (c :: seen)
    rw [List.cons_append, lexString?, if_neg (by omega), Option.map_some, hname]
    · simp
    · exact hquote
    all_goals
      intros
      exact hslash ‹_›

theorem Spells.name {name : String} {cs : List Char} {ts : List Token}
    (hname : ∀ c ∈ name.toList, isPlain c = true) (h : Spells cs ts) :
    Spells ('"' :: (name.toList ++ '"' :: cs)) (.string name :: ts) := by
  intro rest hrest
  have hlex : lexToken? '"' (name.toList ++ '"' :: (cs ++ rest)) =
      some (.string name, cs ++ rest) := by
    have hstring := lexString?_plain hname [] (cs ++ rest)
    rw [List.reverse_nil, List.nil_append, String.ofList_toList] at hstring
    exact hstring
  have hcons := tokens_cons rfl hlex
  rw [h rest hrest] at hcons
  simpa using hcons

def separated : List (List Token) → List Token
  | [] => []
  | [ts] => ts
  | ts :: rest => ts ++ .comma :: separated rest

variable {α : Type} {text : α → String} {toks : α → List Token}

theorem spells_join {xs : List α} (h : ∀ x ∈ xs, Spells (text x).toList (toks x)) :
    Spells (Text.join "," (xs.map text)).toList (separated (xs.map toks)) := by
  induction xs with
  | nil => exact spells_nil
  | cons x xs ih =>
    have hx := h x List.mem_cons_self
    cases xs with
    | nil => exact hx
    | cons y ys =>
      have hrest := ih fun z hz => h z (List.mem_cons_of_mem _ hz)
      have hcomma := hrest.mark (c := ',') rfl rfl
      have hall := hx.append rfl hcomma
      simpa [Text.join, separated] using hall

/-- Members in brackets are read as an array of what each is read as. -/
theorem spells_array {xs : List α} (h : ∀ x ∈ xs, Spells (text x).toList (toks x)) :
    Spells ("[" ++ Text.join "," (xs.map text) ++ "]").toList
      (.openArray :: (separated (xs.map toks) ++ [.closeArray])) := by
  have hclose : Spells [']'] [.closeArray] := spells_nil.mark rfl rfl
  have hmembers := (spells_join h).append rfl hclose
  have hall := hmembers.mark (c := '[') rfl rfl
  simpa using hall

end RegisterMachine.Json
