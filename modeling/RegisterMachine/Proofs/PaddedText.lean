import Mathlib.Data.List.TakeWhile
import RegisterMachine.Proofs.ResultText

/-!
# Text with blanks around it

What trimming and splitting give, as equivalences: a text is what trimming leaves of it between
blanks, and a text is cut at a separator in one way only. Keys and float literals hold no blanks,
colons or commas, so they are found again in any surroundings.
-/

namespace RegisterMachine.Text

def Blank (cs : List Char) : Prop := ∀ c ∈ cs, isBlank c = true

def Around (token cs : List Char) : Prop :=
  ∃ before after, Blank before ∧ Blank after ∧ cs = before ++ token ++ after

theorem blank_append {cs ds : List Char} (hcs : Blank cs) (hds : Blank ds) : Blank (cs ++ ds) := by
  intro c hc
  rcases List.mem_append.1 hc with hc | hc
  · exact hcs c hc
  · exact hds c hc

theorem Around.prepend {token cs before : List Char} (hbefore : Blank before)
    (h : Around token cs) : Around token (before ++ cs) := by
  obtain ⟨first, after, hfirst, hafter, rfl⟩ := h
  exact ⟨before ++ first, after, blank_append hbefore hfirst, hafter, by simp⟩

theorem Around.append {token cs after : List Char} (h : Around token cs) (hafter : Blank after) :
    Around token (cs ++ after) := by
  obtain ⟨before, last, hbefore, hlast, rfl⟩ := h
  exact ⟨before, last ++ after, hbefore, blank_append hlast hafter, by simp⟩

theorem trimStart_of_blank {cs : List Char} (h : Blank cs) : trimStart cs = [] :=
  List.dropWhile_eq_nil_iff.2 h

theorem trimEnd_append_blank {bs : List Char} (h : Blank bs) (cs : List Char) :
    trimEnd (cs ++ bs) = trimEnd cs := by
  have hreverse : ∀ c ∈ bs.reverse, isBlank c = true := fun c hc => h c (List.mem_reverse.1 hc)
  rw [trimEnd, List.reverse_append, List.dropWhile_append_of_pos hreverse]
  rfl

theorem trim_append_blank {bs : List Char} (h : Blank bs) (cs : List Char) :
    trim (cs ++ bs) = trim cs := by
  rw [trim, trimStart, List.dropWhile_append]
  split
  case isTrue hempty =>
    have hcs : trimStart cs = [] := List.isEmpty_iff.1 hempty
    have hbs : bs.dropWhile isBlank = [] := trimStart_of_blank h
    rw [trim, hcs, hbs]
  case isFalse => exact trimEnd_append_blank h _

theorem trim_blank_append {bs : List Char} (h : Blank bs) (cs : List Char) :
    trim (bs ++ cs) = trim cs := by
  rw [trim, trimStart, List.dropWhile_append_of_pos h]
  rfl

theorem trim_of_blank {cs : List Char} (h : Blank cs) : trim cs = [] := by
  rw [trim, trimStart_of_blank h]
  rfl

theorem Around.trim_eq {token cs : List Char} (h : Around token cs) (htight : Tight token) :
    trim cs = token := by
  obtain ⟨before, after, hbefore, hafter, rfl⟩ := h
  rw [trim_append_blank hafter, trim_blank_append hbefore, htight.trim_eq]

theorem around_trim (cs : List Char) : Around (trim cs) cs := by
  have hstart : cs.takeWhile isBlank ++ trimStart cs = cs := List.takeWhile_append_dropWhile
  have hend : trim cs ++ ((trimStart cs).reverse.takeWhile isBlank).reverse = trimStart cs := by
    rw [trim, trimEnd, ← List.reverse_append, List.takeWhile_append_dropWhile,
      List.reverse_reverse]
  refine ⟨cs.takeWhile isBlank, ((trimStart cs).reverse.takeWhile isBlank).reverse, ?_, ?_, ?_⟩
  · exact fun c hc => List.mem_takeWhile_imp hc
  · exact fun c hc => List.mem_takeWhile_imp (List.mem_reverse.1 hc)
  · rw [List.append_assoc, hend, hstart]

theorem trim_eq_nil_iff {cs : List Char} : trim cs = [] ↔ Blank cs := by
  constructor
  · intro h
    obtain ⟨before, after, hbefore, hafter, heq⟩ := around_trim cs
    rw [h, List.append_nil] at heq
    rw [heq]
    exact blank_append hbefore hafter
  · exact trim_of_blank

/-! ### Separators -/

theorem splitAll_eq_splitOn (separator : Char) (cs : List Char) :
    splitAll separator cs = cs.splitOn separator := by
  induction cs with
  | nil => rfl
  | cons c cs ih =>
    rw [splitAll, List.splitOn_cons_eq_if_modifyHead, ih]
    simp only [beq_iff_eq]
    split
    case isTrue => rfl
    case isFalse =>
      cases hpieces : cs.splitOn separator with
      | nil => exact absurd (ih.trans hpieces) (splitAll_ne_nil separator cs)
      | cons piece pieces => rfl

theorem intercalate_concat {separator : Char} {pieces : List (List Char)} (h : pieces ≠ [])
    (last : List Char) :
    [separator].intercalate (pieces ++ [last]) =
      [separator].intercalate pieces ++ separator :: last := by
  induction pieces with
  | nil => exact absurd rfl h
  | cons piece pieces ih =>
    cases pieces with
    | nil => simp [List.intercalate]
    | cons next pieces =>
      have hrest := ih (by simp)
      simp only [List.intercalate, List.cons_append, List.intersperse_cons_cons, List.flatten_cons,
        List.append_assoc] at hrest ⊢
      rw [hrest]

theorem splitAll_append_of_notMem {separator : Char} {bs : List Char} (h : separator ∉ bs)
    (cs : List Char) : ∃ init last, splitAll separator cs = init ++ [last] ∧
      splitAll separator (cs ++ bs) = init ++ [last ++ bs] := by
  induction cs with
  | nil => exact ⟨[], [], rfl, splitAll_of_notMem h⟩
  | cons c cs ih =>
    obtain ⟨init, last, hcs, happend⟩ := ih
    rw [List.cons_append, splitAll, splitAll, hcs, happend]
    split
    case isTrue => exact ⟨[] :: init, last, rfl, rfl⟩
    case isFalse =>
      cases init with
      | nil => exact ⟨[], c :: last, rfl, rfl⟩
      | cons piece init => exact ⟨(c :: piece) :: init, last, rfl, rfl⟩

theorem map_trim_splitAll_append_blank {separator : Char} (hseparator : isBlank separator = false)
    {bs : List Char} (h : Blank bs) (cs : List Char) :
    (splitAll separator (cs ++ bs)).map trim = (splitAll separator cs).map trim := by
  have hnot : separator ∉ bs := by
    intro hmem
    rw [h separator hmem] at hseparator
    cases hseparator
  obtain ⟨init, last, hcs, happend⟩ := splitAll_append_of_notMem hnot cs
  rw [hcs, happend, List.map_append, List.map_append, List.map_singleton, List.map_singleton,
    trim_append_blank h]

theorem map_trim_splitAll_blank_append {separator : Char} (hseparator : isBlank separator = false)
    {bs : List Char} (h : Blank bs) (cs : List Char) :
    (splitAll separator (bs ++ cs)).map trim = (splitAll separator cs).map trim := by
  induction bs with
  | nil => rfl
  | cons b bs ih =>
    rw [Blank, List.forall_mem_cons] at h
    have hne : b ≠ separator := by
      rintro rfl
      rw [h.1] at hseparator
      cases hseparator
    rw [List.cons_append, map_trim_splitAll_blank h.1 hne, ih h.2]

theorem map_trim_splitAll_trim {separator : Char} (hseparator : isBlank separator = false)
    (cs : List Char) :
    (splitAll separator (trim cs)).map trim = (splitAll separator cs).map trim := by
  obtain ⟨before, after, hbefore, hafter, heq⟩ := around_trim cs
  have hall := map_trim_splitAll_append_blank hseparator hafter (before ++ trim cs)
  rw [map_trim_splitAll_blank_append hseparator hbefore, ← heq] at hall
  exact hall.symm

theorem splitFirst?_eq_some_iff {separator : Char} {cs before after : List Char} :
    splitFirst? separator cs = some (before, after) ↔
      cs = before ++ separator :: after ∧ separator ∉ before := by
  constructor
  · intro h
    induction cs generalizing before with
    | nil => cases h
    | cons c cs ih =>
      rw [splitFirst?] at h
      split at h
      case isTrue hc =>
        cases h
        exact ⟨by rw [hc]; rfl, List.not_mem_nil⟩
      case isFalse hc =>
        obtain ⟨⟨front, back⟩, hrest, heq⟩ := Option.map_eq_some_iff.1 h
        cases heq
        obtain ⟨rfl, hnot⟩ := ih hrest
        exact ⟨rfl, by simp [Ne.symm hc, hnot]⟩
  · rintro ⟨rfl, hnot⟩
    exact splitFirst?_append hnot after

theorem enclosed?_eq_some_iff {first last : Char} {cs body : List Char} :
    enclosed? first last cs = some body ↔ cs = first :: (body ++ [last]) := by
  cases cs with
  | nil => simp [enclosed?]
  | cons c cs =>
    rw [enclosed?]
    split
    case isTrue h =>
      obtain ⟨rfl, hlast⟩ := h
      obtain ⟨init, rfl⟩ := List.getLast?_eq_some_iff.1 hlast
      simp
    case isFalse h =>
      simp only [reduceCtorEq, false_iff]
      intro heq
      cases heq
      exact h ⟨rfl, by simp⟩

theorem isDigit_of_digitValue? {c : Char} {d : Nat} (h : digitValue? c = some d) :
    c.isDigit = true := by
  unfold digitValue? at h
  split at h
  case isTrue hrange =>
    have hval : 48 ≤ c.val ∧ c.val ≤ 57 := hrange
    simpa [Char.isDigit] using hval
  case isFalse => cases h

theorem isDigit_of_readDigits? {cs : List Char} {acc n : Nat} (h : readDigits? acc cs = some n) :
    ∀ c ∈ cs, c.isDigit = true := by
  induction cs generalizing acc with
  | nil => simp
  | cons c cs ih =>
    obtain ⟨d, hd, hrest⟩ := Option.bind_eq_some_iff.1 h
    exact List.forall_mem_cons.2 ⟨isDigit_of_digitValue? hd, ih hrest⟩

theorem isDigit_of_readDecimal? {cs : List Char} {n : Nat} (h : readDecimal? cs = some n) :
    cs ≠ [] ∧ ∀ c ∈ cs, c.isDigit = true := by
  unfold readDecimal? at h
  split at h
  case isTrue => cases h
  case isFalse hne => exact ⟨by simpa using hne, isDigit_of_readDigits? h⟩

theorem toLower_of_isBlank {c : Char} (h : isBlank c = true) : c.toLower = c := by
  have hranges : ∀ r ∈ blankRanges, r.2 < 65 ∨ 90 < r.1 := by decide
  obtain ⟨r, hr, hlow, hhigh⟩ := inRanges_iff.1 h
  have hapart := hranges r hr
  unfold Char.toLower
  rw [dif_neg]
  rintro ⟨hge, hle⟩
  have hge' : 65 ≤ c.toNat := hge
  have hle' : c.toNat ≤ 90 := hle
  omega

end RegisterMachine.Text

namespace RegisterMachine.Number

/-! ### Float literals -/

/-- Characters that a float literal is made of, in either case. -/
def isLiteralChar (c : Char) : Bool :=
  c.isDigit || ['+', '-', '.', 'e', 'i', 'n', 'f', 't', 'y', 'a'].contains c.toLower

theorem isLiteralChar_of_isDigit {c : Char} (h : c.isDigit = true) : isLiteralChar c = true := by
  rw [isLiteralChar, h, Bool.true_or]

theorem isBlank_of_isLiteralChar {c : Char} (h : isLiteralChar c = true) :
    Text.isBlank c = false := by
  rw [isLiteralChar, Bool.or_eq_true] at h
  rcases h with hdigit | hother
  · exact Text.isBlank_of_isDigit hdigit
  · rw [Bool.eq_false_iff]
    intro hblank
    have hchars : ['+', '-', '.', 'e', 'i', 'n', 'f', 't', 'y', 'a'].all
        (fun c => !Text.isBlank c) = true := by decide
    rw [Text.toLower_of_isBlank hblank] at hother
    have hnot := List.all_eq_true.1 hchars c (List.contains_iff_mem.1 hother)
    rw [hblank] at hnot
    cases hnot

theorem chars_splitSign (cs : List Char) (h : ∀ c ∈ (splitSign cs).2, isLiteralChar c = true) :
    ∀ c ∈ cs, isLiteralChar c = true := by
  unfold splitSign at h
  split at h
  case h_1 => exact List.forall_mem_cons.2 ⟨by decide, h⟩
  case h_2 => exact List.forall_mem_cons.2 ⟨by decide, h⟩
  case h_3 => exact h

theorem chars_splitDigits (cs : List Char)
    (h : ∀ c ∈ (splitDigits cs).2, isLiteralChar c = true) : ∀ c ∈ cs, isLiteralChar c = true := by
  have hcs : (splitDigits cs).1 ++ (splitDigits cs).2 = cs := List.takeWhile_append_dropWhile
  rw [← hcs]
  intro c hc
  rcases List.mem_append.1 hc with hdigit | hrest
  · exact isLiteralChar_of_isDigit (List.mem_takeWhile_imp hdigit)
  · exact h c hrest

theorem chars_splitFraction (cs : List Char)
    (h : ∀ c ∈ (splitFraction cs).2, isLiteralChar c = true) :
    ∀ c ∈ cs, isLiteralChar c = true := by
  unfold splitFraction at h
  split at h
  case h_1 rest => exact List.forall_mem_cons.2 ⟨by decide, chars_splitDigits rest h⟩
  case h_2 => exact h

theorem chars_of_readExponent? {cs : List Char} {e : Int} (h : readExponent? cs = some e) :
    ∀ c ∈ cs, isLiteralChar c = true := by
  cases cs with
  | nil => simp
  | cons c cs =>
    rw [readExponent?] at h
    split at h
    case isTrue hc =>
      obtain ⟨n, hread, _⟩ := Option.map_eq_some_iff.1 h
      obtain ⟨digits, hdigits, _⟩ := Option.bind_eq_some_iff.1 hread
      refine List.forall_mem_cons.2 ⟨?_, chars_splitSign cs fun d hd => ?_⟩
      · rcases hc with rfl | rfl
        · decide
        · decide
      · exact isLiteralChar_of_isDigit ((Text.isDigit_of_readDecimal? hdigits).2 d hd)
    case isFalse => cases h

theorem chars_of_readDecimalLiteral? {cs : List Char} {d : Decimal}
    (h : readDecimalLiteral? cs = some d) : cs ≠ [] ∧ ∀ c ∈ cs, isLiteralChar c = true := by
  obtain ⟨exponent, hexponent, hrest⟩ := Option.bind_eq_some_iff.1 h
  refine ⟨?_, chars_splitDigits cs (chars_splitFraction _ (chars_of_readExponent? hexponent))⟩
  rintro rfl
  cases hrest

theorem chars_of_word {cs : List Char} {word : String}
    (h : String.ofList (cs.map Char.toLower) = word) (hne : word.toList ≠ [])
    (hword : word.toList.all
      (['+', '-', '.', 'e', 'i', 'n', 'f', 't', 'y', 'a'].contains ·) = true) :
    cs ≠ [] ∧ ∀ c ∈ cs, isLiteralChar c = true := by
  subst h
  rw [String.toList_ofList] at hne hword
  refine ⟨by simpa using hne, fun c hc => ?_⟩
  have hlower := List.all_eq_true.1 hword c.toLower (List.mem_map_of_mem hc)
  rw [isLiteralChar, hlower, Bool.or_true]

theorem chars_of_readPattern? {f : BinaryFormat} {cs : List Char} {bits : Nat}
    (h : f.readPattern? cs = some bits) : cs ≠ [] ∧ ∀ c ∈ cs, isLiteralChar c = true := by
  simp only [BinaryFormat.readPattern?] at h
  split at h
  case isTrue hinfinite =>
    rcases hinfinite with hword | hword
    · exact chars_of_word hword (by decide) (by decide)
    · exact chars_of_word hword (by decide) (by decide)
  case isFalse =>
    split at h
    case isTrue hword => exact chars_of_word hword (by decide) (by decide)
    case isFalse =>
      obtain ⟨d, hd, _⟩ := Option.map_eq_some_iff.1 h
      exact chars_of_readDecimalLiteral? hd

theorem chars_of_readLiteral? {f : BinaryFormat} {cs : List Char} {bits : Nat}
    (h : f.readLiteral? cs = some bits) : cs ≠ [] ∧ ∀ c ∈ cs, isLiteralChar c = true := by
  obtain ⟨pattern, hpattern, _⟩ := Option.map_eq_some_iff.1 h
  obtain ⟨hne, hmagnitude⟩ := chars_of_readPattern? hpattern
  refine ⟨?_, chars_splitSign cs hmagnitude⟩
  rintro rfl
  exact hne rfl

theorem part_of_readLiteral? {f : BinaryFormat} {cs : List Char} {bits : Nat}
    (h : f.readLiteral? cs = some bits) : Text.Part cs := by
  obtain ⟨hne, hchars⟩ := chars_of_readLiteral? h
  refine ⟨hne, fun c hc => isBlank_of_isLiteralChar (hchars c hc), fun hcomma => ?_⟩
  exact absurd (hchars ',' hcomma) (by decide)

end RegisterMachine.Number
