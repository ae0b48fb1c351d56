import Mathlib.Data.List.Forall2
import RegisterMachine.Proofs.PaddedText

/-!
# The format of preload text

Which texts the preload parser accepts, by a grammar of lines, and what it makes of them. A line
that says something maps a key to floats in brackets. The parser takes in a text whose lines all
do, with the last line of a key deciding, and reports the first line that does not.
-/

namespace RegisterMachine.Preload

open Text (Blank Around)
open Number (BinaryFormat)

def Item (piece : List Char) (w : Word) : Prop :=
  ∃ token bits, Around token piece ∧ BinaryFormat.binary32.readLiteral? token = some bits ∧
    w = .ofNat bits

/-- What may stand between the brackets: blanks, or floats separated by single commas, with at
most one comma behind them. -/
inductive Body : List Char → List Word → Prop
  | blank {cs : List Char} : Blank cs → Body cs []
  | items {pieces : List (List Char)} {values : List Word} : pieces ≠ [] →
      List.Forall₂ Item pieces values → Body ([','].intercalate pieces) values
  | trailing {pieces : List (List Char)} {values : List Word} {rest : List Char} : pieces ≠ [] →
      List.Forall₂ Item pieces values → Blank rest →
      Body ([','].intercalate pieces ++ ',' :: rest) values

/-- The line maps a key to values. -/
inductive Declares : List Char → UInt32 → List Word → Prop
  | mk {left token right body : List Char} {key : UInt32} {values : List Word} :
      Around token left → readKey? token = some key →
      Around ('[' :: (body ++ [']'])) right → Body body values →
      Declares (left ++ ':' :: right) key values

/-- The line is neither blank nor a comment. -/
def Significant (line : List Char) : Prop :=
  Text.trim line ≠ [] ∧ (Text.trim line).head? ≠ some '#'

/-- The line says nothing, or something in the format. -/
def Formed (line : List Char) : Prop := Significant line → ∃ key values, Declares line key values

/-- The last line with a key that occurs among some lines maps it to values. -/
def LastDeclares (lines : List (List Char)) (key : UInt32) (values : List Word) : Prop :=
  ∃ before line after, lines = before ++ line :: after ∧ Significant line ∧
    Declares line key values ∧ ∀ l ∈ after, Significant l → ∀ vs, ¬ Declares l key vs

theorem chars_of_readKey? {cs : List Char} {key : UInt32} (h : readKey? cs = some key) :
    cs ≠ [] ∧ (∀ c ∈ cs, Text.isBlank c = false) ∧ ':' ∉ cs := by
  obtain ⟨n, hread, _⟩ := Option.bind_eq_some_iff.1 h
  split at hread
  case h_1 rest =>
    obtain ⟨_, hdigits⟩ := Text.isDigit_of_readDecimal? hread
    refine ⟨by simp, ?_, ?_⟩
    · exact List.forall_mem_cons.2 ⟨by decide, fun c hc => Text.isBlank_of_isDigit (hdigits c hc)⟩
    · intro hmem
      rcases List.mem_cons.1 hmem with heq | hmem
      · cases heq
      · cases hdigits ':' hmem
  case h_2 =>
    obtain ⟨hne, hdigits⟩ := Text.isDigit_of_readDecimal? hread
    refine ⟨hne, fun c hc => Text.isBlank_of_isDigit (hdigits c hc), fun hmem => ?_⟩
    cases hdigits ':' hmem

theorem readValue_eq_ok_iff {cs : List Char} {w : Word} :
    readValue cs = .ok w ↔
      ∃ bits, BinaryFormat.binary32.readLiteral? cs = some bits ∧ w = .ofNat bits := by
  unfold readValue
  split
  case isTrue hempty =>
    obtain rfl := List.isEmpty_iff.1 hempty
    simp only [reduceCtorEq, false_iff]
    rintro ⟨bits, hread, _⟩
    exact (Number.part_of_readLiteral? hread).nonempty rfl
  case isFalse =>
    split
    case h_1 bits hread => simp [hread, eq_comm]
    case h_2 hread => simp [hread]

theorem item_iff {piece : List Char} {w : Word} :
    Item piece w ↔ readValue (Text.trim piece) = .ok w := by
  rw [readValue_eq_ok_iff]
  constructor
  · rintro ⟨token, bits, haround, hread, hw⟩
    rw [haround.trim_eq (Number.part_of_readLiteral? hread).tight]
    exact ⟨bits, hread, hw⟩
  · rintro ⟨bits, hread, hw⟩
    exact ⟨Text.trim piece, bits, Text.around_trim piece, hread, hw⟩

theorem Item.part {piece : List Char} {w : Word} (h : Item piece w) :
    Text.trim piece ≠ [] ∧ ',' ∉ piece := by
  obtain ⟨token, bits, haround, hread, _⟩ := h
  have hpart := Number.part_of_readLiteral? hread
  refine ⟨by rw [haround.trim_eq hpart.tight]; exact hpart.nonempty, ?_⟩
  obtain ⟨before, after, hbefore, hafter, rfl⟩ := haround
  intro hmem
  rw [List.mem_append, List.mem_append] at hmem
  rcases hmem with (hmem | hmem) | hmem
  · cases hbefore ',' hmem
  · exact hpart.comma hmem
  · cases hafter ',' hmem

theorem mapM_cons_eq_ok_iff {c : List Char} {cs : List (List Char)} {values : List Word} :
    (c :: cs).mapM readValue = .ok values ↔
      ∃ w ws, readValue c = .ok w ∧ cs.mapM readValue = .ok ws ∧ values = w :: ws := by
  rw [List.mapM_cons]
  cases readValue c with
  | error fault => simp [bind, Except.bind]
  | ok w =>
    cases cs.mapM readValue with
    | error fault => simp [bind, Except.bind]
    | ok ws => simp [bind, Except.bind, pure, Except.pure, eq_comm]

theorem mapM_eq_ok_iff {cs : List (List Char)} {values : List Word} :
    cs.mapM readValue = .ok values ↔ List.Forall₂ (fun c w => readValue c = .ok w) cs values := by
  induction cs generalizing values with
  | nil => simp [pure, Except.pure, eq_comm]
  | cons c cs ih =>
    rw [mapM_cons_eq_ok_iff, List.forall₂_cons_left_iff]
    simp only [ih]

theorem mapM_trim_eq_ok_iff {pieces : List (List Char)} {values : List Word} :
    (pieces.map Text.trim).mapM readValue = .ok values ↔ List.Forall₂ Item pieces values := by
  rw [mapM_eq_ok_iff, List.forall₂_map_left_iff]
  simp only [← item_iff]

/-! ### Between the brackets -/

theorem parts_of_items {pieces : List (List Char)} {values : List Word}
    (h : List.Forall₂ Item pieces values) : ∀ piece ∈ pieces, Text.trim piece ≠ [] ∧ ',' ∉ piece := by
  induction h with
  | nil => simp
  | cons hitem _ ih => exact List.forall_mem_cons.2 ⟨hitem.part, ih⟩

theorem items_trim (body : List Char) : items (Text.trim body) = items body := by
  simp only [items, Text.map_trim_splitAll_trim (by decide : Text.isBlank ',' = false)]

theorem items_of_pieces {pieces : List (List Char)} {values : List Word} (hne : pieces ≠ [])
    (h : List.Forall₂ Item pieces values) :
    items ([','].intercalate pieces) = pieces.map Text.trim := by
  have hparts := parts_of_items h
  have hsplit : Text.splitAll ',' ([','].intercalate pieces) = pieces := by
    rw [Text.splitAll_eq_splitOn]
    exact List.splitOn_intercalate ',' (fun piece hpiece => (hparts piece hpiece).2) hne
  have hlast : (pieces.map Text.trim).getLast? ≠ some [] := by
    intro hempty
    obtain ⟨piece, hpiece, hnil⟩ := List.mem_map.1 (List.mem_of_getLast? hempty)
    exact (hparts piece hpiece).1 hnil
  simp only [items, hsplit, hlast, if_false]

theorem items_of_trailing {pieces : List (List Char)} {values : List Word} {rest : List Char}
    (hne : pieces ≠ []) (h : List.Forall₂ Item pieces values) (hrest : Blank rest) :
    items ([','].intercalate pieces ++ ',' :: rest) = pieces.map Text.trim := by
  have hcomma : ',' ∉ rest := by
    intro hmem
    cases hrest ',' hmem
  have hparts := parts_of_items h
  have hsplit : Text.splitAll ',' ([','].intercalate pieces ++ ',' :: rest) = pieces ++ [rest] := by
    rw [Text.splitAll_eq_splitOn, ← Text.intercalate_concat hne]
    refine List.splitOn_intercalate ',' ?_ (by simp)
    intro piece hpiece
    rcases List.mem_append.1 hpiece with hpiece | hpiece
    · exact (hparts piece hpiece).2
    · rw [List.mem_singleton.1 hpiece]
      exact hcomma
  simp [items, hsplit, Text.trim_of_blank hrest]

theorem not_blank_of_items {pieces : List (List Char)} {values : List Word} (hne : pieces ≠ [])
    (h : List.Forall₂ Item pieces values) (rest : List Char) :
    ¬ Blank ([','].intercalate pieces ++ rest) := by
  intro hblank
  obtain ⟨piece, pieces, rfl⟩ := List.exists_cons_of_ne_nil hne
  have hpiece := (parts_of_items h piece List.mem_cons_self).1
  refine hpiece (Text.trim_of_blank fun c hc => hblank c (List.mem_append_left _ ?_))
  cases pieces with
  | nil => simpa [List.intercalate] using hc
  | cons next pieces => simp [List.intercalate, hc]

/-- Pieces that are read one by one, with an empty last one dropped, make up a body. -/
theorem body_of_items {body : List Char} {values : List Word} (hblank : ¬ Blank body)
    (h : (items body).mapM readValue = .ok values) : Body body values := by
  have hbody : [','].intercalate (Text.splitAll ',' body) = body := by
    rw [Text.splitAll_eq_splitOn]
    exact List.intercalate_splitOn ','
  have hsplit := Text.splitAll_ne_nil ',' body
  simp only [items] at h
  generalize Text.splitAll ',' body = pieces at hbody hsplit h
  obtain ⟨init, last, rfl⟩ : ∃ init last, pieces = init ++ [last] :=
    ⟨_, _, (List.dropLast_append_getLast hsplit).symm⟩
  subst hbody
  split at h
  case isTrue hlast =>
    have htrim : Text.trim last = [] := by simpa using hlast
    have hinit : init ≠ [] := by
      rintro rfl
      refine hblank ?_
      simpa [List.intercalate] using Text.trim_eq_nil_iff.1 htrim
    have hvalues : (init.map Text.trim).mapM readValue = .ok values := by simpa using h
    rw [Text.intercalate_concat hinit]
    exact .trailing hinit (mapM_trim_eq_ok_iff.1 hvalues) (Text.trim_eq_nil_iff.1 htrim)
  case isFalse => exact .items hsplit (mapM_trim_eq_ok_iff.1 h)

theorem readValues_eq_ok_iff {body : List Char} {values : List Word} :
    readValues (Text.trim body) = .ok values ↔ Body body values := by
  rw [readValues, items_trim]
  constructor
  · intro h
    split at h
    case isTrue hempty =>
      cases h
      exact .blank (Text.trim_eq_nil_iff.1 (List.isEmpty_iff.1 hempty))
    case isFalse hne =>
      refine body_of_items (fun hblank => hne ?_) h
      rw [Text.trim_of_blank hblank]
      rfl
  · intro h
    have hempty (cs : List Char) : (Text.trim cs).isEmpty = true ↔ Blank cs := by
      rw [List.isEmpty_iff, Text.trim_eq_nil_iff]
    cases h with
    | blank hblank => rw [if_pos ((hempty _).2 hblank)]
    | items hne hitems =>
      have hnot := not_blank_of_items hne hitems []
      rw [List.append_nil, ← hempty] at hnot
      rw [if_neg hnot, items_of_pieces hne hitems, mapM_trim_eq_ok_iff]
      exact hitems
    | @trailing pieces _ rest hne hitems hrest =>
      have hnot := not_blank_of_items hne hitems (',' :: rest)
      rw [← hempty] at hnot
      rw [if_neg hnot, items_of_trailing hne hitems hrest, mapM_trim_eq_ok_iff]
      exact hitems

/-! ### Lines -/

theorem declares_of_readLine {line : List Char} {key : UInt32} {values : List Word}
    (h : readLine (Text.trim line) = .ok (key, values)) : Declares line key values := by
  unfold readLine at h
  split at h
  case h_1 => cases h
  case h_2 left right hsplit =>
    split at h
    case h_1 => cases h
    case h_2 k hkey =>
      split at h
      case h_1 => cases h
      case h_2 body hbody =>
        obtain ⟨before, after, hbefore, hafter, hline⟩ := Text.around_trim line
        obtain ⟨htrim, _⟩ := Text.splitFirst?_eq_some_iff.1 hsplit
        have hright := Text.around_trim right
        rw [Text.enclosed?_eq_some_iff.1 hbody] at hright
        cases hvalues : readValues (Text.trim body) with
        | error fault =>
          rw [hvalues] at h
          cases h
        | ok vs =>
          rw [hvalues] at h
          cases h
          have hshape : line = before ++ left ++ ':' :: (right ++ after) := by
            rw [hline, htrim]
            simp
          rw [hshape]
          exact .mk ((Text.around_trim left).prepend hbefore) hkey (hright.append hafter)
            (readValues_eq_ok_iff.1 hvalues)

theorem tight_brackets (body : List Char) : Text.Tight ('[' :: (body ++ [']'])) :=
  (Text.tight_singleton (by decide)).enclose (Text.tight_singleton (by decide)) (by simp) (by simp)
    body

theorem readLine_of_declares {line : List Char} {key : UInt32} {values : List Word}
    (h : Declares line key values) : readLine (Text.trim line) = .ok (key, values) := by
  cases h with
  | @mk left token right body _ _ hleft hkey hright hbody =>
    obtain ⟨before, after, hbefore, hafter, rfl⟩ := hleft
    obtain ⟨gap, rest, hgap, hrest, rfl⟩ := hright
    obtain ⟨hne, hblank, hcolon⟩ := chars_of_readKey? hkey
    have htoken := Text.tight_of_forall hblank
    have hline : Text.trim (before ++ token ++ after ++ ':' :: (gap ++ '[' :: (body ++ [']']) ++ rest))
        = token ++ after ++ ':' :: (gap ++ '[' :: (body ++ [']'])) := by
      have htight := htoken.enclose (Text.tight_singleton (c := ']') (by decide)) hne (by simp)
        (after ++ ':' :: (gap ++ '[' :: body))
      have haround : Around (token ++ (after ++ ':' :: (gap ++ '[' :: body)) ++ [']'])
          (before ++ token ++ after ++ ':' :: (gap ++ '[' :: (body ++ [']']) ++ rest)) :=
        ⟨before, rest, hbefore, hrest, by simp⟩
      rw [haround.trim_eq htight]
      simp
    have hsplit : Text.splitFirst? ':' (token ++ after ++ ':' :: (gap ++ '[' :: (body ++ [']']))) =
        some (token ++ after, gap ++ '[' :: (body ++ [']'])) := by
      apply Text.splitFirst?_append
      intro hmem
      rcases List.mem_append.1 hmem with hmem | hmem
      · exact hcolon hmem
      · cases hafter ':' hmem
    have hleft : Text.trim (token ++ after) = token := by
      rw [Text.trim_append_blank hafter, htoken.trim_eq]
    have hright : Text.trim (gap ++ '[' :: (body ++ [']'])) = '[' :: (body ++ [']']) := by
      rw [Text.trim_blank_append hgap, (tight_brackets body).trim_eq]
    have henclosed : Text.enclosed? '[' ']' ('[' :: (body ++ [']'])) = some body :=
      Text.enclosed?_eq_some_iff.2 rfl
    simp only [hline, readLine, hsplit, hleft, hkey, hright, henclosed,
      readValues_eq_ok_iff.2 hbody]
    rfl

theorem readLine_eq_ok_iff {line : List Char} {key : UInt32} {values : List Word} :
    readLine (Text.trim line) = .ok (key, values) ↔ Declares line key values :=
  ⟨declares_of_readLine, readLine_of_declares⟩

theorem isSkipped_iff {line : List Char} :
    isSkipped (Text.trim line) = true ↔ ¬ Significant line := by
  rw [isSkipped, Bool.or_eq_true, List.isEmpty_iff, beq_iff_eq, Significant, ← not_or, not_not]

/-! ### Texts -/

section Lines

variable {raw : List Char} {rest lines : List (List Char)} {source source' : Source} {number : Nat}

/-- What one line does to reading: it is passed over, taken in or reported. -/
theorem readLines_cons (source : Source) (number : Nat) (raw : List Char)
    (rest : List (List Char)) :
    (¬ Significant raw ∧
        readLines source number (raw :: rest) = readLines source (number + 1) rest) ∨
      (∃ key values, Significant raw ∧ Declares raw key values ∧
        readLines source number (raw :: rest) =
          readLines (source.insert key values) (number + 1) rest) ∨
      (¬ Formed raw ∧
        ∃ detail, readLines source number (raw :: rest) = .error (.preload number detail)) := by
  simp only [readLines]
  split
  case isTrue hskipped => exact .inl ⟨isSkipped_iff.1 hskipped, rfl⟩
  case isFalse hskipped =>
    have hsignificant : Significant raw := not_not.1 fun h => hskipped (isSkipped_iff.2 h)
    split
    case h_1 key values hread =>
      exact .inr (.inl ⟨key, values, hsignificant, readLine_eq_ok_iff.1 hread, rfl⟩)
    case h_2 fault hread =>
      refine .inr (.inr ⟨fun hformed => ?_, fault.message, rfl⟩)
      obtain ⟨key, values, hdeclares⟩ := hformed hsignificant
      rw [readLine_eq_ok_iff.2 hdeclares] at hread
      cases hread

theorem declares_iff {line : List Char} {key key' : UInt32} {values values' : List Word}
    (h : Declares line key values) :
    Declares line key' values' ↔ key' = key ∧ values' = values := by
  constructor
  · intro h'
    have hread := (readLine_eq_ok_iff.2 h').symm.trans (readLine_eq_ok_iff.2 h)
    cases hread
    exact ⟨rfl, rfl⟩
  · rintro ⟨rfl, rfl⟩
    exact h

theorem exists_readLines (h : ∀ line ∈ lines, Formed line) (source : Source) (number : Nat) :
    ∃ source', readLines source number lines = .ok source' := by
  induction lines generalizing source number with
  | nil => exact ⟨source, rfl⟩
  | cons raw rest ih =>
    rw [List.forall_mem_cons] at h
    rcases readLines_cons source number raw rest with ⟨_, heq⟩ | ⟨key, values, _, _, heq⟩ | ⟨hbad, _⟩
    · rw [heq]
      exact ih h.2 _ _
    · rw [heq]
      exact ih h.2 _ _
    · exact absurd h.1 hbad

theorem formed_of_readLines (h : readLines source number lines = .ok source') :
    ∀ line ∈ lines, Formed line := by
  induction lines generalizing source number with
  | nil => simp
  | cons raw rest ih =>
    rw [List.forall_mem_cons]
    rcases readLines_cons source number raw rest with
      ⟨hskipped, heq⟩ | ⟨key, values, _, hdeclares, heq⟩ | ⟨_, detail, heq⟩
    · rw [heq] at h
      exact ⟨fun hsignificant => absurd hsignificant hskipped, ih h⟩
    · rw [heq] at h
      exact ⟨fun _ => ⟨key, values, hdeclares⟩, ih h⟩
    · rw [heq] at h
      cases h

theorem readLines_of_first {before after : List (List Char)} {line : List Char}
    (h : ∀ l ∈ before, Formed l) (hline : ¬ Formed line) (source : Source) (number : Nat) :
    ∃ detail, readLines source number (before ++ line :: after) =
      .error (.preload (number + before.length) detail) := by
  induction before generalizing source number with
  | nil =>
    rcases readLines_cons source number line after with
      ⟨hskipped, _⟩ | ⟨key, values, _, hdeclares, _⟩ | ⟨_, herror⟩
    · exact absurd (fun hsignificant => absurd hsignificant hskipped) hline
    · exact absurd (fun _ => ⟨key, values, hdeclares⟩) hline
    · exact herror
  | cons raw before ih =>
    rw [List.forall_mem_cons] at h
    have hnumber : number + (raw :: before).length = number + 1 + before.length := by
      rw [List.length_cons]
      omega
    rw [List.cons_append, hnumber]
    rcases readLines_cons source number raw (before ++ line :: after) with
      ⟨_, heq⟩ | ⟨key, values, _, _, heq⟩ | ⟨hbad, _⟩
    · rw [heq]
      exact ih h.2 _ _
    · rw [heq]
      exact ih h.2 _ _
    · exact absurd h.1 hbad

theorem exists_first_unformed (h : ¬ ∀ line ∈ lines, Formed line) :
    ∃ before line after, lines = before ++ line :: after ∧ (∀ l ∈ before, Formed l) ∧
      ¬ Formed line := by
  induction lines with
  | nil => exact absurd (by simp) h
  | cons raw rest ih =>
    by_cases hraw : Formed raw
    · obtain ⟨before, line, after, rfl, hbefore, hline⟩ :=
        ih fun hrest => h (List.forall_mem_cons.2 ⟨hraw, hrest⟩)
      exact ⟨raw :: before, line, after, rfl, List.forall_mem_cons.2 ⟨hraw, hbefore⟩, hline⟩
    · exact ⟨[], raw, rest, rfl, by simp, hraw⟩

def Unmentioned (lines : List (List Char)) (key : UInt32) : Prop :=
  ∀ l ∈ lines, Significant l → ∀ values, ¬ Declares l key values

theorem lastDeclares_cons {key : UInt32} {values : List Word} :
    LastDeclares (raw :: rest) key values ↔ LastDeclares rest key values ∨
      (Significant raw ∧ Declares raw key values ∧ Unmentioned rest key) := by
  constructor
  · rintro ⟨before, line, after, heq, hsignificant, hdeclares, hlast⟩
    cases before with
    | nil =>
      cases heq
      exact .inr ⟨hsignificant, hdeclares, hlast⟩
    | cons first before =>
      cases heq
      exact .inl ⟨before, line, after, rfl, hsignificant, hdeclares, hlast⟩
  · rintro (⟨before, line, after, rfl, hsignificant, hdeclares, hlast⟩ |
      ⟨hsignificant, hdeclares, hlast⟩)
    · exact ⟨raw :: before, line, after, rfl, hsignificant, hdeclares, hlast⟩
    · exact ⟨[], raw, rest, rfl, hsignificant, hdeclares, hlast⟩

theorem unmentioned_cons {key : UInt32} :
    Unmentioned (raw :: rest) key ↔
      (Significant raw → ∀ values, ¬ Declares raw key values) ∧ Unmentioned rest key :=
  List.forall_mem_cons

theorem not_lastDeclares_of_unmentioned {key : UInt32} (h : Unmentioned lines key)
    (values : List Word) : ¬ LastDeclares lines key values := by
  rintro ⟨before, line, after, rfl, hsignificant, hdeclares, _⟩
  exact h line (by simp) hsignificant values hdeclares

/-- A key has the values of its last line, or those it had before if no line mentions it. -/
theorem find?_of_readLines (h : readLines source number lines = .ok source') (key : UInt32)
    (values : List Word) : source'.find? key = some values ↔
      LastDeclares lines key values ∨ (Unmentioned lines key ∧ source.find? key = some values) := by
  induction lines generalizing source number with
  | nil =>
    cases h
    have hnone : ¬ LastDeclares [] key values :=
      not_lastDeclares_of_unmentioned (by simp [Unmentioned]) values
    simp [hnone, Unmentioned]
  | cons raw rest ih =>
    rcases readLines_cons source number raw rest with
      ⟨hskipped, heq⟩ | ⟨k, vs, hsignificant, hdeclares, heq⟩ | ⟨_, detail, heq⟩
    · rw [heq] at h
      simp [ih h, lastDeclares_cons, unmentioned_cons, hskipped]
    · rw [heq] at h
      have hraw : ∀ vs', Declares raw key vs' ↔ key = k ∧ vs' = vs := fun _ => declares_iff hdeclares
      rw [ih h, lastDeclares_cons, unmentioned_cons, Table.find?_insert]
      simp only [hraw]
      by_cases hkey : key = k
      · have hswap : vs = values ↔ values = vs := eq_comm
        simp [hsignificant, hkey, hswap, and_comm]
      · simp [hkey]
    · rw [heq] at h
      cases h

end Lines

/-- The parser accepts a text exactly if each of its lines says nothing or is in the format; the
source it makes of the text has the keys that occur, each with the values of its last line; and a
text with other lines is refused with the number of the first of them. -/
theorem parse_accepts_exactly (text : String) :
    ((∃ source, parse text = .ok source) ↔ ∀ line ∈ Text.lines text.toList, Formed line) ∧
      (∀ source, parse text = .ok source → ∀ key values,
        source.find? key = some values ↔ LastDeclares (Text.lines text.toList) key values) ∧
      ∀ number, (∃ detail, parse text = .error (.preload number detail)) ↔
        ∃ before line after, Text.lines text.toList = before ++ line :: after ∧
          number = before.length + 1 ∧ (∀ l ∈ before, Formed l) ∧ ¬ Formed line := by
  have hrefused {before after : List (List Char)} {line : List Char}
      (hlines : Text.lines text.toList = before ++ line :: after) (hbefore : ∀ l ∈ before, Formed l)
      (hline : ¬ Formed line) :
      ∃ detail, parse text = .error (.preload (before.length + 1) detail) := by
    rw [parse, hlines, Nat.add_comm]
    exact readLines_of_first hbefore hline .empty 1
  refine ⟨⟨?_, ?_⟩, ?_, ?_⟩
  · rintro ⟨source, h⟩
    exact formed_of_readLines h
  · intro h
    exact exists_readLines h .empty 1
  · intro source h key values
    rw [find?_of_readLines h]
    simp
  · intro number
    constructor
    · rintro ⟨detail, herror⟩
      by_cases hall : ∀ line ∈ Text.lines text.toList, Formed line
      · obtain ⟨source, hok⟩ := exists_readLines hall .empty 1
        rw [parse, hok] at herror
        cases herror
      · obtain ⟨before, line, after, hlines, hbefore, hline⟩ := exists_first_unformed hall
        obtain ⟨detail', herror'⟩ := hrefused hlines hbefore hline
        cases herror.symm.trans herror'
        exact ⟨before, line, after, hlines, rfl, hbefore, hline⟩
    · rintro ⟨before, line, after, hlines, rfl, hbefore, hline⟩
      exact hrefused hlines hbefore hline

end RegisterMachine.Preload
