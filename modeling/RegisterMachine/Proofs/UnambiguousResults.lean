import Mathlib.Data.List.Forall2
import RegisterMachine.Machine
import RegisterMachine.Proofs.CompactText

/-!
# Results are unambiguous

The text of results shows neither kinds nor lengths, yet it can stand for one sequence of entries
only, NaNs apart. A float always has a character that integers lack, a list is all that begins with
a bracket, and neither can hide the end of its line.
-/

namespace RegisterMachine

open Number (BinaryFormat isLiteralChar)

namespace Word

/-- Whether two words are the same float; one NaN is as good as another. -/
def SameFloat (w v : Word) : Prop := w = v ∨ w.isNaN = true ∧ v.isNaN = true

variable {w v : Word}

theorem readLiteral?_floatText (h : w.isNaN = false) :
    BinaryFormat.binary32.readLiteral? w.floatText.toList = some w.toNat :=
  Number.readLiteral?_text BinaryFormat.regular_binary32 w.toNat_lt (classify_ne_nan h)

theorem floatText_chars (w : Word) :
    w.floatText.toList ≠ [] ∧ ∀ c ∈ w.floatText.toList, isLiteralChar c = true :=
  text_chars rfl readLiteral?_floatText

theorem floatText_of_nan (h : w.isNaN = true) : w.floatText.toList = ['N', 'a', 'N'] :=
  text_of_nan rfl h

/-- A float shows by some character that it is no integer: the point, or a letter of a word. -/
theorem exists_mark_floatText (w : Word) :
    ∃ c ∈ w.floatText.toList, c ≠ '-' ∧ c.isDigit = false := by
  cases h : w.isNaN with
  | true =>
    rw [floatText_of_nan h]
    exact ⟨'N', by decide, by decide, by decide⟩
  | false =>
    obtain ⟨hle, htext⟩ := Number.text_plain (classify_ne_nan h)
    rw [floatText, htext]
    rcases Nat.eq_or_lt_of_le hle with hinfinite | hfinite
    · rw [hinfinite, Number.magnitudeText, if_pos rfl]
      exact ⟨'i', List.mem_append_right _ (by decide), by decide, by decide⟩
    · obtain ⟨whole, fraction, hmagnitude, -, -⟩ :=
        Number.magnitudeText_pointed BinaryFormat.regular_binary32 hfinite
      rw [hmagnitude]
      exact ⟨'.', by simp, by decide, by decide⟩

theorem floatText_inj (h : w.floatText = v.floatText) : w.SameFloat v := by
  have hletter {u u' : Word} (hu : u.isNaN = true) (hu' : u'.isNaN = false) :
      u.floatText ≠ u'.floatText := by
    intro heq
    have hmem : 'N' ∈ u'.floatText.toList := by
      rw [← heq, floatText_of_nan hu]
      decide
    rcases (Number.text_plain_chars BinaryFormat.regular_binary32 (classify_ne_nan hu')).2 _ hmem
      with hsign | hmagnitude
    · cases hsign
    · cases hmagnitude
  cases hw : w.isNaN with
  | true =>
    cases hv : v.isNaN with
    | true => exact .inr ⟨hw, hv⟩
    | false => exact absurd h (hletter hw hv)
  | false =>
    cases hv : v.isNaN with
    | true => exact absurd h.symm (hletter hv hw)
    | false =>
      have hread := readLiteral?_floatText hw
      rw [h, readLiteral?_floatText hv] at hread
      left
      rw [← ofNat_toNat w, ← ofNat_toNat v, Option.some.inj hread]

end Word

namespace Text

theorem join_inj {as bs : List String} (has : ∀ t ∈ as, Part t.toList)
    (hbs : ∀ t ∈ bs, Part t.toList) (h : join ", " as = join ", " bs) : as = bs := by
  cases as with
  | nil =>
    cases bs with
    | nil => rfl
    | cons b bs =>
      have hne := (join_part hbs).1
      rw [← h] at hne
      exact absurd rfl hne
  | cons a as =>
    cases bs with
    | nil =>
      have hne := (join_part has).1
      rw [h] at hne
      exact absurd rfl hne
    | cons b bs =>
      have hparts := map_trim_splitAll_join has
      rw [h, map_trim_splitAll_join hbs] at hparts
      exact (List.map_inj_right fun _ _ => String.toList_injective).1 hparts.symm

end Text

theorem floatTexts_parts (items : List Word) :
    ∀ t ∈ items.map Word.floatText, Text.Part t.toList := by
  intro t ht
  obtain ⟨w, -, rfl⟩ := List.mem_map.1 ht
  obtain ⟨hne, hchars⟩ := w.floatText_chars
  refine ⟨hne, fun c hc => Number.isBlank_of_isLiteralChar (hchars c hc), fun hcomma => ?_⟩
  exact absurd (hchars ',' hcomma) (by decide)

/-- Sequences with the same images are alike, member by member, if the images tell that much. -/
theorem forall₂_of_map_eq {α β : Type} {f : α → β} {R : α → α → Prop}
    (hf : ∀ a b, f a = f b → R a b) {as bs : List α} (h : as.map f = bs.map f) :
    List.Forall₂ R as bs := by
  rw [← List.forall₂_eq_eq_eq, List.forall₂_map_left_iff, List.forall₂_map_right_iff] at h
  exact h.imp hf

namespace Payload

/-- Payloads of one kind with the same contents. -/
inductive Same : Payload → Payload → Prop
  | int (value : Int32) : Same (.int value) (.int value)
  | float {w v : Word} (h : w.SameFloat v) : Same (.float w) (.float v)
  | list {items items' : List Word} (h : List.Forall₂ Word.SameFloat items items') :
    Same (.list items) (.list items')

theorem toList_text_list (items : List Word) :
    (list items).text.toList = '[' :: (listBody items ++ [']']) := by
  simp [text, listBody]

theorem text_int_ne_float (value : Int32) (w : Word) : (int value).text ≠ (float w).text := by
  intro h
  obtain ⟨c, hc, hsign, hdigit⟩ := w.exists_mark_floatText
  have hmem : c ∈ (Text.signedDecimal value.toInt).toList := by
    have htext : Text.signedDecimal value.toInt = w.floatText := h
    rw [htext]
    exact hc
  rcases Text.chars_of_signedDecimal hmem with heq | hdigit'
  · exact hsign heq
  · rw [hdigit] at hdigit'
    cases hdigit'

theorem bracket_mem_list (items : List Word) : '[' ∈ (list items).text.toList := by
  rw [toList_text_list]
  exact List.mem_cons_self

theorem text_int_ne_list (value : Int32) (items : List Word) :
    (int value).text ≠ (list items).text := by
  intro h
  have hmem := bracket_mem_list items
  rw [← h] at hmem
  rcases Text.chars_of_signedDecimal hmem with heq | hdigit
  · cases heq
  · cases hdigit

theorem text_float_ne_list (w : Word) (items : List Word) :
    (float w).text ≠ (list items).text := by
  intro h
  have hmem := bracket_mem_list items
  rw [← h] at hmem
  exact absurd (w.floatText_chars.2 _ hmem) (by decide)

theorem text_list_inj {items items' : List Word} (h : (list items).text = (list items').text) :
    List.Forall₂ Word.SameFloat items items' := by
  have hlists := congrArg String.toList h
  rw [toList_text_list, toList_text_list] at hlists
  have hbody : listBody items = listBody items' :=
    List.append_cancel_right (List.cons.inj hlists).2
  have htexts := Text.join_inj (floatTexts_parts items) (floatTexts_parts items')
    (String.toList_injective hbody)
  exact forall₂_of_map_eq (fun _ _ => Word.floatText_inj) htexts

theorem text_inj {p q : Payload} (h : p.text = q.text) : p.Same q := by
  cases p with
  | int value =>
    cases q with
    | int value' =>
      have hvalue : value = value' := Int32.toInt_inj.1 (Text.signedDecimal_inj h)
      rw [hvalue]
      exact .int value'
    | float v => exact absurd h (text_int_ne_float value v)
    | list items' => exact absurd h (text_int_ne_list value items')
  | float w =>
    cases q with
    | int value' => exact absurd h.symm (text_int_ne_float value' w)
    | float v => exact .float (Word.floatText_inj h)
    | list items' => exact absurd h (text_float_ne_list w items')
  | list items =>
    cases q with
    | int value' => exact absurd h.symm (text_int_ne_list value' items)
    | float v => exact absurd h.symm (text_float_ne_list v items)
    | list items' => exact .list (text_list_inj h)

theorem eq_space_of_mem_text {p : Payload} {c : Char} (hmem : c ∈ p.text.toList)
    (hblank : Text.isBlank c = true) : c = ' ' := by
  have hfloat (w : Word) : c ∉ w.floatText.toList := by
    intro hc
    rw [Number.isBlank_of_isLiteralChar (w.floatText_chars.2 c hc)] at hblank
    cases hblank
  cases p with
  | int value =>
    rcases Text.chars_of_signedDecimal hmem with rfl | hdigit
    · cases hblank
    · rw [Text.isBlank_of_isDigit hdigit] at hblank
      cases hblank
  | float w => exact absurd hmem (hfloat w)
  | list items =>
    rw [toList_text_list, List.mem_cons, List.mem_append, List.mem_singleton] at hmem
    rcases hmem with rfl | hbody | rfl
    · cases hblank
    · rcases Text.mem_join hbody with hseparator | ⟨t, ht, hc⟩
      · have hcomma : c = ',' ∨ c = ' ' := by simpa using hseparator
        rcases hcomma with rfl | rfl
        · cases hblank
        · rfl
      · obtain ⟨w, -, rfl⟩ := List.mem_map.1 ht
        exact absurd hc (hfloat w)
    · cases hblank

end Payload

namespace Entry

/-- Entries that print the same: one id, one kind and the same contents. -/
structure Same (e e' : Entry) : Prop where
  id : e.id = e'.id
  payload : e.payload.Same e'.payload

theorem toList_textLine (e : Entry) :
    e.textLine.toList = Text.digits e.id.toNat ++ ':' :: ' ' :: e.payload.text.toList := by
  simp [textLine, Text.decimal]

/-- A line is cut at its first colon, which is the one behind the id. -/
theorem textLine_inj {e e' : Entry} (h : e.textLine.toList = e'.textLine.toList) : e.Same e' := by
  have hsplit (e : Entry) : Text.splitFirst? ':' e.textLine.toList =
      some (Text.digits e.id.toNat, ' ' :: e.payload.text.toList) := by
    rw [toList_textLine]
    exact Text.splitFirst?_append (Text.notMem_digits (by decide) _) _
  have hparts := hsplit e
  rw [h, hsplit e', Option.some.injEq, Prod.mk.injEq, List.cons.injEq] at hparts
  obtain ⟨hid, -, hpayload⟩ := hparts
  have hdecimal : Text.decimal e.id.toNat = Text.decimal e'.id.toNat :=
    congrArg String.ofList hid.symm
  exact ⟨UInt32.toNat_inj.1 (Text.decimal_inj hdecimal),
    Payload.text_inj (String.toList_injective hpayload.symm)⟩

theorem eq_space_of_mem_textLine {e : Entry} {c : Char} (hmem : c ∈ e.textLine.toList)
    (hblank : Text.isBlank c = true) : c = ' ' := by
  rw [toList_textLine, List.mem_append, List.mem_cons, List.mem_cons] at hmem
  rcases hmem with hdigit | rfl | rfl | hpayload
  · rw [Text.isBlank_of_isDigit (Text.isDigit_of_mem_digits hdigit)] at hblank
    cases hblank
  · cases hblank
  · rfl
  · exact Payload.eq_space_of_mem_text hpayload hblank

end Entry

theorem lines_render (entries : List Entry) :
    Text.lines (SinkFormat.text.render entries).toList = entries.map fun e => e.textLine.toList := by
  have hends : (SinkFormat.text.render entries).toList =
      (entries.map fun e => e.textLine.toList).flatMap fun l => l ++ ['\n'] := by
    rw [SinkFormat.toList_render, List.flatMap_map]
    rfl
  rw [hends]
  apply Text.lines_of_ended
  intro line hline
  obtain ⟨e, -, rfl⟩ := List.mem_map.1 hline
  refine ⟨fun hmem => ?_, fun hlast => ?_⟩
  · cases Entry.eq_space_of_mem_textLine hmem (by decide)
  · cases Entry.eq_space_of_mem_textLine (List.mem_of_getLast? hlast) (by decide)

theorem RunReport.toText_eq_render (r : RunReport) :
    r.toText = SinkFormat.text.render r.outputs := by
  apply String.toList_injective
  rw [SinkFormat.toList_render, toText, String.toList_join, List.flatMap_map]
  simp [SinkFormat.line]

/-- Results that print the same are the same, entry by entry, and a report prints its outputs just
as the sink does. -/
theorem results_unambiguous :
    (∀ entries entries' : List Entry,
      SinkFormat.text.render entries = SinkFormat.text.render entries' →
        entries.length = entries'.length ∧ List.Forall₂ Entry.Same entries entries') ∧
    ∀ (r : RunReport) (entries : List Entry), r.outputs = entries →
      r.toText = SinkFormat.text.render entries := by
  refine ⟨?_, ?_⟩
  · intro entries entries' h
    have hlines := lines_render entries
    rw [h, lines_render entries'] at hlines
    have hsame : List.Forall₂ Entry.Same entries entries' :=
      forall₂_of_map_eq (fun _ _ => Entry.textLine_inj) hlines.symm
    exact ⟨hsame.length_eq, hsame⟩
  · rintro r entries rfl
    exact r.toText_eq_render

/-- Different NaNs, alone and in a list, under two contexts, and a report of them. -/
theorem nans_print_alike :
    SinkFormat.text.render [⟨4, .float ⟨0x7fc00001⟩, .main⟩,
        ⟨4, .list [⟨0x3f800000⟩, ⟨0xffc00000⟩], .main⟩] =
      SinkFormat.text.render [⟨4, .float ⟨0xff800001⟩, .function 2⟩,
        ⟨4, .list [⟨0x3f800000⟩, ⟨0x7fc00000⟩], .main⟩] ∧
    List.Forall₂ Entry.Same [⟨4, .float ⟨0x7fc00001⟩, .main⟩,
        ⟨4, .list [⟨0x3f800000⟩, ⟨0xffc00000⟩], .main⟩]
      [⟨4, .float ⟨0xff800001⟩, .function 2⟩,
        ⟨4, .list [⟨0x3f800000⟩, ⟨0x7fc00000⟩], .main⟩] ∧
    (RunReport.mk [] [⟨4, .int 3, .main⟩]).toText =
      SinkFormat.text.render [⟨4, .int 3, .main⟩] := by
  have hrender : SinkFormat.text.render [⟨4, .float ⟨0x7fc00001⟩, .main⟩,
        ⟨4, .list [⟨0x3f800000⟩, ⟨0xffc00000⟩], .main⟩] =
      SinkFormat.text.render [⟨4, .float ⟨0xff800001⟩, .function 2⟩,
        ⟨4, .list [⟨0x3f800000⟩, ⟨0x7fc00000⟩], .main⟩] := by decide +kernel
  exact ⟨hrender, (results_unambiguous.1 _ _ hrender).2, results_unambiguous.2 _ _ rfl⟩

end RegisterMachine
