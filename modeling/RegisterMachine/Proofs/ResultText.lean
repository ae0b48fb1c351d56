import RegisterMachine.Preload.Source
import RegisterMachine.Proofs.FloatText
import RegisterMachine.Proofs.Splitting
import RegisterMachine.Sink

/-!
# Results read as preloads

Lists written as results are a preload source. Every line is read back as its id and its floats,
and of several lines with one id the last one counts, so a program's lists can be fed to another.
-/

namespace RegisterMachine

open Number (BinaryFormat isMagnitudeChar)

namespace Text

theorem isBlank_of_isDigit {c : Char} (h : c.isDigit = true) : isBlank c = false := by
  have hrange : 48 ≤ c.toNat ∧ c.toNat ≤ 57 := by
    simpa [Char.isDigit, UInt32.le_iff_toNat_le] using h
  have hranges : ∀ r ∈ blankRanges, r.2 < 48 ∨ 57 < r.1 := by decide
  rw [Bool.eq_false_iff]
  intro hblank
  obtain ⟨r, hr, hlow, hhigh⟩ := inRanges_iff.1 hblank
  have hapart := hranges r hr
  omega

theorem tight_digits (n : Nat) : Tight (digits n) :=
  tight_of_forall fun _ hc => isBlank_of_isDigit (isDigit_of_mem_digits hc)

theorem isBlank_of_isMagnitudeChar {c : Char} (h : isMagnitudeChar c = true) :
    isBlank c = false := by
  simp only [isMagnitudeChar, Bool.or_eq_true, beq_iff_eq] at h
  rcases h with (((h | rfl) | rfl) | rfl) | rfl
  · exact isBlank_of_isDigit h
  all_goals decide

end Text

namespace Word

variable {w : Word}

theorem classify_ne_nan (h : w.isNaN = false) : BinaryFormat.binary32.classify w.toNat ≠ .nan := by
  intro hnan
  simp [isNaN, floatClass, hnan] at h

theorem floatText_part (h : w.isNaN = false) : Text.Part w.floatText.toList := by
  obtain ⟨hne, hchars⟩ :=
    Number.text_plain_chars BinaryFormat.regular_binary32 (classify_ne_nan h)
  refine ⟨hne, fun c hc => ?_, fun hc => ?_⟩
  · rcases hchars c hc with rfl | hmagnitude
    · decide
    · exact Text.isBlank_of_isMagnitudeChar hmagnitude
  · rcases hchars ',' hc with hcomma | hcomma
    · cases hcomma
    · cases hcomma

theorem readValue_floatText (h : w.isNaN = false) :
    Preload.readValue w.floatText.toList = .ok w := by
  have hbits : w.toNat < 2 * BinaryFormat.binary32.signBit := w.toNat_lt
  have hread := Number.readLiteral?_text BinaryFormat.regular_binary32 hbits (classify_ne_nan h)
  have hne : w.floatText.toList.isEmpty = false := by
    simpa using (floatText_part h).nonempty
  simp only [Preload.readValue, hne, Bool.false_eq_true, if_false]
  rw [floatText, hread]
  simp

end Word

def listBody (items : List Word) : List Char :=
  (Text.join ", " (items.map Word.floatText)).toList

variable {items : List Word}

theorem floatText_parts (h : ∀ w ∈ items, w.isNaN = false) :
    ∀ t ∈ items.map Word.floatText, Text.Part t.toList := by
  intro t ht
  obtain ⟨w, hw, rfl⟩ := List.mem_map.1 ht
  exact Word.floatText_part (h w hw)

theorem mapM_readValue (h : ∀ w ∈ items, w.isNaN = false) :
    ((items.map Word.floatText).map String.toList).mapM Preload.readValue = .ok items := by
  induction items with
  | nil => rfl
  | cons w items ih =>
    rw [List.forall_mem_cons] at h
    rw [List.map_cons, List.map_cons, List.mapM_cons, Word.readValue_floatText h.1, ih h.2]
    rfl

/-- The parts of a list are what was joined; none is empty, so none is dropped. -/
theorem items_listBody {w : Word} (h : ∀ v ∈ w :: items, v.isNaN = false) :
    Preload.items (listBody (w :: items)) =
      ((w :: items).map Word.floatText).map String.toList := by
  have hparts := floatText_parts h
  have hpieces : (Text.splitAll ',' (listBody (w :: items))).map Text.trim =
      ((w :: items).map Word.floatText).map String.toList := Text.map_trim_splitAll_join hparts
  have hlast : (((w :: items).map Word.floatText).map String.toList).getLast? ≠ some [] := by
    intro hempty
    obtain ⟨t, ht, hnil⟩ := List.mem_map.1 (List.mem_of_getLast? hempty)
    exact (hparts t ht).nonempty hnil
  simp only [Preload.items, hpieces, hlast, if_false]

theorem readValues_listBody (h : ∀ w ∈ items, w.isNaN = false) :
    Preload.readValues (Text.trim (listBody items)) = .ok items := by
  cases items with
  | nil => rfl
  | cons w items =>
    obtain ⟨hne, htight⟩ : listBody (w :: items) ≠ [] ∧ Text.Tight (listBody (w :: items)) :=
      Text.join_part (floatText_parts h)
    have hempty : (listBody (w :: items)).isEmpty = false := by simpa using hne
    rw [htight.trim_eq, Preload.readValues, hempty, items_listBody h, mapM_readValue h]
    rfl

theorem readKey?_digits (id : UInt32) : Preload.readKey? (Text.digits id.toNat) = some id := by
  have hlt : id.toNat < 4294967296 := id.toNat_lt
  unfold Preload.readKey?
  split
  case h_1 rest heq =>
    have hplus : '+' ∉ Text.digits id.toNat := Text.notMem_digits (by decide) _
    rw [heq] at hplus
    exact absurd List.mem_cons_self hplus
  case h_2 => simp [Text.readDecimal?_digits, hlt]

/-- The line of a list: its id, a colon and the list in brackets. -/
def listLine (id : UInt32) (items : List Word) : List Char :=
  Text.digits id.toNat ++ ':' :: ' ' :: ('[' :: (listBody items ++ [']']))

theorem toList_textLine {e : Entry} (h : e.payload = .list items) :
    e.textLine.toList = listLine e.id items := by
  simp [Entry.textLine, h, Payload.text, listLine, listBody, Text.decimal]

theorem readLine_listLine (id : UInt32) (h : ∀ w ∈ items, w.isNaN = false) :
    Preload.readLine (listLine id items) = .ok (id, items) := by
  have hsplit : Text.splitFirst? ':' (listLine id items) =
      some (Text.digits id.toNat, ' ' :: ('[' :: (listBody items ++ [']']))) :=
    Text.splitFirst?_append (Text.notMem_digits (by decide) _) _
  have htight : Text.Tight ('[' :: (listBody items ++ [']'])) :=
    (Text.tight_singleton (by decide)).enclose (Text.tight_singleton (by decide)) (by simp) (by simp) _
  have hrest : Text.trim (' ' :: ('[' :: (listBody items ++ [']']))) =
      '[' :: (listBody items ++ [']']) := by
    rw [Text.trim_blank (by decide), htight.trim_eq]
  have hbody : Text.enclosed? '[' ']' ('[' :: (listBody items ++ [']'])) =
      some (listBody items) := by
    simp [Text.enclosed?]
  simp only [Preload.readLine, hsplit, (Text.tight_digits _).trim_eq, readKey?_digits, hrest, hbody,
    readValues_listBody h]
  rfl

theorem listLine_eq (id : UInt32) (items : List Word) : listLine id items =
    Text.digits id.toNat ++ (':' :: ' ' :: '[' :: listBody items) ++ [']'] := by
  simp [listLine]

theorem trim_listLine (id : UInt32) (items : List Word) :
    Text.trim (listLine id items) = listLine id items := by
  rw [listLine_eq]
  exact ((Text.tight_digits _).enclose (Text.tight_singleton (by decide)) (Text.digits_ne_nil _)
    (by simp) _).trim_eq

theorem isSkipped_listLine (id : UInt32) (items : List Word) :
    Preload.isSkipped (listLine id items) = false := by
  cases hds : Text.digits id.toNat with
  | nil => exact absurd hds (Text.digits_ne_nil _)
  | cons c ds =>
    have hc : c ≠ '#' := by
      rintro rfl
      have hnot : '#' ∉ Text.digits id.toNat := Text.notMem_digits (by decide) _
      rw [hds] at hnot
      exact hnot List.mem_cons_self
    simp [Preload.isSkipped, listLine, hds, hc]

theorem newline_notMem_listLine (id : UInt32) (h : ∀ w ∈ items, w.isNaN = false) :
    '\n' ∉ listLine id items := by
  have hbody : '\n' ∉ listBody items := by
    intro hmem
    rcases Text.mem_join hmem with hseparator | ⟨t, ht, hc⟩
    · revert hseparator
      decide
    · cases (floatText_parts h t ht).isBlank '\n' hc
  simp [listLine, hbody, Text.notMem_digits]

theorem getLast?_listLine (id : UInt32) (items : List Word) :
    (listLine id items).getLast? = some ']' := by
  rw [listLine_eq, List.getLast?_concat]

namespace Table

variable {α : Type}

theorem foldl_insert_of_notMem {l : List (UInt32 × α)} {k : UInt32} (h : ∀ x ∈ l, x.1 ≠ k)
    (t : Table α) : (l.foldl (fun t (k, v) => t.insert k v) t).find? k = t.find? k := by
  induction l generalizing t with
  | nil => rfl
  | cons x l ih =>
    rw [List.forall_mem_cons] at h
    rw [List.foldl_cons, ih h.2, find?_insert, if_neg (Ne.symm h.1)]

theorem find?_ofList_last {before after : List (UInt32 × α)} {k : UInt32} {v : α}
    (h : ∀ x ∈ after, x.1 ≠ k) : (ofList (before ++ (k, v) :: after)).find? k = some v := by
  rw [ofList, List.foldl_append, List.foldl_cons, foldl_insert_of_notMem h, find?_insert,
    if_pos rfl]

theorem mem_keys_ofList {l : List (UInt32 × α)} {k : UInt32} :
    k ∈ (ofList l).keys ↔ k ∈ l.map (·.1) := by
  have hfold (t : Table α) : (∃ v, (l.foldl (fun t (k, v) => t.insert k v) t).find? k = some v) ↔
      k ∈ l.map (·.1) ∨ ∃ v, t.find? k = some v := by
    induction l generalizing t with
    | nil => simp
    | cons x l ih =>
      rw [List.foldl_cons, ih, find?_insert, List.map_cons, List.mem_cons]
      by_cases hk : k = x.1
      · simp [hk]
      · simp [hk]
  rw [mem_keys_iff, ofList, hfold]
  simp

end Table

theorem Preload.readLines_listLines (source : Preload.Source) (number : Nat)
    {lists : List (UInt32 × List Word)} (h : ∀ l ∈ lists, ∀ w ∈ l.2, w.isNaN = false) :
    readLines source number (lists.map fun l => listLine l.1 l.2) =
      .ok (lists.foldl (fun t (k, v) => t.insert k v) source) := by
  induction lists generalizing source number with
  | nil => rfl
  | cons l lists ih =>
    rw [List.forall_mem_cons] at h
    rw [List.map_cons, readLines]
    simp only [trim_listLine, isSkipped_listLine, readLine_listLine l.1 h.1]
    exact ih (source.insert l.1 l.2) (number + 1) h.2

def Entry.listed (e : Entry) : UInt32 × List Word :=
  (e.id, match e.payload with
    | .list items => items
    | _ => [])

theorem parse_render {entries : List Entry}
    (h : ∀ e ∈ entries, ∃ items, e.payload = .list items ∧ ∀ w ∈ items, w.isNaN = false) :
    Preload.parse (SinkFormat.text.render entries) = .ok (.ofList (entries.map Entry.listed)) := by
  have hentry : ∀ e ∈ entries, e.textLine.toList = listLine e.listed.1 e.listed.2 ∧
      ∀ w ∈ e.listed.2, w.isNaN = false := by
    intro e he
    obtain ⟨items, hpayload, hnumbers⟩ := h e he
    have hlisted : e.listed = (e.id, items) := by simp [Entry.listed, hpayload]
    rw [hlisted, toList_textLine hpayload]
    exact ⟨rfl, hnumbers⟩
  have hnumbers : ∀ l ∈ entries.map Entry.listed, ∀ w ∈ l.2, w.isNaN = false := by
    intro l hl
    obtain ⟨e, he, rfl⟩ := List.mem_map.1 hl
    exact (hentry e he).2
  have htext : (SinkFormat.text.render entries).toList =
      ((entries.map Entry.listed).map fun l => listLine l.1 l.2).flatMap fun l => l ++ ['\n'] := by
    have hlines : (entries.map Entry.listed).map (fun l => listLine l.1 l.2) =
        entries.map fun e => e.textLine.toList := by
      rw [List.map_map]
      exact List.map_congr_left fun e he => (hentry e he).1.symm
    rw [hlines, SinkFormat.toList_render, List.flatMap_map]
    rfl
  have hlines : Text.lines (SinkFormat.text.render entries).toList =
      (entries.map Entry.listed).map fun l => listLine l.1 l.2 := by
    rw [htext]
    apply Text.lines_of_ended
    intro line hline
    obtain ⟨l, hl, rfl⟩ := List.mem_map.1 hline
    refine ⟨newline_notMem_listLine l.1 (hnumbers l hl), ?_⟩
    rw [getLast?_listLine]
    decide
  rw [Preload.parse, hlines, Preload.readLines_listLines _ _ hnumbers]
  rfl

/-- What the text sink prints for lists without NaN, the preload parser reads: its keys are the ids
that occur, and each id has the list of the last entry with it, bit for bit. -/
theorem printed_lists_read_back (entries : List Entry)
    (h : ∀ e ∈ entries, ∃ items, e.payload = .list items ∧ ∀ w ∈ items, w.isNaN = false) :
    ∃ source, Preload.parse (SinkFormat.text.render entries) = .ok source ∧
      (∀ id, id ∈ source.keys ↔ id ∈ entries.map (·.id)) ∧
      ∀ (before after : List Entry) (e : Entry) (items : List Word),
        entries = before ++ e :: after → (∀ e' ∈ after, e'.id ≠ e.id) →
          e.payload = .list items → source.find? e.id = some items := by
  refine ⟨_, parse_render h, fun id => ?_, ?_⟩
  · rw [Table.mem_keys_ofList, List.map_map]
    rfl
  · rintro before after e items rfl hlast hpayload
    have hlisted : e.listed = (e.id, items) := by simp [Entry.listed, hpayload]
    rw [List.map_append, List.map_cons, hlisted]
    apply Table.find?_ofList_last
    intro l hl
    obtain ⟨e', he', rfl⟩ := List.mem_map.1 hl
    exact hlast e' he'

/-- Two lists under one id, the later one with a negative zero, an infinity, the least subnormal
and the largest finite float. -/
theorem edgeFloats_read_back :
    ∃ source, Preload.parse (SinkFormat.text.render
        [⟨7, .list [⟨0x3f800000⟩], .main⟩, ⟨9, .list [], .function 2⟩,
          ⟨7, .list [⟨0x80000000⟩, ⟨0xff800000⟩, ⟨1⟩, ⟨0x7f7fffff⟩], .main⟩]) = .ok source ∧
      9 ∈ source.keys ∧
      source.find? 7 = some [⟨0x80000000⟩, ⟨0xff800000⟩, ⟨1⟩, ⟨0x7f7fffff⟩] := by
  obtain ⟨source, hparse, hkeys, hlast⟩ := printed_lists_read_back
    [⟨7, .list [⟨0x3f800000⟩], .main⟩, ⟨9, .list [], .function 2⟩,
      ⟨7, .list [⟨0x80000000⟩, ⟨0xff800000⟩, ⟨1⟩, ⟨0x7f7fffff⟩], .main⟩] (by
      simp only [List.forall_mem_cons]
      exact ⟨⟨_, rfl, by decide⟩, ⟨_, rfl, by decide⟩, ⟨_, rfl, by decide⟩, by simp⟩)
  exact ⟨source, hparse, (hkeys 9).2 (by decide),
    hlast [_, _] [] ⟨7, _, .main⟩ _ rfl (by simp) rfl⟩

end RegisterMachine
