import RegisterMachine.Listing
import RegisterMachine.Proofs.CheckedAssembly
import RegisterMachine.Proofs.CompactText

/-!
# Listings read line by line

A listing is read back as text: into lines, each with the address in front of its colon, and what a
line says into its first word and the rest. Nothing that is printed in a line holds a line end, so
every line is the text of what stands at its address.
-/

namespace RegisterMachine

open Number (isLiteralChar)
open Text (digits isBlank)

namespace Text

def hexValue (c : Char) : Nat := if c.isDigit then c.toNat - 48 else c.toNat - 87

def hexNumber (cs : List Char) : Nat := cs.foldl (fun n c => 16 * n + hexValue c) 0

theorem hexValue_digitChar {d : Nat} (h : d < 16) : hexValue d.digitChar = d := by
  have key : ∀ d < 16, hexValue d.digitChar = d := by decide
  exact key d h

theorem hexNumber_concat (cs : List Char) (c : Char) :
    hexNumber (cs ++ [c]) = 16 * hexNumber cs + hexValue c := by
  rw [hexNumber, List.foldl_append]
  rfl

theorem hexNumber_toDigits (n : Nat) : hexNumber (Nat.toDigits 16 n) = n := by
  induction n using Nat.strongRecOn with
  | ind n ih =>
    rw [Nat.toDigits_eq_if (by decide)]
    split
    case isTrue hlt =>
      show 16 * 0 + hexValue n.digitChar = n
      rw [hexValue_digitChar hlt]
      omega
    case isFalse hge =>
      rw [hexNumber_concat, ih (n / 16) (by omega), hexValue_digitChar (Nat.mod_lt n (by decide))]
      omega

theorem hexNumber_zeros (k : Nat) (cs : List Char) :
    hexNumber (List.replicate k '0' ++ cs) = hexNumber cs := by
  induction k with
  | zero => rfl
  | succ k ih => exact ih

theorem hexadecimal_inj {width m n : Nat} (h : hexadecimal width m = hexadecimal width n) :
    m = n := by
  have hnumber (n : Nat) : hexNumber (hexadecimal width n).toList = n := by
    rw [hexadecimal, String.toList_ofList, hexNumber_zeros, hexNumber_toDigits]
  rw [← hnumber m, h, hnumber n]

/-- What may stand in a word of a line: no blank, and not the mark of what is cut off. -/
def isPrinted (c : Char) : Bool := !isBlank c && c != '<'

theorem isPrinted_of_isDigit {c : Char} (h : c.isDigit = true) : isPrinted c = true := by
  have hmark : c ≠ '<' := by
    rintro rfl
    cases h
  simp [isPrinted, isBlank_of_isDigit h, hmark]

theorem isPrinted_of_mem_decimal {n : Nat} {c : Char} (h : c ∈ (decimal n).toList) :
    isPrinted c = true := by
  rw [decimal, String.toList_ofList] at h
  exact isPrinted_of_isDigit (isDigit_of_mem_digits h)

theorem isPrinted_of_mem_signedDecimal {v : Int} {c : Char} (h : c ∈ (signedDecimal v).toList) :
    isPrinted c = true := by
  rcases chars_of_signedDecimal h with rfl | hdigit
  · decide
  · exact isPrinted_of_isDigit hdigit

theorem isPrinted_of_isLiteralChar {c : Char} (h : isLiteralChar c = true) :
    isPrinted c = true := by
  have hmark : c ≠ '<' := by
    rintro rfl
    revert h
    decide
  simp [isPrinted, Number.isBlank_of_isLiteralChar h, hmark]

theorem isPrinted_digitChar {d : Nat} (h : d < 16) : isPrinted d.digitChar = true := by
  have key : ∀ d < 16, isPrinted d.digitChar = true := by decide
  exact key d h

theorem isPrinted_of_mem_toDigits {n : Nat} {c : Char} (h : c ∈ Nat.toDigits 16 n) :
    isPrinted c = true := by
  induction n using Nat.strongRecOn with
  | ind n ih =>
    rw [Nat.toDigits_eq_if (by decide)] at h
    split at h
    case isTrue hlt =>
      rw [List.mem_singleton.1 h]
      exact isPrinted_digitChar hlt
    case isFalse hge =>
      rcases List.mem_append.1 h with hfront | hlast
      · exact ih (n / 16) (by omega) hfront
      · rw [List.mem_singleton.1 hlast]
        exact isPrinted_digitChar (Nat.mod_lt n (by decide))

theorem isPrinted_of_mem_hexadecimal {width n : Nat} {c : Char}
    (h : c ∈ (hexadecimal width n).toList) : isPrinted c = true := by
  rw [hexadecimal, String.toList_ofList] at h
  rcases List.mem_append.1 h with hzero | hdigit
  · rw [List.eq_of_mem_replicate hzero]
    decide
  · exact isPrinted_of_mem_toDigits hdigit

end Text

/-! ### Operands -/

namespace Instr

def operandMark (op : Opcode) : Option OperandKind → String
  | some .register => "r"
  | some .label | some .function => if op.isBranch then "@" else ""
  | some .list => "list"
  | some .output => "#"
  | some .immediate | some .preloadKey => ""
  | none => "-> "

def operandValue (op : Opcode) (kind : Option OperandKind) (w : Word) : String :=
  match kind with
  | some .immediate => if op = .loadFloat then w.compactFloatText else w.text
  | _ => Text.decimal w.toNat

theorem operandText_eq (op : Opcode) (kind : Option OperandKind) (w : Word) :
    operandText op kind w = operandMark op kind ++ operandValue op kind w := by
  rcases kind with _ | kind
  · rfl
  · cases kind with
    | label | function =>
      simp only [operandText, operandMark, operandValue]
      split <;> simp
    | immediate | preloadKey => simp [operandText, operandMark, operandValue]
    | register | list | output => rfl

theorem operandMark_chars (op : Opcode) (kind : Option OperandKind) :
    ∀ c ∈ (operandMark op kind).toList, c = ' ' ∨ Text.isPrinted c = true := by
  have key (text : String) (h : (text.toList.all fun c => c == ' ' || Text.isPrinted c) = true) :
      ∀ c ∈ text.toList, c = ' ' ∨ Text.isPrinted c = true := by
    intro c hc
    simpa using List.all_eq_true.1 h c hc
  unfold operandMark
  split
  case h_2 | h_3 => split <;> exact key _ (by decide)
  all_goals exact key _ (by decide)

theorem operandValue_chars (op : Opcode) (kind : Option OperandKind) (w : Word) :
    ∀ c ∈ (operandValue op kind w).toList, Text.isPrinted c = true := by
  intro c hc
  unfold operandValue at hc
  split at hc
  case h_1 =>
    split at hc
    · exact Text.isPrinted_of_isLiteralChar (w.compactFloatText_chars.2 c hc)
    · exact Text.isPrinted_of_mem_signedDecimal hc
  case h_2 => exact Text.isPrinted_of_mem_decimal hc

end Instr

def EndsWord (cs : List Char) : Prop := ∀ c rest, cs = c :: rest → c = ' '

theorem endsWord_nil : EndsWord [] := by
  intro c rest h
  cases h

theorem endsWord_blank (cs : List Char) : EndsWord (' ' :: cs) := by
  intro c rest h
  cases h
  rfl

theorem blank_notMem {cs : List Char} (h : ∀ c ∈ cs, Text.isPrinted c = true) : ' ' ∉ cs := by
  intro hmem
  exact absurd (h ' ' hmem) (by decide)

theorem word_append_inj {a b as bs : List Char} (ha : ' ' ∉ a) (hb : ' ' ∉ b) (has : EndsWord as)
    (hbs : EndsWord bs) (h : a ++ as = b ++ bs) : a = b ∧ as = bs := by
  induction a generalizing b with
  | nil =>
    cases b with
    | nil => exact ⟨rfl, h⟩
    | cons c b =>
      rw [List.nil_append, List.cons_append] at h
      rw [has c _ h] at hb
      exact absurd List.mem_cons_self hb
  | cons c a ih =>
    cases b with
    | nil =>
      rw [List.nil_append, List.cons_append] at h
      rw [hbs c _ h.symm] at ha
      exact absurd List.mem_cons_self ha
    | cons d b =>
      rw [List.cons_append, List.cons_append] at h
      obtain ⟨rfl, hrest⟩ := List.cons.inj h
      rw [List.mem_cons, not_or] at ha hb
      obtain ⟨rfl, rfl⟩ := ih ha.2 hb.2 hrest
      exact ⟨rfl, rfl⟩

def mnemonic (body : List Char) : List Char := body.takeWhile (· != ' ')

theorem mnemonic_append {word rest : List Char} (hword : ' ' ∉ word) (hrest : EndsWord rest) :
    mnemonic (word ++ rest) = word := by
  have hall : ∀ c ∈ word, (c != ' ') = true := by
    intro c hc
    simp only [bne_iff_ne, ne_eq]
    rintro rfl
    exact hword hc
  have hstop : rest.takeWhile (· != ' ') = [] := by
    cases rest with
    | nil => rfl
    | cons c rest => rw [hrest c rest rfl]; rfl
  rw [mnemonic, List.takeWhile_append_of_pos hall, hstop, List.append_nil]

/-! ### Instructions -/

theorem Opcode.name_chars (op : Opcode) :
    op.name.toList ≠ [] ∧ ∀ c ∈ op.name.toList, Text.isPrinted c = true ∧ c ≠ '.' := by
  have key : ∀ op ∈ Opcode.all, op.name.toList ≠ [] ∧
      (op.name.toList.all fun c => Text.isPrinted c && c != '.') = true := by decide +kernel
  obtain ⟨hne, hchars⟩ := key op (mem_all op)
  refine ⟨hne, fun c hc => ?_⟩
  simpa using List.all_eq_true.1 hchars c hc

theorem Opcode.blank_notMem_name (op : Opcode) : ' ' ∉ op.name.toList :=
  blank_notMem fun c hc => (op.name_chars.2 c hc).1

namespace Instr

def operandColumn (op : Opcode) (slot : Nat) (ws : List Word) : List Char :=
  (ws.zipIdx slot).flatMap fun x => ' ' :: (operandText op op.operandKinds[x.2]? x.1).toList

theorem operandColumn_cons (op : Opcode) (slot : Nat) (w : Word) (ws : List Word) :
    operandColumn op slot (w :: ws) = ' ' ::
      ((operandText op op.operandKinds[slot]? w).toList ++ operandColumn op (slot + 1) ws) := by
  simp [operandColumn]

theorem endsWord_operandColumn (op : Opcode) (slot : Nat) (ws : List Word) :
    EndsWord (operandColumn op slot ws) := by
  cases ws with
  | nil => exact endsWord_nil
  | cons w ws =>
    rw [operandColumn_cons]
    exact endsWord_blank _

theorem operandColumn_chars (op : Opcode) (slot : Nat) (ws : List Word) :
    ∀ c ∈ operandColumn op slot ws, c = ' ' ∨ Text.isPrinted c = true := by
  induction ws generalizing slot with
  | nil => simp [operandColumn]
  | cons w ws ih =>
    rw [operandColumn_cons, operandText_eq, String.toList_append, List.forall_mem_cons,
      List.forall_mem_append, List.forall_mem_append]
    exact ⟨.inl rfl, ⟨operandMark_chars _ _, fun c hc => .inr (operandValue_chars _ _ _ c hc)⟩,
      ih (slot + 1)⟩

def textTail (i : Instr) : List Char :=
  if i.operands = [] then []
  else List.replicate (16 - i.opcode.name.length) ' ' ++ operandColumn i.opcode 0 i.operands

theorem toList_text (i : Instr) : i.text.toList = i.opcode.name.toList ++ i.textTail := by
  unfold text textTail
  split
  case h_1 hnone => simp [hnone]
  case h_2 hsome =>
    rw [if_neg hsome]
    simp only [String.toList_append, Text.alignLeft, String.toList_ofList, String.toList_join,
      operandColumn, List.append_assoc, List.flatMap_map]
    rfl

theorem endsWord_textTail (i : Instr) : EndsWord i.textTail := by
  unfold textTail
  split
  case isTrue => exact endsWord_nil
  case isFalse =>
    cases 16 - i.opcode.name.length with
    | zero => exact endsWord_operandColumn _ _ _
    | succ n => exact endsWord_blank _

theorem text_chars (i : Instr) : ∀ c ∈ i.text.toList, c = ' ' ∨ Text.isPrinted c = true := by
  rw [toList_text, List.forall_mem_append]
  refine ⟨fun c hc => .inr (i.opcode.name_chars.2 c hc).1, fun c hc => ?_⟩
  unfold textTail at hc
  split at hc
  case isTrue => cases hc
  case isFalse =>
    rcases List.mem_append.1 hc with hpad | hcolumn
    · exact .inl (List.eq_of_mem_replicate hpad)
    · exact operandColumn_chars _ _ _ c hcolumn

theorem mnemonic_text (i : Instr) : mnemonic i.text.toList = i.opcode.name.toList := by
  rw [toList_text]
  exact mnemonic_append i.opcode.blank_notMem_name i.endsWord_textTail

end Instr

/-- Whether a line gives the value of a word that is no instruction. -/
def isWordLine (body : List Char) : Bool := mnemonic body == ".word".toList

def isTruncatedLine (body : List Char) : Bool := "<truncated>".toList.isSuffixOf body

theorem mnemonic_ne_word (op : Opcode) : op.name.toList ≠ ".word".toList := by
  intro h
  exact (op.name_chars.2 '.' (by rw [h]; decide)).2 rfl

theorem not_isTruncatedLine {body : List Char} (h : '<' ∉ body) : isTruncatedLine body = false := by
  rw [Bool.eq_false_iff]
  intro hsuffix
  obtain ⟨front, rfl⟩ := List.isSuffixOf_iff_suffix.1 hsuffix
  exact h (List.mem_append_right front (by decide))

theorem mark_notMem {cs : List Char} (h : ∀ c ∈ cs, c = ' ' ∨ Text.isPrinted c = true) :
    '<' ∉ cs := by
  intro hmem
  rcases h '<' hmem with hblank | hprinted
  · cases hblank
  · revert hprinted
    decide

theorem Instr.isWordLine_text (i : Instr) : isWordLine i.text.toList = false := by
  rw [isWordLine, i.mnemonic_text, beq_eq_false_iff_ne]
  exact mnemonic_ne_word i.opcode

theorem Instr.isTruncatedLine_text (i : Instr) : isTruncatedLine i.text.toList = false :=
  not_isTruncatedLine (mark_notMem i.text_chars)

namespace Fetched

theorem toList_text_unknown (w : Word) :
    (unknown w).text.toList =
      ".word".toList ++ ' ' :: '0' :: 'x' :: (Text.hexadecimal 8 w.toNat).toList := by
  rw [text, String.toList_append]
  rfl

theorem toList_text_truncated (op : Opcode) (n : Nat) :
    (truncated op n).text.toList = op.name.toList ++ " <truncated>".toList := by
  rw [text, String.toList_append]

theorem text_unknown_chars (w : Word) :
    ∀ c ∈ (unknown w).text.toList, c = ' ' ∨ Text.isPrinted c = true := by
  have hfront : (".word 0x".toList.all fun c => c == ' ' || Text.isPrinted c) = true := by decide
  rw [text, String.toList_append, List.forall_mem_append]
  refine ⟨fun c hc => ?_, fun c hc => .inr (Text.isPrinted_of_mem_hexadecimal hc)⟩
  simpa using List.all_eq_true.1 hfront c hc

theorem mnemonic_text (f : Fetched) :
    mnemonic f.text.toList = match f with
      | .unknown _ => ".word".toList
      | .truncated op _ => op.name.toList
      | .instr i => i.opcode.name.toList := by
  cases f with
  | unknown w =>
    rw [toList_text_unknown]
    exact mnemonic_append (by decide) (endsWord_blank _)
  | truncated op n =>
    rw [toList_text_truncated]
    exact mnemonic_append op.blank_notMem_name (endsWord_blank _)
  | instr i => exact i.mnemonic_text

theorem isWordLine_text (f : Fetched) : isWordLine f.text.toList = true ↔ ∃ w, f = .unknown w := by
  cases f with
  | unknown w =>
    rw [isWordLine, beq_iff_eq]
    exact iff_of_true (mnemonic_text _) ⟨w, rfl⟩
  | truncated op n =>
    rw [isWordLine, beq_iff_eq, mnemonic_text]
    simp only [reduceCtorEq, exists_false, iff_false]
    exact mnemonic_ne_word op
  | instr i =>
    rw [text, i.isWordLine_text]
    simp

theorem isTruncatedLine_text (f : Fetched) :
    isTruncatedLine f.text.toList = true ↔ ∃ op n, f = .truncated op n := by
  cases f with
  | unknown w =>
    rw [not_isTruncatedLine (mark_notMem (text_unknown_chars w))]
    simp
  | truncated op n =>
    refine iff_of_true ?_ ⟨op, n, rfl⟩
    rw [isTruncatedLine, List.isSuffixOf_iff_suffix, toList_text_truncated]
    exact ⟨op.name.toList ++ [' '], by simp⟩
  | instr i =>
    rw [text, i.isTruncatedLine_text]
    simp

theorem text_chars (f : Fetched) :
    ∀ c ∈ f.text.toList, c = ' ' ∨ c = '<' ∨ Text.isPrinted c = true := by
  have hwider {cs : List Char} (h : ∀ c ∈ cs, c = ' ' ∨ Text.isPrinted c = true) :
      ∀ c ∈ cs, c = ' ' ∨ c = '<' ∨ Text.isPrinted c = true :=
    fun c hc => (h c hc).imp_right .inr
  cases f with
  | unknown w => exact hwider (text_unknown_chars w)
  | truncated op n =>
    have hmark : (" <truncated>".toList.all fun c =>
        c == ' ' || c == '<' || Text.isPrinted c) = true := by decide
    rw [toList_text_truncated, List.forall_mem_append]
    refine ⟨fun c hc => .inr (.inr (op.name_chars.2 c hc).1), fun c hc => ?_⟩
    simpa [or_assoc] using List.all_eq_true.1 hmark c hc
  | instr i => exact hwider i.text_chars

end Fetched

/-! ### Lines -/

def lineText (pc : Nat) (f : Fetched) : List Char :=
  List.replicate (5 - (Text.decimal pc).length) ' ' ++ digits pc ++ ':' :: ' ' :: f.text.toList

theorem toList_listingLine (pc : Nat) (f : Fetched) :
    (listingLine pc f).toList = lineText pc f ++ ['\n'] := by
  simp [listingLine, lineText, Text.alignRight, Text.decimal]

/-- The address in front of a line's colon, and what the line says. -/
def readLine? (line : List Char) : Option (Nat × List Char) :=
  (Text.splitFirst? ':' line).bind fun (front, rest) =>
    match rest with
    | ' ' :: body => (Text.readDecimal? (Text.trim front)).map fun pc => (pc, body)
    | _ => none

def readListing? (text : String) : Option (List (Nat × List Char)) :=
  (Text.lines text.toList).mapM readLine?

theorem readLine?_lineText (pc : Nat) (f : Fetched) :
    readLine? (lineText pc f) = some (pc, f.text.toList) := by
  have hblank : Text.Blank (List.replicate (5 - (Text.decimal pc).length) ' ') := by
    intro c hc
    rw [List.eq_of_mem_replicate hc]
    decide
  have hcolon : ':' ∉ List.replicate (5 - (Text.decimal pc).length) ' ' ++ digits pc := by
    rw [List.mem_append, not_or]
    refine ⟨fun hmem => ?_, Text.notMem_digits (by decide) pc⟩
    cases List.eq_of_mem_replicate hmem
  rw [readLine?, lineText, Text.splitFirst?_append hcolon, Option.bind_some]
  simp only [Text.trim_blank_append hblank, (Text.tight_digits pc).trim_eq,
    Text.readDecimal?_digits, Option.map_some]

theorem eq_space_of_mem_lineText {pc : Nat} {f : Fetched} {c : Char} (hmem : c ∈ lineText pc f)
    (hblank : isBlank c = true) : c = ' ' := by
  rw [lineText, List.mem_append, List.mem_append, List.mem_cons, List.mem_cons] at hmem
  rcases hmem with (hpad | hdigit) | rfl | rfl | htext
  · exact List.eq_of_mem_replicate hpad
  · rw [Text.isBlank_of_isDigit (Text.isDigit_of_mem_digits hdigit)] at hblank
    cases hblank
  · revert hblank
    decide
  · rfl
  · rcases f.text_chars c htext with rfl | rfl | hprinted
    · rfl
    · revert hblank
      decide
    · simp [Text.isPrinted, hblank] at hprinted

theorem lines_listing (p : Program) :
    Text.lines p.listing.toList = (p.walk 0).map fun x => lineText x.1 x.2 := by
  have hends : p.listing.toList =
      ((p.walk 0).map fun x => lineText x.1 x.2).flatMap fun l => l ++ ['\n'] := by
    simp only [Program.listing, String.toList_join, List.flatMap_map, toList_listingLine]
  rw [hends]
  apply Text.lines_of_ended
  intro line hline
  obtain ⟨x, _, rfl⟩ := List.mem_map.1 hline
  refine ⟨fun hmem => ?_, fun hlast => ?_⟩
  · cases eq_space_of_mem_lineText hmem (by decide)
  · cases eq_space_of_mem_lineText (List.mem_of_getLast? hlast) (by decide)

def shown (walk : List (Nat × Fetched)) : List (Nat × List Char) :=
  walk.map fun x => (x.1, x.2.text.toList)

/-- A listing is read as what stands in the program, address by address. -/
theorem readListing?_listing (p : Program) :
    readListing? p.listing = some (shown (p.walk 0)) := by
  rw [readListing?, lines_listing, List.mapM_map, shown]
  refine mapM_of_forall (g := fun x : Nat × Fetched => (x.1, x.2.text.toList)) ?_
  intro x _
  rw [Function.comp_apply, readLine?_lineText]

end RegisterMachine
