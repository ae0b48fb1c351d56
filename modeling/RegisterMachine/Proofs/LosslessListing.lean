import RegisterMachine.Proofs.DecodedListing

/-!
# Listings lose nothing

The words of a program can be told from its listing, unless an instruction is cut off or a float
that is loaded is no number. In its slot each operand is printed unambiguously, so a line gives
back what stands at its address, and what stands at the addresses are the words.
-/

namespace RegisterMachine

namespace Word

variable {w v : Word}

theorem toNat_inj (h : w.toNat = v.toNat) : w = v := by
  rw [← ofNat_toNat w, h, ofNat_toNat]

theorem text_inj (h : w.text = v.text) : w = v := by
  have hvalue : w.toInt32 = v.toInt32 := Int32.toInt_inj.1 (Text.signedDecimal_inj h)
  rw [← ofInt32_toInt32 w, hvalue, ofInt32_toInt32]

end Word

namespace Instr

/-- Whether the text of an operand gives the word back: all but a float that is no number. -/
def Readable (op : Opcode) (kind : Option OperandKind) (w : Word) : Prop :=
  op = .loadFloat → kind = some .immediate → w.isNaN = false

theorem operandValue_inj {op : Opcode} {kind : Option OperandKind} {w v : Word}
    (hw : Readable op kind w) (hv : Readable op kind v)
    (h : operandValue op kind w = operandValue op kind v) : w = v := by
  unfold operandValue at h
  split at h
  case h_1 =>
    split at h
    case isTrue hop => exact Word.compactFloatText_inj (hw hop rfl) (hv hop rfl) h
    case isFalse => exact Word.text_inj h
  case h_2 => exact Word.toNat_inj (Text.decimal_inj h)

theorem operandColumn_inj {op : Opcode} {slot : Nat} {ws vs : List Word}
    (hws : ∀ x ∈ ws.zipIdx slot, Readable op op.operandKinds[x.2]? x.1)
    (hvs : ∀ x ∈ vs.zipIdx slot, Readable op op.operandKinds[x.2]? x.1)
    (h : operandColumn op slot ws = operandColumn op slot vs) : ws = vs := by
  induction ws generalizing slot vs with
  | nil =>
    cases vs with
    | nil => rfl
    | cons v vs =>
      rw [operandColumn_cons] at h
      cases h
  | cons w ws ih =>
    cases vs with
    | nil =>
      rw [operandColumn_cons] at h
      cases h
    | cons v vs =>
      rw [List.zipIdx_cons, List.forall_mem_cons] at hws hvs
      rw [operandColumn_cons, operandColumn_cons, operandText_eq, operandText_eq,
        String.toList_append, String.toList_append, List.append_assoc, List.append_assoc] at h
      have hbehind := List.append_cancel_left (List.cons.inj h).2
      obtain ⟨hvalue, hrest⟩ := word_append_inj (blank_notMem (operandValue_chars _ _ _))
        (blank_notMem (operandValue_chars _ _ _)) (endsWord_operandColumn _ _ _)
        (endsWord_operandColumn _ _ _) hbehind
      obtain rfl : w = v := operandValue_inj hws.1 hvs.1 (String.toList_injective hvalue)
      rw [ih hws.2 hvs.2 hrest]

/-- Whether the text of an instruction gives it back. -/
def Legible (i : Instr) : Prop := ∀ dst value, i = .loadFloat dst value → value.isNaN = false

theorem eq_loadFloat {i : Instr} (h : i.opcode = .loadFloat) :
    ∃ dst value, i = .loadFloat dst value := by
  cases i <;> first | exact ⟨_, _, rfl⟩ | cases h

theorem Legible.readable {i : Instr} (h : i.Legible) :
    ∀ x ∈ i.operands.zipIdx, Readable i.opcode i.opcode.operandKinds[x.2]? x.1 := by
  intro x hx hop hkind
  obtain ⟨dst, value, rfl⟩ := eq_loadFloat hop
  rcases List.mem_cons.1 hx with rfl | hx
  · cases hkind
  · rw [List.mem_singleton.1 hx]
    exact h dst value rfl

theorem text_inj {i j : Instr} (hi : i.Legible) (hj : j.Legible)
    (h : i.text.toList = j.text.toList) : i = j := by
  have hname : i.opcode.name.toList = j.opcode.name.toList := by
    rw [← i.mnemonic_text, h, j.mnemonic_text]
  have hop : i.opcode = j.opcode := Opcode.name_inj (String.toList_injective hname)
  rw [toList_text, toList_text, hname] at h
  have htail := List.append_cancel_left h
  have hreadable := hi.readable
  have hlength : i.operands.length = j.operands.length := by
    rw [i.length_operands, j.length_operands, hop]
  have hoperands : i.operands = j.operands := by
    unfold textTail at htail
    rw [hop] at htail hreadable
    by_cases hnone : j.operands = []
    · rw [hnone, List.length_nil, List.length_eq_zero_iff] at hlength
      rw [hlength, hnone]
    · have hsome : i.operands ≠ [] := by
        intro hnil
        rw [hnil] at hlength
        exact hnone (List.length_eq_zero_iff.1 hlength.symm)
      rw [if_neg hsome, if_neg hnone] at htail
      exact operandColumn_inj hreadable hj.readable (List.append_cancel_left htail)
  have hdecoded := i.decode?_operands
  rw [hop, hoperands, j.decode?_operands] at hdecoded
  exact (Option.some.inj hdecoded).symm

end Instr

namespace Fetched

/-- Whether a line gives back what stands at its address. -/
def Legible : Fetched → Prop
  | .unknown _ => True
  | .truncated .. => False
  | .instr i => i.Legible

theorem eq_unknown_of_text {w : Word} {g : Fetched}
    (h : (unknown w).text.toList = g.text.toList) : g = .unknown w := by
  have hword := (isWordLine_text (.unknown w)).2 ⟨w, rfl⟩
  rw [h] at hword
  obtain ⟨v, rfl⟩ := (isWordLine_text g).1 hword
  rw [toList_text_unknown, toList_text_unknown] at h
  have hdigits := List.append_cancel_left h
  simp only [List.cons.injEq, true_and] at hdigits
  rw [Word.toNat_inj (Text.hexadecimal_inj (String.toList_injective hdigits))]

theorem text_inj {f g : Fetched} (hf : f.Legible) (hg : g.Legible)
    (h : f.text.toList = g.text.toList) : f = g := by
  cases f with
  | truncated => exact absurd hf id
  | unknown w => exact (eq_unknown_of_text h).symm
  | instr i =>
    cases g with
    | truncated => exact absurd hg id
    | unknown v => exact eq_unknown_of_text h.symm
    | instr j => rw [Instr.text_inj hf hg h]

def words : Fetched → List Word
  | .unknown w => [w]
  | .truncated .. => []
  | .instr i => i.encode

end Fetched

theorem shown_inj {l m : List (Nat × Fetched)} (hl : ∀ x ∈ l, x.2.Legible)
    (hm : ∀ x ∈ m, x.2.Legible) (h : shown l = shown m) : l = m := by
  induction l generalizing m with
  | nil => exact (List.map_eq_nil_iff.1 h.symm).symm
  | cons x l ih =>
    cases m with
    | nil => cases h
    | cons y m =>
      rw [List.forall_mem_cons] at hl hm
      obtain ⟨hline, hrest⟩ := List.cons.inj h
      obtain ⟨hpc, htext⟩ := Prod.mk.inj hline
      rw [Prod.ext hpc (Fetched.text_inj hl.1 hm.1 htext), ih hl.2 hm.2 hrest]

namespace Program

variable {p q : Program} {pc : Nat}

theorem drop_of_word {w : Word} (h : p.words[pc]? = some w) :
    p.words.toList.drop pc = w :: p.words.toList.drop (pc + 1) := by
  rw [← Array.getElem?_toList] at h
  obtain ⟨hlt, rfl⟩ := List.getElem?_eq_some_iff.1 h
  exact List.drop_eq_getElem_cons hlt

theorem drop_of_fetch? {f : Fetched} (h : p.fetch? pc = some f) (hf : f.Legible) :
    p.words.toList.drop pc = f.words ++ p.words.toList.drop (pc + f.width) := by
  cases f with
  | truncated => exact absurd hf id
  | unknown w => exact drop_of_word (fetch?_unknown h).1
  | instr i =>
    obtain ⟨hword, hoperands⟩ := words_of_fetch? h
    rw [Array.toList_extract, List.extract_eq_take_drop] at hoperands
    have hwidth : pc + 1 + (pc + i.width - (pc + 1)) = pc + i.width := by
      have hpos : 0 < i.width := i.opcode.width_pos
      omega
    have hsplit := List.take_append_drop (pc + i.width - (pc + 1)) (p.words.toList.drop (pc + 1))
    rw [hoperands, List.drop_drop, hwidth] at hsplit
    rw [drop_of_word hword, ← hsplit]
    rfl

theorem drop_eq_flatMap_walk (h : ∀ x ∈ p.walk pc, x.2.Legible) :
    p.words.toList.drop pc = (p.walk pc).flatMap fun x => x.2.words := by
  revert h
  induction pc using walk_induction (p := p) with
  | done pc hnone =>
    intro _
    exact List.drop_of_length_le (fetch?_eq_none_iff.1 hnone)
  | next pc f hf ih =>
    intro h
    rw [List.forall_mem_cons] at h
    rw [drop_of_fetch? hf h.1, ih h.2, List.flatMap_cons]

/-- No line of the listing is cut off, and no float that is loaded is no number. -/
structure Legible (p : Program) : Prop where
  whole : ∀ lines, readListing? p.listing = some lines →
    ∀ line ∈ lines, isTruncatedLine line.2 = false
  numbers : ∀ pc dst value, (pc, .instr (.loadFloat dst value)) ∈ p.walk 0 → value.isNaN = false

theorem legible_iff : p.Legible ↔ ∀ x ∈ p.walk 0, x.2.Legible := by
  constructor
  · intro h (pc, f) hx
    cases f with
    | unknown => trivial
    | truncated op n =>
      have hline := h.whole _ (readListing?_listing p) _ (List.mem_map_of_mem hx)
      rw [(Fetched.isTruncatedLine_text _).2 ⟨op, n, rfl⟩] at hline
      cases hline
    | instr i =>
      rintro dst value rfl
      exact h.numbers pc dst value hx
  · intro h
    refine ⟨fun lines hread line hline => ?_, fun pc dst value hx => h _ hx dst value rfl⟩
    rw [readListing?_listing] at hread
    obtain rfl := Option.some.inj hread
    obtain ⟨x, hx, rfl⟩ := List.mem_map.1 hline
    rw [Bool.eq_false_iff]
    intro htruncated
    obtain ⟨op, n, htext⟩ := (Fetched.isTruncatedLine_text x.2).1 htruncated
    have hlegible := h x hx
    rw [htext] at hlegible
    exact hlegible

end Program

/-- The words of legible programs are the same if their listings are. -/
theorem words_eq_of_listing_eq {p q : Program} (hp : p.Legible) (hq : q.Legible)
    (h : p.listing = q.listing) : p.words = q.words := by
  have hlines := readListing?_listing p
  rw [h, readListing?_listing q] at hlines
  have hshown := Option.some.inj hlines
  rw [Program.legible_iff] at hp hq
  apply Array.toList_inj.1
  calc p.words.toList = (p.walk 0).flatMap fun x => x.2.words := Program.drop_eq_flatMap_walk hp
    _ = (q.walk 0).flatMap fun x => x.2.words := by rw [shown_inj hq hp hshown]
    _ = q.words.toList := (Program.drop_eq_flatMap_walk hq).symm

def zeroLoop : List SymbolicInstr := [.label 7, .loadFloat 0 ⟨0x80000000⟩, .jump 7]

def zeroLoopWords : Program where
  words := #[⟨2⟩, ⟨7⟩, ⟨11⟩, ⟨0⟩, ⟨0x80000000⟩, ⟨60⟩, ⟨2⟩]

theorem zeroLoop_told_from_listing :
    (link zeroLoop).program.Legible ∧ zeroLoopWords.Legible ∧
      (link zeroLoop).program.listing = zeroLoopWords.listing ∧
      (link zeroLoop).program.words = zeroLoopWords.words := by
  have hlinked : (link zeroLoop).program.walk 0 =
      [(0, .instr (.label ⟨7⟩)), (2, .instr (.loadFloat ⟨0⟩ ⟨0x80000000⟩)),
        (5, .instr (.jump ⟨2⟩))] := by
    exact Program.walk_eq_cons (by decide) <| Program.walk_eq_cons (by decide) <|
      Program.walk_eq_cons (by decide) <| Program.walk_of_size_le (by decide)
  have hwritten : zeroLoopWords.walk 0 = (link zeroLoop).program.walk 0 := by
    rw [hlinked]
    exact Program.walk_eq_cons (by decide) <| Program.walk_eq_cons (by decide) <|
      Program.walk_eq_cons (by decide) <| Program.walk_of_size_le (by decide)
  have hlegible : ∀ x ∈ (link zeroLoop).program.walk 0, x.2.Legible := by
    rw [hlinked]
    simp only [List.forall_mem_cons, Fetched.Legible, Instr.Legible]
    refine ⟨by simp, ?_, by simp, by simp⟩
    intro dst value h
    cases h
    decide
  have hp := Program.legible_iff.2 hlegible
  have hq : zeroLoopWords.Legible := Program.legible_iff.2 (by rwa [hwritten])
  have hlisting : (link zeroLoop).program.listing = zeroLoopWords.listing := by
    rw [Program.listing, Program.listing, hwritten]
  exact ⟨hp, hq, hlisting, words_eq_of_listing_eq hp hq hlisting⟩

end RegisterMachine
