import RegisterMachine.Proofs.Acceptance

/-!
# Encoding

Every instruction of an accepted program stands at its address in the assembled words, with the
addresses of markers and closing members in place of symbols; a preload has left no-ops there.
-/

namespace RegisterMachine

namespace Program

def HasCode (p : Program) (pc : Nat) (ws : List Word) : Prop :=
  ∃ before after, p.words.toList = before ++ ws ++ after ∧ before.length = pc

theorem HasCode.left {p : Program} {pc : Nat} {us vs : List Word} (h : p.HasCode pc (us ++ vs)) :
    p.HasCode pc us := by
  obtain ⟨before, after, hwords, hpc⟩ := h
  exact ⟨before, vs ++ after, by rw [hwords]; simp, hpc⟩

theorem HasCode.right {p : Program} {pc : Nat} {us vs : List Word} (h : p.HasCode pc (us ++ vs)) :
    p.HasCode (pc + us.length) vs := by
  obtain ⟨before, after, hwords, rfl⟩ := h
  exact ⟨before ++ us, after, by rw [hwords]; simp, by simp⟩

theorem HasCode.extract {p : Program} {pc : Nat} {w : Word} {ws : List Word}
    (h : p.HasCode pc (w :: ws)) :
    p.words[pc]? = some w ∧ (p.words.extract (pc + 1) (pc + (ws.length + 1))).toList = ws := by
  obtain ⟨before, after, hwords, rfl⟩ := h
  constructor
  · rw [← Array.getElem?_toList, hwords]
    simp
  · have hdrop : (before ++ w :: ws ++ after).drop (before.length + 1) = ws ++ after := by
      rw [List.append_assoc, List.drop_append]
      simp
    rw [Array.toList_extract, List.extract_eq_take_drop, hwords, hdrop]
    have hlen : before.length + (ws.length + 1) - (before.length + 1) = ws.length := by omega
    rw [hlen, List.take_left]

theorem fetch?_of_hasCode {p : Program} {pc : Nat} {i : Instr} (h : p.HasCode pc i.encode) :
    p.fetch? pc = some (.instr i) := by
  obtain ⟨hword, hoperands⟩ := h.extract
  have hid : (Word.ofNat i.opcode.id).toNat = i.opcode.id := by
    apply Word.toNat_ofNat_of_lt
    have := i.opcode.id_lt
    omega
  have hwidth : i.opcode.width = i.operands.length + 1 := by
    rw [Instr.length_operands, Opcode.width]
  simp only [fetch?, hword, Option.map_some, hid, Opcode.ofId?_id, hwidth, hoperands,
    Instr.decode?_operands]

theorem fetch?_of_size_le {p : Program} {pc : Nat} (h : p.words.size ≤ pc) :
    p.fetch? pc = none := by
  simp only [fetch?, Array.getElem?_eq_none h, Option.map_none]

end Program

theorem Opcode.payload_of_skip {op : Opcode} (h : op.hasSkipTarget = true) :
    op.payload = op.arity + 1 := by
  rw [payload, if_pos h]

theorem Opcode.payload_of_no_skip {op : Opcode} (h : op.hasSkipTarget = false) :
    op.payload = op.arity := by
  rw [payload, if_neg (by simp [h])]

theorem SymbolicInstr.Names.no_skip {x : SymbolicInstr} {kind : SymbolKind} {id : UInt32}
    (h : x.Names kind id) : x.op.hasSkipTarget = false := by
  cases h <;> rfl

theorem SymbolicInstr.Names.operands_pos {x : SymbolicInstr} {kind : SymbolKind} {id : UInt32}
    (h : x.Names kind id) : 0 < x.operands.length := by
  cases h <;> exact Nat.succ_pos _

theorem Layout.length_resolveOperands (l : Layout) {x : Placed} (h : x.instr.hasArity = true) :
    (l.resolveOperands x).length = x.instr.op.payload := by
  have hlen := Scan.length_operands_of_hasArity h rfl
  unfold resolveOperands
  split
  case h_1 kind id href =>
    have hnames := (SymbolicInstr.reference?_eq_some_iff h).1 href
    have hpos := hnames.operands_pos
    rw [Opcode.payload_of_no_skip hnames.no_skip, ← hlen]
    simp only [List.length_append, List.length_dropLast, List.length_cons, List.length_nil]
    omega
  case h_2 =>
    split
    case isTrue hskip =>
      rw [Opcode.payload_of_skip hskip, ← hlen]
      simp
    case isFalse hskip => rw [Opcode.payload_of_no_skip (by simpa using hskip), hlen]

theorem Layout.length_encode (l : Layout) {x : Placed} (h : x.instr.hasArity = true) :
    (l.encode x).length = x.instr.width := by
  unfold encode
  split
  case h_1 => simp
  case h_2 =>
    rw [List.length_cons, l.length_resolveOperands h]
    rfl

theorem Layout.length_encode_take (l : Layout) {p : List SymbolicInstr}
    (harity : ∀ x ∈ p, x.hasArity = true) {n : Nat} (hn : n ≤ p.length) :
    (((place p).take n).flatMap l.encode).length = address p n := by
  induction n with
  | zero => simp
  | succ n ih =>
    have hx : p[n]? = some p[n] := List.getElem?_eq_getElem (by omega)
    have hplaced : (place p)[n]? = some (placedAt p n p[n]) := by
      rw [getElem?_place, hx, Option.map_some]
    obtain ⟨hlt, hget⟩ := List.getElem?_eq_some_iff.1 hplaced
    have hone : (l.encode (placedAt p n p[n])).length = p[n].width :=
      l.length_encode (harity _ (List.getElem_mem _))
    rw [List.take_succ_eq_append_getElem hlt, hget, List.flatMap_append, List.length_append,
      ih (by omega), address_succ hx]
    simp [hone]

/-- What the layout of an accepted program says of its branches. -/
structure Linked (p : List SymbolicInstr) (l : Layout) : Prop where
  arity : ∀ x ∈ p, x.hasArity = true
  marked : ∀ x ∈ p, ∀ kind id, x.Names kind id → kind.marker id ∈ p
  target : ∀ (kind : SymbolKind) id, kind.marker id ∈ p →
    l.target? kind id = some (address p (p.idxOf (kind.marker id) + 1))
  skip : ∀ i x, p[i]? = some x → x.op.hasSkipTarget = true →
    l.skip? i = some (address p (skipIndex p x.op i))

theorem linked_of_check {p : List SymbolicInstr} (h : check p = []) :
    Linked p (scan (place p)).layout := by
  have wf := wellFormed_of_check h
  obtain ⟨hfaults, hopened, _⟩ := check_eq_nil_iff.1 h
  refine ⟨?_, ?_, ?_, ?_⟩
  · intro x hx
    exact beq_iff_eq.2 (wf.arity x hx)
  · intro x hx kind id hnames
    exact wf.marked hx hnames
  · intro kind id hmem
    have hlt : p.idxOf (kind.marker id) < p.length := List.idxOf_lt_length_of_mem hmem
    have hget : p[p.idxOf (kind.marker id)]? = some (kind.marker id) := by
      rw [List.getElem?_eq_getElem hlt, List.getElem_idxOf]
    rw [← scanned_length] at hfaults ⊢
    exact ((symbolFacts (Nat.le_refl _) hfaults).target kind id _).2 ⟨_, hlt, hget, rfl⟩
  · intro i x hx hskip
    exact skip?_eq_some hfaults hopened hx hskip

theorem Linked.hasCode {p : List SymbolicInstr} (h : Linked p (scan (place p)).layout) {i : Nat}
    {x : SymbolicInstr} (hx : p[i]? = some x) :
    (link p).program.HasCode (address p i)
      ((scan (place p)).layout.encode (placedAt p i x)) := by
  have hplaced : (place p)[i]? = some (placedAt p i x) := by
    rw [getElem?_place, hx, Option.map_some]
  obtain ⟨hlt, hget⟩ := List.getElem?_eq_some_iff.1 hplaced
  have hi : i ≤ p.length := Nat.le_of_lt (List.getElem?_eq_some_iff.1 hx).1
  refine ⟨((place p).take i).flatMap (scan (place p)).layout.encode,
    ((place p).drop (i + 1)).flatMap (scan (place p)).layout.encode, ?_,
    Layout.length_encode_take _ h.arity hi⟩
  have hsplit : ∀ f : Placed → List Word, (place p).flatMap f =
      ((place p).take i).flatMap f ++ f (placedAt p i x) ++ ((place p).drop (i + 1)).flatMap f := by
    intro f
    conv => lhs; rw [← List.take_append_drop i (place p), List.drop_eq_getElem_cons hlt, hget]
    simp
  simp only [link, List.toList_toArray]
  exact hsplit _

theorem Linked.size_words {p : List SymbolicInstr} (h : Linked p (scan (place p)).layout) :
    (link p).program.words.size = encodedWidth p := by
  have hall := Layout.length_encode_take (scan (place p)).layout h.arity (Nat.le_refl p.length)
  rw [List.take_of_length_le (by simp), address_of_length_le (Nat.le_refl _)] at hall
  simpa [link] using hall

theorem Layout.encode_of_ne_preload (l : Layout) {x : Placed} (h : x.instr.op ≠ .listPreload) :
    l.encode x = .ofNat x.instr.op.id :: l.resolveOperands x := by
  unfold encode
  split
  case h_1 hop => exact absurd hop h
  case h_2 => rfl

namespace Linked

variable {p : List SymbolicInstr} {l : Layout} {i : Nat} {x : SymbolicInstr}

/-- The address a layout gives a symbol is that of the instruction after its marker. -/
theorem resolveOperands_of_names (h : Linked p l) (hx : p[i]? = some x) {kind : SymbolKind}
    {id : UInt32} (hnames : x.Names kind id) :
    l.resolveOperands (placedAt p i x) =
      x.operands.dropLast ++ [.ofNat (address p (p.idxOf (kind.marker id) + 1))] := by
  have hmem := List.mem_of_getElem? hx
  have href : (placedAt p i x).instr.reference? = some (kind, id) :=
    (SymbolicInstr.reference?_eq_some_iff (h.arity x hmem)).2 hnames
  simp only [Layout.resolveOperands, href, h.target kind id (h.marked x hmem kind id hnames),
    Option.getD_some]
  rfl

theorem resolveOperands_of_skip (h : Linked p l) (hx : p[i]? = some x) (href : x.reference? = none)
    (hskip : x.op.hasSkipTarget = true) :
    l.resolveOperands (placedAt p i x) =
      x.operands ++ [.ofNat (address p (skipIndex p x.op i))] := by
  have hinstr : (placedAt p i x).instr.reference? = none := href
  have hop : (placedAt p i x).instr.op.hasSkipTarget = true := hskip
  have hlook : l.skip? (placedAt p i x).location.index = some (address p (skipIndex p x.op i)) :=
    h.skip i x hx hskip
  simp only [Layout.resolveOperands, hinstr, hop, hlook, if_true, Option.getD_some]
  rfl

theorem resolveOperands_of_plain (href : x.reference? = none)
    (hskip : x.op.hasSkipTarget = false) :
    l.resolveOperands (placedAt p i x) = x.operands := by
  have hinstr : (placedAt p i x).instr.reference? = none := href
  have hop : (placedAt p i x).instr.op.hasSkipTarget = false := hskip
  simp only [Layout.resolveOperands, hinstr, hop]
  rfl

end Linked

end RegisterMachine
