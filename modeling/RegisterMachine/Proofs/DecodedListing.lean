import RegisterMachine.Proofs.Bounds
import RegisterMachine.Proofs.Dispatch
import RegisterMachine.Proofs.ListingText
import RegisterMachine.Proofs.Simulation

/-!
# Listings and execution

A listing shows the words as execution decodes them. Its lines lie end to end over the whole
program, whatever the words are, and a context at the address of a line executes what the line
says: it fails as the line shows, or dispatches the instruction that is printed there. Of an
accepted program each instruction has its line, at the address of its place.
-/

namespace RegisterMachine

namespace Program

variable {p : Program} {pc : Nat}

theorem fetch?_eq_none_iff : p.fetch? pc = none ↔ p.size ≤ pc := by
  rw [fetch?, Option.map_eq_none_iff, Array.getElem?_eq_none_iff]
  rfl

theorem words_of_fetch? {i : Instr} (h : p.fetch? pc = some (.instr i)) :
    p.words[pc]? = some (.ofNat i.opcode.id) ∧
      (p.words.extract (pc + 1) (pc + i.width)).toList = i.operands := by
  obtain ⟨word, hword, hf⟩ := Option.map_eq_some_iff.1 h
  split at hf
  case h_1 => cases hf
  case h_2 op hop =>
    split at hf
    case h_1 j hj =>
      cases hf
      obtain rfl := Instr.opcode_of_decode? hj
      have hid := Opcode.ofId?_eq_some_iff.1 hop
      exact ⟨by rw [hid, Word.ofNat_toNat, hword], (Instr.operands_of_decode? hj).symm⟩
    case h_2 => cases hf

theorem walk_of_fetch? {f : Fetched} (h : p.fetch? pc = some f) :
    p.walk pc = (pc, f) :: p.walk (pc + f.width) := by
  rw [walk]
  split
  case h_1 hnone =>
    rw [h] at hnone
    cases hnone
  case h_2 g hg =>
    rw [h] at hg
    cases hg
    rfl

theorem walk_eq_cons {f : Fetched} {rest : List (Nat × Fetched)} (h : p.fetch? pc = some f)
    (hrest : p.walk (pc + f.width) = rest) : p.walk pc = (pc, f) :: rest := by
  rw [walk_of_fetch? h, hrest]

theorem walk_of_size_le (h : p.size ≤ pc) : p.walk pc = [] := by
  rw [walk]
  split
  case h_1 => rfl
  case h_2 f hf =>
    rw [fetch?_eq_none_iff.2 h] at hf
    cases hf

theorem walk_nops {n : Nat} (h : ∀ k < n, p.fetch? (pc + k) = some (.instr .nop)) :
    p.walk pc = ((List.range n).map fun k => (pc + k, .instr .nop)) ++ p.walk (pc + n) := by
  induction n with
  | zero => rfl
  | succ n ih =>
    rw [ih fun k hk => h k (Nat.lt_succ_of_lt hk), walk_of_fetch? (h n (Nat.lt_succ_self n)),
      List.range_succ, List.map_append, List.append_assoc]
    rfl

theorem walk_induction {motive : Nat → List (Nat × Fetched) → Prop}
    (done : ∀ pc, p.fetch? pc = none → motive pc [])
    (next : ∀ pc f, p.fetch? pc = some f → motive (pc + f.width) (p.walk (pc + f.width)) →
      motive pc ((pc, f) :: p.walk (pc + f.width))) (pc : Nat) : motive pc (p.walk pc) := by
  induction pc using walk.induct p with
  | case1 pc hnone =>
    rw [walk_of_size_le (fetch?_eq_none_iff.1 hnone)]
    exact done pc hnone
  | case2 pc f hf ih =>
    rw [walk_of_fetch? hf]
    exact next pc f hf ih

theorem fetch?_of_mem_walk {line : Nat × Fetched} (h : line ∈ p.walk pc) :
    p.fetch? line.1 = some line.2 := by
  revert h
  induction pc using walk_induction (p := p) with
  | done pc _ => exact fun h => absurd h List.not_mem_nil
  | next pc f hf ih =>
    intro h
    rcases List.mem_cons.1 h with rfl | h
    · exact hf
    · exact ih h

end Program

/-- Lines that lie end to end from an address up to the end of the words. A line that gives a word
takes it alone, a line that is cut off is the last one, and any other takes as many words as its
mnemonic needs. -/
inductive Tiles (size : Nat) : Nat → List (Nat × List Char) → Prop
  | done : Tiles size size []
  | word {pc : Nat} {body : List Char} {lines : List (Nat × List Char)} :
      isTruncatedLine body = false → isWordLine body = true → Tiles size (pc + 1) lines →
        Tiles size pc ((pc, body) :: lines)
  | cutOff {pc : Nat} {body : List Char} {op : Opcode} :
      isTruncatedLine body = true → mnemonic body = op.name.toList → pc < size →
        size < pc + op.width → Tiles size pc [(pc, body)]
  | instr {pc : Nat} {body : List Char} {op : Opcode} {lines : List (Nat × List Char)} :
      isTruncatedLine body = false → mnemonic body = op.name.toList →
        Tiles size (pc + op.width) lines → Tiles size pc ((pc, body) :: lines)

namespace Tiles

variable {size pc : Nat} {lines : List (Nat × List Char)}

theorem le_address (h : Tiles size pc lines) : ∀ line ∈ lines, pc ≤ line.1 := by
  induction h with
  | done => simp
  | word _ _ _ ih =>
    rw [List.forall_mem_cons]
    exact ⟨Nat.le_refl _, fun line hline => Nat.le_of_succ_le (ih line hline)⟩
  | cutOff => simp
  | instr _ _ _ ih =>
    rw [List.forall_mem_cons]
    exact ⟨Nat.le_refl _, fun line hline => Nat.le_of_add_right_le (ih line hline)⟩

theorem ascending (h : Tiles size pc lines) : lines.Pairwise fun a b => a.1 < b.1 := by
  induction h with
  | done => exact .nil
  | word _ _ hrest ih => exact .cons (fun line hline => hrest.le_address line hline) ih
  | cutOff => exact List.pairwise_singleton _ _
  | @instr pc body op lines _ _ hrest ih =>
    refine .cons (fun line hline => ?_) ih
    have hle := hrest.le_address line hline
    have hpos := op.width_pos
    exact Nat.lt_of_lt_of_le (Nat.lt_add_of_pos_right hpos) hle

end Tiles

theorem Program.tiles_walk (p : Program) {pc : Nat} (h : pc ≤ p.size) :
    Tiles p.size pc (shown (p.walk pc)) := by
  revert h
  induction pc using walk_induction (p := p) with
  | done pc hnone =>
    intro h
    rw [Nat.le_antisymm h (fetch?_eq_none_iff.1 hnone)]
    exact .done
  | next pc f hf ih =>
    intro _
    have hlt := lt_size_of_fetch? hf
    cases f with
    | unknown word =>
      have hwhole : isTruncatedLine (Fetched.unknown word).text.toList = false :=
        not_isTruncatedLine (mark_notMem (Fetched.text_unknown_chars word))
      exact .word hwhole ((Fetched.isWordLine_text _).2 ⟨word, rfl⟩) (ih hlt)
    | truncated op available =>
      obtain ⟨rfl, hshort⟩ := fetch?_truncated hf
      have hrest : p.walk (pc + (p.size - pc)) = [] := walk_of_size_le (by omega)
      have hmnemonic : mnemonic (Fetched.truncated op (p.size - pc)).text.toList =
          op.name.toList := Fetched.mnemonic_text _
      simp only [Fetched.width, hrest]
      exact .cutOff ((Fetched.isTruncatedLine_text _).2 ⟨op, _, rfl⟩) hmnemonic hlt (by omega)
    | instr i =>
      exact .instr i.isTruncatedLine_text i.mnemonic_text (ih (fetch?_instr_le hf))

/-! ### Contexts at a line -/

/-- A context does what a line says: it fails at a word that is no instruction and at an instruction
that is cut off exactly if the line shows that, and otherwise dispatches the instruction that is
printed, decoded from the words at its address. -/
structure Context.Heeds (c : Context) (p : Program) (s : Shared) (body : List Char) : Prop where
  unknown : (∃ word, (c.step p s).1 = .stop (.faulted (.unknownOpcode word) c.pc)) ↔
    isWordLine body = true
  truncated : (∃ op width available,
      (c.step p s).1 = .stop (.faulted (.truncatedInstruction op width available) c.pc)) ↔
    isTruncatedLine body = true
  dispatched : isWordLine body = false → isTruncatedLine body = false →
    ∃ i : Instr, body = i.text.toList ∧ mnemonic body = i.opcode.name.toList ∧
      p.words[c.pc]? = some (.ofNat i.opcode.id) ∧
      (p.words.extract (c.pc + 1) (c.pc + i.width)).toList = i.operands ∧
      c.step p s = c.dispatch i s

namespace Context

variable {p : Program} {c : Context} {s : Shared}

theorem dispatch_ne_decoding {i : Instr} {cause : RuntimeFault} {pc : Nat}
    (h : (c.dispatch i s).1 = .stop (.faulted cause pc)) :
    (∀ word, cause ≠ .unknownOpcode word) ∧
      ∀ op width available, cause ≠ .truncatedInstruction op width available := by
  rw [signal_dispatch, transfer_eq_faulted_iff] at h
  rcases h.2 with ⟨index, _, rfl⟩ | ⟨target, _, _, rfl⟩
  · exact ⟨fun _ h => (by cases h), fun _ _ _ h => (by cases h)⟩
  · exact ⟨fun _ h => (by cases h), fun _ _ _ h => (by cases h)⟩

theorem heeds_of_fetch? {f : Fetched} (hfetch : p.fetch? c.pc = some f) (hlimit : c.limit = none)
    (s : Shared) : c.Heeds p s f.text.toList := by
  have hfree : c.exhausted? = none := by rw [exhausted?, hlimit, Option.filter_none]
  cases f with
  | unknown word =>
    have hstep : (c.step p s).1 = .stop (.faulted (.unknownOpcode word) c.pc) := by
      simp only [step, hfetch]
    refine ⟨?_, ?_, ?_⟩
    · rw [Fetched.isWordLine_text]
      exact iff_of_true ⟨word, hstep⟩ ⟨word, rfl⟩
    · rw [Fetched.isTruncatedLine_text, hstep]
      simp
    · intro hword _
      rw [(Fetched.isWordLine_text _).2 ⟨word, rfl⟩] at hword
      cases hword
  | truncated op available =>
    have hstep : (c.step p s).1 =
        .stop (.faulted (.truncatedInstruction op op.width available) c.pc) := by
      simp only [step, hfetch]
    refine ⟨?_, ?_, ?_⟩
    · rw [Fetched.isWordLine_text, hstep]
      simp
    · rw [Fetched.isTruncatedLine_text]
      exact iff_of_true ⟨op, op.width, available, hstep⟩ ⟨op, available, rfl⟩
    · intro _ htruncated
      rw [(Fetched.isTruncatedLine_text _).2 ⟨op, available, rfl⟩] at htruncated
      cases htruncated
  | instr i =>
    have hstep := step_eq_dispatch (current?_eq_some_iff.2 ⟨hfetch, hfree⟩) s
    refine ⟨?_, ?_, ?_⟩
    · rw [Fetched.isWordLine_text, hstep]
      refine iff_of_false ?_ (by simp)
      rintro ⟨word, h⟩
      exact (dispatch_ne_decoding h).1 word rfl
    · rw [Fetched.isTruncatedLine_text, hstep]
      refine iff_of_false ?_ (by simp)
      rintro ⟨op, width, available, h⟩
      exact (dispatch_ne_decoding h).2 op width available rfl
    · intro _ _
      obtain ⟨hword, hoperands⟩ := Program.words_of_fetch? hfetch
      exact ⟨i, rfl, i.mnemonic_text, hword, hoperands, hstep⟩

end Context

/-! ### Accepted programs -/

/-- The address and mnemonic of each line of an instruction in its place. A preload stands as
no-ops. -/
def Placed.listed (x : Placed) : List (Nat × List Char) :=
  if x.instr.op = .listPreload then
    (List.range 3).map fun k => (x.location.pc + k, Opcode.nop.name.toList)
  else [(x.location.pc, x.instr.op.name.toList)]

def heads (walk : List (Nat × Fetched)) : List (Nat × List Char) :=
  walk.map fun x => (x.1, mnemonic x.2.text.toList)

/-- Whether a walk meets instructions only. -/
def Complete (walk : List (Nat × Fetched)) : Prop := ∀ x ∈ walk, ∃ i, x.2 = .instr i

namespace Linked

variable {p : List SymbolicInstr} {i : Nat} {x : SymbolicInstr}

theorem walk_preload (h : Linked p (scan (place p)).layout) (hx : p[i]? = some x)
    (hop : x.op = .listPreload) :
    (link p).program.walk (address p i) =
      ((List.range 3).map fun k => (address p i + k, .instr .nop)) ++
        (link p).program.walk (address p (i + 1)) := by
  have hwidth : x.width = 3 := by
    rw [SymbolicInstr.width, hop]
    rfl
  rw [address_succ hx, hwidth]
  exact Program.walk_nops fun k hk => SymbolicContext.fetch?_of_preload h hx hop hk

theorem walk_encoded (h : Linked p (scan (place p)).layout) (hx : p[i]? = some x)
    (hop : x.op ≠ .listPreload) :
    ∃ j : Instr, j.opcode = x.op ∧ (link p).program.walk (address p i) =
      (address p i, .instr j) :: (link p).program.walk (address p (i + 1)) := by
  obtain ⟨j, hview, hencode⟩ := h.encode_eq hx hop
  have hcode := h.hasCode hx
  rw [hencode] at hcode
  generalize Word.ofNat (address p (branchIndex p i j)) = t at hcode
  have hopcode : (j.withTarget t).opcode = x.op := by
    rw [Instr.opcode_withTarget, Instr.opcode_of_decode? hview]
  have hwidth : (Fetched.instr (j.withTarget t)).width = x.width := by
    rw [Fetched.width, Instr.width, hopcode, SymbolicInstr.width]
  refine ⟨j.withTarget t, hopcode, ?_⟩
  rw [Program.walk_of_fetch? (Program.fetch?_of_hasCode hcode), hwidth, address_succ hx]

theorem walk_instr (h : Linked p (scan (place p)).layout) (hx : p[i]? = some x) :
    ∃ rows, (link p).program.walk (address p i) =
        rows ++ (link p).program.walk (address p (i + 1)) ∧
      heads rows = (placedAt p i x).listed ∧ Complete rows := by
  unfold Placed.listed
  split
  case isTrue hop =>
    refine ⟨_, h.walk_preload hx hop, ?_, fun row hrow => ?_⟩
    · rw [heads, List.map_map]
      exact List.map_congr_left fun k _ => congrArg _ Instr.nop.mnemonic_text
    · obtain ⟨k, _, rfl⟩ := List.mem_map.1 hrow
      exact ⟨.nop, rfl⟩
  case isFalse hop =>
    obtain ⟨j, hopcode, hwalk⟩ := h.walk_encoded hx hop
    refine ⟨[(address p i, .instr j)], hwalk, ?_, fun row hrow => ?_⟩
    · have hmnemonic := j.mnemonic_text
      rw [hopcode] at hmnemonic
      exact congrArg (fun word => [(address p i, word)]) hmnemonic
    · rw [List.mem_singleton.1 hrow]
      exact ⟨j, rfl⟩

theorem walk_from (h : Linked p (scan (place p)).layout) {n : Nat} (hn : i + n = p.length) :
    heads ((link p).program.walk (address p i)) = ((place p).drop i).flatMap Placed.listed ∧
      Complete ((link p).program.walk (address p i)) := by
  induction n generalizing i with
  | zero =>
    have hend : (link p).program.walk (address p i) = [] := by
      apply Program.walk_of_size_le
      rw [address_of_length_le (by omega)]
      exact Nat.le_of_eq h.size_words
    rw [hend, List.drop_of_length_le (by simp; omega)]
    exact ⟨rfl, fun x hx => absurd hx List.not_mem_nil⟩
  | succ n ih =>
    have hlt : i < p.length := by omega
    have hx : p[i]? = some p[i] := List.getElem?_eq_getElem hlt
    have hplaced : (place p)[i]? = some (placedAt p i p[i]) := by
      rw [getElem?_place, hx, Option.map_some]
    obtain ⟨hlt', hget⟩ := List.getElem?_eq_some_iff.1 hplaced
    obtain ⟨rows, hwalk, hheads, hrows⟩ := h.walk_instr hx
    obtain ⟨hrest, hcomplete⟩ := ih (i := i + 1) (by omega)
    rw [hwalk, List.drop_eq_getElem_cons hlt', hget, List.flatMap_cons, ← hheads, ← hrest]
    refine ⟨List.map_append, fun row hrow => ?_⟩
    rcases List.mem_append.1 hrow with hrow | hrow
    · exact hrows row hrow
    · exact hcomplete row hrow

end Linked

/-- The listing of any words has lines end to end from the first address on, and a context without
a limit at the address of a line does what the line says. The listing of an accepted program has
the lines of its instructions in their places, and nothing else. -/
theorem listing_shows_execution :
    (∀ p : Program, ∃ lines, readListing? p.listing = some lines ∧ Tiles p.size 0 lines ∧
      lines.Pairwise (fun a b => a.1 < b.1) ∧
      ∀ line ∈ lines, ∀ (c : Context) (s : Shared), c.pc = line.1 → c.limit = none →
        c.Heeds p s line.2) ∧
    ∀ (program : List SymbolicInstr) (a : Assembly), assemble program = .ok a →
      ∃ lines, readListing? a.program.listing = some lines ∧
        lines.map (fun line => (line.1, mnemonic line.2)) =
          (place program).flatMap Placed.listed ∧
        ∀ line ∈ lines, isWordLine line.2 = false ∧ isTruncatedLine line.2 = false := by
  refine ⟨fun p => ?_, fun program a h => ?_⟩
  · have htiles := p.tiles_walk (Nat.zero_le _)
    refine ⟨_, readListing?_listing p, htiles, htiles.ascending, ?_⟩
    intro line hline c s hpc hlimit
    obtain ⟨row, hrow, rfl⟩ := List.mem_map.1 hline
    have hfetch := Program.fetch?_of_mem_walk hrow
    rw [← hpc] at hfetch
    exact Context.heeds_of_fetch? hfetch hlimit s
  · obtain ⟨hcheck, rfl⟩ := assemble_eq_ok_iff.1 h
    obtain ⟨hheads, hcomplete⟩ := (linked_of_check hcheck).walk_from (Nat.zero_add _)
    rw [address_zero] at hheads hcomplete
    refine ⟨_, readListing?_listing _, ?_, ?_⟩
    · rw [shown, List.map_map]
      exact hheads
    · intro line hline
      obtain ⟨row, hrow, rfl⟩ := List.mem_map.1 hline
      obtain ⟨i, hi⟩ := hcomplete row hrow
      rw [hi]
      exact ⟨i.isWordLine_text, i.isTruncatedLine_text⟩

/-- A word that is no instruction, an instruction, and one that is cut off. -/
def brokenWords : Program where
  words := #[⟨999⟩, .ofNat Opcode.clear.id, ⟨5⟩, .ofNat Opcode.loadInt.id]

def preloadedBlock : List SymbolicInstr := [.listPreload 3 4, .ifNonzero 0, .endIf]

theorem walk_brokenWords :
    brokenWords.walk 0 =
      [(0, .unknown ⟨999⟩), (1, .instr (.clear ⟨5⟩)), (3, .truncated .loadInt 1)] :=
  Program.walk_eq_cons (by decide) <| Program.walk_eq_cons (by decide) <|
    Program.walk_eq_cons (by decide) <| Program.walk_of_size_le (by decide)

theorem brokenWords_show_execution :
    (Context.start .main 0 42 none).Heeds brokenWords {} ".word 0x000003e7".toList ∧
    (Context.start .main 1 42 none).Heeds brokenWords {} "CLEAR            r5".toList ∧
    (Context.start .main 3 42 none).Heeds brokenWords {} "LOAD_INT <truncated>".toList ∧
    ∃ a, assemble preloadedBlock = .ok a ∧ ∃ lines, readListing? a.program.listing = some lines ∧
      lines.map (fun line => (line.1, mnemonic line.2)) =
        [(0, "NOP".toList), (1, "NOP".toList), (2, "NOP".toList), (3, "IF".toList),
          (6, "ENDIF".toList)] ∧
      ∀ line ∈ lines, isWordLine line.2 = false ∧ isTruncatedLine line.2 = false := by
  obtain ⟨lines, hread, _, _, hlines⟩ := listing_shows_execution.1 brokenWords
  rw [readListing?_listing, walk_brokenWords] at hread
  obtain rfl := Option.some.inj hread
  refine ⟨hlines (0, _) (by decide) (.start .main 0 42 none) {} rfl rfl,
    hlines (1, _) (by decide) (.start .main 1 42 none) {} rfl rfl,
    hlines (3, _) (by decide) (.start .main 3 42 none) {} rfl rfl, ?_⟩
  have haccepted : assemble preloadedBlock = .ok (link preloadedBlock) :=
    assemble_eq_ok_iff.2 ⟨by decide, rfl⟩
  have hlisted : (place preloadedBlock).flatMap Placed.listed =
      [(0, "NOP".toList), (1, "NOP".toList), (2, "NOP".toList), (3, "IF".toList),
        (6, "ENDIF".toList)] := by decide
  rw [← hlisted]
  exact ⟨_, haccepted, listing_shows_execution.2 preloadedBlock _ haccepted⟩

end RegisterMachine
