import RegisterMachine.Proofs.CheckedExecution
import RegisterMachine.Proofs.DecodedListing
import RegisterMachine.Proofs.PaddedText

/-!
# Checked listings

A listing made in one loop over plain words, with tests of its own for unknown words and for
instructions that are cut off. A slice out of bounds has no result at all. The loop has a result for
every program, and it is the listing.
-/

namespace RegisterMachine

def numbered (pc : Nat) (body : String) : String :=
  Text.alignRight 5 (Text.decimal pc) ++ ": " ++ body ++ "\n"

/-- Mnemonic and operands in their columns, with blanks at the end if there are no operands. -/
def render (op : Opcode) (operands : List Word) : String :=
  operands.zipIdx.foldl
    (fun line x => line ++ " " ++ Instr.operandText op op.operandKinds[x.2]? x.1)
    (Text.alignLeft 16 op.name)

/-- The text so far and the lines from an address on. -/
def checkedListing (words : Array Word) (pc : Nat) (out : String) : Option String :=
  if _h : pc < words.size then
    words[pc]?.bind fun raw =>
      match Opcode.ofId? raw.toNat with
      | none =>
        checkedListing words (pc + 1)
          (out ++ numbered pc (".word 0x" ++ Text.hexadecimal 8 raw.toNat))
      | some op =>
        if words.size < pc + op.width then some (out ++ numbered pc (op.name ++ " <truncated>"))
        else
          (slice? words (pc + 1) (pc + op.width)).bind fun operands =>
            checkedListing words (pc + op.width)
              (out ++ numbered pc (String.ofList (Text.trimEnd (render op operands).toList)))
  else some out
termination_by words.size - pc
decreasing_by
  · omega
  · have hwidth : op.width = op.payload + 1 := rfl
    omega

theorem Text.trimEnd_append_of_printed (before : List Char) {cs : List Char} (hne : cs ≠ [])
    (hcs : ∀ c ∈ cs, isPrinted c = true) : trimEnd (before ++ cs) = before ++ cs := by
  have hlast : isBlank (cs.getLast hne) = false := by
    have hprinted := hcs _ (List.getLast_mem hne)
    simp only [isPrinted, Bool.and_eq_true, Bool.not_eq_true'] at hprinted
    exact hprinted.1
  have hsplit : (before ++ cs).reverse = cs.getLast hne :: (before ++ cs.dropLast).reverse := by
    rw [← List.reverse_concat, List.append_assoc,
      List.dropLast_concat_getLast hne]
  rw [trimEnd, hsplit, List.dropWhile_cons_of_neg (by simp [hlast]), ← hsplit, List.reverse_reverse]

namespace Instr

theorem operandValue_ne_nil (op : Opcode) (kind : Option OperandKind) (w : Word) :
    (operandValue op kind w).toList ≠ [] := by
  have hdecimal (n : Nat) : (Text.decimal n).toList ≠ [] := by
    rw [Text.decimal, String.toList_ofList]
    exact Text.digits_ne_nil n
  unfold operandValue
  split
  case h_1 =>
    split
    · exact w.compactFloatText_chars.1
    · unfold Word.text Text.signedDecimal
      split <;> simp [hdecimal]
  case h_2 => exact hdecimal _

theorem toList_foldl_operands (op : Opcode) (ws : List Word) (slot : Nat) (line : String) :
    ((ws.zipIdx slot).foldl
      (fun line x => line ++ " " ++ operandText op op.operandKinds[x.2]? x.1) line).toList =
        line.toList ++ operandColumn op slot ws := by
  induction ws generalizing slot line with
  | nil => simp [operandColumn]
  | cons w ws ih =>
    rw [List.zipIdx_cons, List.foldl_cons, ih, operandColumn_cons]
    simp

theorem operandColumn_eq_append (op : Opcode) (slot : Nat) {ws : List Word} (h : ws ≠ []) :
    ∃ before last, operandColumn op slot ws = before ++ last ∧ last ≠ [] ∧
      ∀ c ∈ last, Text.isPrinted c = true := by
  induction ws generalizing slot with
  | nil => exact absurd rfl h
  | cons w ws ih =>
    rw [operandColumn_cons, operandText_eq, String.toList_append]
    by_cases hws : ws = []
    · subst hws
      refine ⟨' ' :: (operandMark op op.operandKinds[slot]?).toList, _, ?_,
        operandValue_ne_nil op op.operandKinds[slot]? w, operandValue_chars _ _ _⟩
      simp [operandColumn]
    · obtain ⟨before, last, heq, hlast⟩ := ih (slot + 1) hws
      rw [heq]
      exact ⟨_, last, by rw [← List.append_assoc, ← List.cons_append], hlast⟩

theorem trimEnd_render (i : Instr) :
    Text.trimEnd (render i.opcode i.operands).toList = i.text.toList := by
  have hname : (Text.alignLeft 16 i.opcode.name).toList =
      i.opcode.name.toList ++ List.replicate (16 - i.opcode.name.length) ' ' := by
    simp [Text.alignLeft]
  rw [render, toList_foldl_operands, hname, toList_text, textTail, List.append_assoc]
  split
  case isTrue hnone =>
    have hblank : Text.Blank (List.replicate (16 - i.opcode.name.length) ' ') := by
      intro c hc
      rw [List.eq_of_mem_replicate hc]
      rfl
    obtain ⟨hne, hchars⟩ := i.opcode.name_chars
    rw [hnone, operandColumn, List.zipIdx_nil, List.flatMap_nil, List.append_nil,
      Text.trimEnd_append_blank hblank, List.append_nil]
    exact Text.trimEnd_append_of_printed [] hne fun c hc => (hchars c hc).1
  case isFalse hsome =>
    obtain ⟨before, last, heq, hne, hchars⟩ := operandColumn_eq_append i.opcode 0 hsome
    rw [heq, ← List.append_assoc, ← List.append_assoc]
    exact Text.trimEnd_append_of_printed _ hne hchars

end Instr

/-- The text from an address on, as it is fetched. -/
def Program.listingFrom (p : Program) (pc : Nat) : String :=
  String.join ((p.walk pc).map fun (pc, f) => listingLine pc f)

theorem Program.listingFrom_of_fetch? {p : Program} {pc : Nat} {f : Fetched}
    (h : p.fetch? pc = some f) :
    p.listingFrom pc = numbered pc f.text ++ p.listingFrom (pc + f.width) := by
  rw [listingFrom, walk_of_fetch? h, List.map_cons, String.join_cons]
  rfl

theorem checkedListing_eq (p : Program) (pc : Nat) (out : String) :
    checkedListing p.words pc out = some (out ++ p.listingFrom pc) := by
  induction pc, out using checkedListing.induct p.words with
  | case1 pc out hpc unknown complete =>
    have hword : p.words[pc]? = some p.words[pc] := Array.getElem?_eq_getElem hpc
    rw [checkedListing, dif_pos hpc, hword, Option.bind_some]
    split
    case h_1 hop =>
      have hfetch : p.fetch? pc = some (.unknown p.words[pc]) := by
        simp only [Program.fetch?, hword, Option.map_some, hop]
      rw [unknown, p.listingFrom_of_fetch? hfetch, String.append_assoc]
      rfl
    case h_2 op hop =>
      split
      case isTrue hshort =>
        have hfetch := Program.fetch?_of_truncated hword hop (by omega)
        have hend : p.listingFrom (pc + (p.words.size - pc)) = "" := by
          rw [Program.listingFrom, Program.walk_of_size_le (by simp only [Program.size]; omega)]
          rfl
        rw [p.listingFrom_of_fetch? hfetch, Fetched.width, hend, String.append_empty]
        rfl
      case isFalse hfits =>
        obtain ⟨i, hfetch, rfl, hslice⟩ := Program.fetch?_of_complete hword hop (by omega)
        rw [hslice, Option.bind_some, complete _ hfits, p.listingFrom_of_fetch? hfetch,
          i.trimEnd_render, String.ofList_toList, String.append_assoc]
        rfl
  | case2 pc out hpc =>
    rw [checkedListing, dif_neg hpc, Program.listingFrom,
      Program.walk_of_size_le (Nat.le_of_not_lt hpc)]
    exact congrArg some (String.append_empty).symm

/-- The loop over the words makes the listing. -/
theorem checkedListing_eq_listing (p : Program) : checkedListing p.words 0 "" = some p.listing := by
  rw [checkedListing_eq]
  rfl

end RegisterMachine
