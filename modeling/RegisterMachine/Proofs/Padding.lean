import RegisterMachine.Preload.Resolve
import RegisterMachine.Proofs.Encoding
import RegisterMachine.Proofs.SymbolicContext

/-!
# Padding

No-ops inserted anywhere into a program change neither whether it assembles nor which symbols and
preloads it has. What follows a marker, or the member that ends a skip, in the padded program is
the padded form of what follows it in the program: a branch leads to corresponding places.
-/

namespace RegisterMachine

theorem SymbolKind.marker_ne_nop (kind : SymbolKind) (id : UInt32) : kind.marker id ≠ .nop := by
  intro h
  have hop := congrArg SymbolicInstr.op h
  cases kind <;> cases hop

theorem SymbolicInstr.Names.ne_nop {x : SymbolicInstr} {kind : SymbolKind} {id : UInt32}
    (h : x.Names kind id) : x ≠ .nop := by
  intro hnop
  have hop := congrArg SymbolicInstr.op hnop
  cases h <;> cases hop

/-- The second program is the first with no-ops inserted. -/
inductive Padded : List SymbolicInstr → List SymbolicInstr → Prop
  | nil : Padded [] []
  | keep (x : SymbolicInstr) {p p' : List SymbolicInstr} : Padded p p' → Padded (x :: p) (x :: p')
  | insert {p p' : List SymbolicInstr} : Padded p p' → Padded p (.nop :: p')

namespace Padded

variable {p p' : List SymbolicInstr} {x : SymbolicInstr}

theorem mem_iff (h : Padded p p') (hx : x ≠ .nop) : x ∈ p' ↔ x ∈ p := by
  induction h with
  | nil => rfl
  | keep y _ ih => rw [List.mem_cons, List.mem_cons, ih]
  | insert _ ih => rw [List.mem_cons, ih, or_iff_right hx]

theorem encodedWidth_le (h : Padded p p') : encodedWidth p ≤ encodedWidth p' := by
  induction h with
  | nil => exact Nat.le_refl _
  | keep y _ ih =>
    rw [encodedWidth_cons, encodedWidth_cons]
    omega
  | insert _ ih =>
    rw [encodedWidth_cons]
    omega

theorem conditionals_eq (h : Padded p p') : conditionals p' = conditionals p := by
  induction h with
  | nil => rfl
  | keep y _ ih =>
    cases hy : y.op.isConditional with
    | true => rw [conditionals_cons_of_pos hy, conditionals_cons_of_pos hy, ih]
    | false => rw [conditionals_cons_of_neg hy, conditionals_cons_of_neg hy, ih]
  | insert _ ih => rw [conditionals_cons_of_neg (by decide), ih]

theorem index_unique (h : Padded p p') (hx : x ≠ .nop)
    (hp : ∀ i j : Nat, p[i]? = some x → p[j]? = some x → i = j) :
    ∀ i j : Nat, p'[i]? = some x → p'[j]? = some x → i = j := by
  induction h with
  | nil => exact hp
  | @keep y p p' h ih =>
    have htail : ∀ i j : Nat, p[i]? = some x → p[j]? = some x → i = j := by
      intro i j hi hj
      have heq := hp (i + 1) (j + 1) hi hj
      omega
    have hlater : ∀ j : Nat, some y = some x → p'[j]? ≠ some x := by
      intro j hy hj
      have hmem : x ∈ p := (h.mem_iff hx).1 (List.mem_of_getElem? hj)
      obtain ⟨k, hk⟩ := List.mem_iff_getElem?.1 hmem
      exact absurd (hp 0 (k + 1) hy hk) (by omega)
    intro i j hi hj
    cases i with
    | zero =>
      cases j with
      | zero => rfl
      | succ j => exact absurd hj (hlater j hi)
    | succ i =>
      cases j with
      | zero => exact absurd hi (hlater i hj)
      | succ j => rw [ih htail i j hi hj]
  | insert _ ih =>
    intro i j hi hj
    cases i with
    | zero => exact absurd (Option.some.inj hi).symm hx
    | succ i =>
      cases j with
      | zero => exact absurd (Option.some.inj hj).symm hx
      | succ j => rw [ih hp i j hi hj]

/-! ### Acceptance -/

theorem marked (h : Padded p p') (hp : WellFormed p) {kind : SymbolKind} {id : UInt32}
    (hnames : x.Names kind id) (hx : x ∈ p') : kind.marker id ∈ p' := by
  rw [h.mem_iff (kind.marker_ne_nop id)]
  exact hp.marked ((h.mem_iff hnames.ne_nop).1 hx) hnames

theorem wellFormed (h : Padded p p') (hp : WellFormed p) : WellFormed p' where
  arity := by
    intro x hx
    by_cases hnop : x = .nop
    · rw [hnop]
      rfl
    · exact hp.arity x ((h.mem_iff hnop).1 hx)
  labels i j id :=
    h.index_unique (SymbolKind.label.marker_ne_nop id) (fun i j => hp.labels i j id) i j
  functions i j id :=
    h.index_unique (SymbolKind.function.marker_ne_nop id) (fun i j => hp.functions i j id) i j
  functionIds id hmem :=
    hp.functionIds id ((h.mem_iff (SymbolKind.function.marker_ne_nop id)).1 hmem)
  blocks := by
    rw [h.conditionals_eq]
    exact hp.blocks
  jumps id := h.marked hp (.jump id)
  jumpsIfZero reg id := h.marked hp (.jumpIfZero reg id)
  jumpsIfNotZero reg id := h.marked hp (.jumpIfNotZero reg id)
  calls id := h.marked hp (.call id)

theorem check_eq_nil (h : Padded p p') (hp : check p = []) : check p' = [] :=
  (h.wellFormed (wellFormed_of_check hp)).check_eq_nil

/-! ### Corresponding places -/

theorem idxOf_cons_of_ne {y : SymbolicInstr} (h : y ≠ x) (p : List SymbolicInstr) :
    (y :: p).idxOf x = p.idxOf x + 1 := by
  rw [List.idxOf_cons, beq_eq_false_iff_ne.2 h, cond_false]

theorem drop_idxOf (h : Padded p p') (hx : x ≠ .nop) (hmem : x ∈ p) :
    Padded (p.drop (p.idxOf x + 1)) (p'.drop (p'.idxOf x + 1)) := by
  induction h with
  | nil => cases hmem
  | @keep y p p' h ih =>
    by_cases hyx : y = x
    · subst hyx
      rw [List.idxOf_cons_self, List.idxOf_cons_self]
      exact h
    · rw [idxOf_cons_of_ne hyx, idxOf_cons_of_ne hyx]
      exact ih ((List.mem_cons.1 hmem).resolve_left (Ne.symm hyx))
  | insert _ ih =>
    rw [idxOf_cons_of_ne (Ne.symm hx)]
    exact ih hmem

theorem skipped_nop (op : Opcode) (depth : Nat) (rest : List SymbolicInstr) :
    skipped op depth (.nop :: rest) = skipped op depth rest + 1 :=
  skipped_cons (fun _ => by cases op <;> rfl) rest

theorem drop_skipped (h : Padded p p') (op : Opcode) (depth : Nat) :
    Padded (p.drop (skipped op depth p)) (p'.drop (skipped op depth p')) := by
  induction h generalizing depth with
  | nil => exact .nil
  | @keep y p p' h ih =>
    unfold skipped
    split
    case isTrue => exact h
    case isFalse => exact ih _
  | insert _ ih =>
    rw [skipped_nop]
    exact ih depth

end Padded

/-- From two indices on, the second program is the first with no-ops inserted. -/
def Beyond (p p' : List SymbolicInstr) (i j : Nat) : Prop := Padded (p.drop i) (p'.drop j)

/-- At two indices, the programs have the same instruction and correspond after it. -/
structure Facing (p p' : List SymbolicInstr) (i j : Nat) (x : SymbolicInstr) : Prop where
  left : p[i]? = some x
  right : p'[j]? = some x
  next : Beyond p p' (i + 1) (j + 1)

section Places

variable {p p' : List SymbolicInstr} {i j : Nat} {x : SymbolicInstr}

theorem getElem?_of_drop_eq_cons {rest : List SymbolicInstr} (h : p.drop i = x :: rest) :
    p[i]? = some x ∧ p.drop (i + 1) = rest := by
  constructor
  · rw [← List.head?_drop, h]
    rfl
  · rw [← List.drop_drop, h]
    rfl

/-- Corresponding places are both at the end, or at the same instruction, or the padded program
has a no-op to execute first. -/
theorem Beyond.split (h : Beyond p p' i j) :
    (p[i]? = none ∧ p'[j]? = none) ∨ (∃ x, Facing p p' i j x) ∨
      (p'[j]? = some .nop ∧ Beyond p p' i (j + 1)) := by
  unfold Beyond at h
  generalize hp : p.drop i = r at h
  generalize hp' : p'.drop j = r' at h
  cases h with
  | nil =>
    rw [List.drop_eq_nil_iff] at hp hp'
    exact .inl ⟨List.getElem?_eq_none hp, List.getElem?_eq_none hp'⟩
  | keep x h =>
    obtain ⟨hx, hrest⟩ := getElem?_of_drop_eq_cons hp
    obtain ⟨hx', hrest'⟩ := getElem?_of_drop_eq_cons hp'
    refine .inr (.inl ⟨x, hx, hx', ?_⟩)
    rwa [Beyond, hrest, hrest']
  | insert h =>
    obtain ⟨hx', hrest'⟩ := getElem?_of_drop_eq_cons hp'
    refine .inr (.inr ⟨hx', ?_⟩)
    rwa [Beyond, hp, hrest']

theorem Beyond.skipIndex (h : Beyond p p' (i + 1) (j + 1)) (op : Opcode) :
    Beyond p p' (skipIndex p op i) (skipIndex p' op j) := by
  have hskipped := Padded.drop_skipped h op 0
  rwa [List.drop_drop, List.drop_drop] at hskipped

theorem Padded.beyond_marker (h : Padded p p') {kind : SymbolKind} {id : UInt32}
    (hmem : kind.marker id ∈ p) :
    Beyond p p' (p.idxOf (kind.marker id) + 1) (p'.idxOf (kind.marker id) + 1) :=
  h.drop_idxOf (kind.marker_ne_nop id) hmem

end Places

/-- The view of an instruction without a skip target is the instruction. -/
theorem SymbolicInstr.eq_of_view? {x : SymbolicInstr} {i : Instr} (h : x.view? = some i)
    (hskip : i.opcode.hasSkipTarget = false) : x = ⟨i.opcode, i.operands⟩ := by
  have hop : i.opcode = x.op := Instr.opcode_of_decode? h
  have hoperands := Instr.operands_of_decode? h
  rw [← hop, hskip] at hoperands
  rw [hop, hoperands]
  rfl

theorem Facing.branchIndex {p p' : List SymbolicInstr} {i j : Nat} {x : SymbolicInstr}
    (h : Facing p p' i j x) (hpad : Padded p p') (hp : WellFormed p) {instr : Instr}
    (hview : x.view? = some instr) :
    Beyond p p' (branchIndex p i instr) (branchIndex p' j instr) := by
  have hmem := List.mem_of_getElem? h.left
  have hsymbol {kind : SymbolKind} {id : UInt32} (hnames : x.Names kind id) :
      Beyond p p' (p.idxOf (kind.marker id) + 1) (p'.idxOf (kind.marker id) + 1) :=
    hpad.beyond_marker (hp.marked hmem hnames)
  cases instr with
  | jump id =>
    obtain rfl := SymbolicInstr.eq_of_view? hview rfl
    exact hsymbol (.jump id.bits)
  | jumpIfZero test id =>
    obtain rfl := SymbolicInstr.eq_of_view? hview rfl
    exact hsymbol (.jumpIfZero test.bits id.bits)
  | jumpIfNotZero test id =>
    obtain rfl := SymbolicInstr.eq_of_view? hview rfl
    exact hsymbol (.jumpIfNotZero test.bits id.bits)
  | call id =>
    obtain rfl := SymbolicInstr.eq_of_view? hview rfl
    exact hsymbol (.call id.bits)
  | ifNonzero test skip => exact h.next.skipIndex .ifNonzero
  | orElse skip => exact h.next.skipIndex .orElse
  | _ => exact h.next

/-- Where the context of a function starts. -/
def functionEntry (p : List SymbolicInstr) (id : UInt32) : Nat :=
  address p (p.idxOf (SymbolicInstr.function id) + 1)

theorem find?_functions {p : List SymbolicInstr} (h : check p = []) {id : UInt32} {pc : Nat} :
    (link p).program.functions.find? id = some pc ↔
      .function id ∈ p ∧ pc = functionEntry p id := by
  have hlinked := linked_of_check h
  constructor
  · intro hfind
    obtain ⟨hfaults, _, _⟩ := check_eq_nil_iff.1 h
    rw [← scanned_length] at hfaults
    have symbols := symbolFacts (Nat.le_refl _) hfaults
    rw [scanned_length] at symbols
    obtain ⟨i, _, hi, _⟩ := (symbols.target .function id pc).1 hfind
    have hmem : .function id ∈ p := List.mem_of_getElem? hi
    have htarget := hlinked.target .function id hmem
    exact ⟨hmem, Option.some.inj (hfind.symm.trans htarget)⟩
  · rintro ⟨hmem, rfl⟩
    exact hlinked.target .function id hmem

theorem entries_functions {p : List SymbolicInstr} (h : check p = []) :
    (link p).program.functions.entries =
      (link p).program.functions.keys.map fun id => (id, functionEntry p id) := by
  rw [Table.keys, List.map_map]
  refine (List.map_id _).symm.trans (List.map_congr_left ?_)
  rintro ⟨k, pc⟩ hmem
  obtain ⟨_, rfl⟩ := (find?_functions h).1 (Table.find?_eq_some_iff.2 hmem)
  rfl

theorem mem_keys_functions {p : List SymbolicInstr} (h : check p = []) {id : UInt32} :
    id ∈ (link p).program.functions.keys ↔ .function id ∈ p := by
  rw [Table.mem_keys_iff]
  constructor
  · rintro ⟨pc, hfind⟩
    exact ((find?_functions h).1 hfind).1
  · intro hmem
    exact ⟨_, (find?_functions h).2 ⟨hmem, rfl⟩⟩

namespace Padded

variable {p p' : List SymbolicInstr}

theorem keys_functions (h : Padded p p') (hcheck : check p = []) :
    (link p').program.functions.keys = (link p).program.functions.keys := by
  refine Table.eq_of_sorted (Table.keys_sorted _) (Table.keys_sorted _) fun id => ?_
  rw [mem_keys_functions hcheck, mem_keys_functions (h.check_eq_nil hcheck)]
  exact h.mem_iff (SymbolKind.function.marker_ne_nop id)

def request (b : PreloadBinding) : UInt32 × UInt32 := (b.list, b.key)

end Padded

end RegisterMachine
