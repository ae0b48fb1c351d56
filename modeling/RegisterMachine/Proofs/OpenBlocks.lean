import RegisterMachine.Proofs.Scanning

/-!
# Open blocks

Which conditional blocks of a program are open before an instruction, said by counting: the starts
and ends of blocks between the start of a block and the instruction decide whether that block is
still open. This makes sense of any sequence of instructions, with members that pair with nothing
among them, and it is what a stack of starts keeps track of.
-/

namespace RegisterMachine

/-- Whether an instruction is one of the opcode and has the operands it needs. -/
def SymbolicInstr.countsAs (x : SymbolicInstr) (op : Opcode) : Bool := x.hasArity && x.op == op

/-- How many instructions from index `i` up to index `j` count as an opcode. -/
def tally (p : List SymbolicInstr) (op : Opcode) (i j : Nat) : Nat :=
  ((p.take j).drop i).countP (·.countsAs op)

/-- The block that starts at index `j` is open before index `n`: up to there, never have more
blocks ended than started inside it. -/
def OpenAt (p : List SymbolicInstr) (j n : Nat) : Prop :=
  j < n ∧ (∃ reg, p[j]? = some (.ifNonzero reg)) ∧
    ∀ m, j < m → m ≤ n → tally p .endIf (j + 1) m ≤ tally p .ifNonzero (j + 1) m

/-- The block that starts at index `j` is the last of those open before index `n`. -/
def Innermost (p : List SymbolicInstr) (j n : Nat) : Prop :=
  OpenAt p j n ∧ ∀ k, OpenAt p k n → k ≤ j

theorem tally_self (p : List SymbolicInstr) (op : Opcode) (i : Nat) : tally p op i i = 0 := by
  have hnil : (p.take i).drop i = [] := List.drop_eq_nil_of_le (List.length_take_le i p)
  rw [tally, hnil, List.countP_nil]

theorem tally_succ {p : List SymbolicInstr} {n i : Nat} {x : SymbolicInstr} (hx : p[n]? = some x)
    (hi : i ≤ n) (op : Opcode) :
    tally p op i (n + 1) = tally p op i n + if x.countsAs op then 1 else 0 := by
  obtain ⟨hn, rfl⟩ := List.getElem?_eq_some_iff.1 hx
  have hlen : i ≤ (p.take n).length := by
    rw [List.length_take]
    omega
  rw [tally, List.take_succ_eq_append_getElem hn, List.drop_append_of_le_length hlen,
    List.countP_append, List.countP_singleton, tally]

theorem openAt_succ {p : List SymbolicInstr} {n : Nat} {x : SymbolicInstr} (hx : p[n]? = some x)
    (j : Nat) :
    OpenAt p j (n + 1) ↔
      (j = n ∧ ∃ reg, x = .ifNonzero reg) ∨
        (OpenAt p j n ∧ tally p .endIf (j + 1) (n + 1) ≤ tally p .ifNonzero (j + 1) (n + 1)) := by
  constructor
  · rintro ⟨hlt, ⟨reg, hj⟩, hall⟩
    by_cases hjn : j = n
    · subst hjn
      exact .inl ⟨rfl, reg, Option.some.inj (hx.symm.trans hj)⟩
    · exact .inr ⟨⟨by omega, ⟨reg, hj⟩, fun m hm hmn => hall m hm (by omega)⟩,
        hall (n + 1) (by omega) (by omega)⟩
  · rintro (⟨rfl, reg, rfl⟩ | ⟨⟨hlt, hif, hall⟩, hlast⟩)
    · refine ⟨by omega, ⟨reg, hx⟩, ?_⟩
      intro m hm hmn
      obtain rfl : m = j + 1 := by omega
      rw [tally_self]
      exact Nat.zero_le _
    · refine ⟨by omega, hif, ?_⟩
      intro m hm hmn
      by_cases hlt' : m ≤ n
      · exact hall m hm hlt'
      · obtain rfl : m = n + 1 := by omega
        exact hlast

/-! ### The stack of open blocks -/

/-- The starts of the blocks open before index `n`, innermost first. Of the blocks started after
the `k`-th of them, all but `k` have ended. -/
structure OpenStack (p : List SymbolicInstr) (n : Nat) (starts : List Nat) : Prop where
  excess : ∀ k j, starts[k]? = some j →
    tally p .ifNonzero (j + 1) n = tally p .endIf (j + 1) n + k
  mem_iff : ∀ j, j ∈ starts ↔ OpenAt p j n
  ordered : starts.Pairwise (· > ·)

namespace OpenStack

variable {p : List SymbolicInstr} {n : Nat} {starts : List Nat}

theorem start (p : List SymbolicInstr) : OpenStack p 0 [] where
  excess := by simp
  mem_iff := by simp [OpenAt]
  ordered := .nil

theorem innermost_iff (h : OpenStack p n starts) (j : Nat) :
    Innermost p j n ↔ starts.head? = some j := by
  cases starts with
  | nil => simp [Innermost, ← h.mem_iff]
  | cons i outer =>
    have houter : ∀ k ∈ outer, k < i := (List.pairwise_cons.1 h.ordered).1
    simp only [Innermost, ← h.mem_iff, List.mem_cons, List.head?_cons, Option.some.injEq]
    constructor
    · rintro ⟨rfl | hmem, hlast⟩
      · rfl
      · have hle := hlast i (.inl rfl)
        have hlt := houter j hmem
        omega
    · rintro rfl
      refine ⟨.inl rfl, ?_⟩
      rintro k (rfl | hmem)
      · exact Nat.le_refl k
      · exact Nat.le_of_lt (houter k hmem)

theorem lt_of_mem (h : OpenStack p n starts) {j : Nat} (hmem : j ∈ starts) : j < n :=
  ((h.mem_iff j).1 hmem).1

theorem pass (h : OpenStack p n starts) {x : SymbolicInstr} (hx : p[n]? = some x)
    (hif : x.countsAs .ifNonzero = false) (hend : x.countsAs .endIf = false) :
    OpenStack p (n + 1) starts := by
  have hsame {j : Nat} (hj : j < n) (op : Opcode) (hop : x.countsAs op = false) :
      tally p op (j + 1) (n + 1) = tally p op (j + 1) n := by
    rw [tally_succ hx (by omega), hop]
    rfl
  refine ⟨?_, ?_, h.ordered⟩
  · intro k j hk
    have hj := h.lt_of_mem (List.mem_of_getElem? hk)
    rw [hsame hj _ hif, hsame hj _ hend]
    exact h.excess k j hk
  · intro j
    rw [openAt_succ hx, h.mem_iff]
    constructor
    · intro hopen
      refine .inr ⟨hopen, ?_⟩
      rw [hsame hopen.1 _ hif, hsame hopen.1 _ hend]
      exact hopen.2.2 n hopen.1 (Nat.le_refl n)
    · rintro (⟨_, reg, rfl⟩ | ⟨hopen, _⟩)
      · cases hif
      · exact hopen

theorem push (h : OpenStack p n starts) {reg : UInt32} (hx : p[n]? = some (.ifNonzero reg)) :
    OpenStack p (n + 1) (n :: starts) := by
  have hif {j : Nat} (hj : j < n) :
      tally p .ifNonzero (j + 1) (n + 1) = tally p .ifNonzero (j + 1) n + 1 := tally_succ hx hj _
  have hend {j : Nat} (hj : j < n) :
      tally p .endIf (j + 1) (n + 1) = tally p .endIf (j + 1) n := tally_succ hx hj _
  refine ⟨?_, ?_, ?_⟩
  · intro k j hk
    cases k with
    | zero =>
      obtain rfl : n = j := Option.some.inj hk
      rw [tally_self, tally_self]
    | succ k =>
      have hj := h.lt_of_mem (List.mem_of_getElem? hk)
      have hexcess := h.excess k j hk
      rw [hif hj, hend hj]
      omega
  · intro j
    rw [openAt_succ hx, List.mem_cons, h.mem_iff]
    constructor
    · rintro (rfl | hopen)
      · exact .inl ⟨rfl, reg, rfl⟩
      · refine .inr ⟨hopen, ?_⟩
        have hle := hopen.2.2 n hopen.1 (Nat.le_refl n)
        rw [hif hopen.1, hend hopen.1]
        omega
    · rintro (⟨rfl, _⟩ | ⟨hopen, _⟩)
      · exact .inl rfl
      · exact .inr hopen
  · exact List.pairwise_cons.2 ⟨fun j hj => h.lt_of_mem hj, h.ordered⟩

/-- The end of a block closes the innermost one that is open, if there is one. -/
theorem pop (h : OpenStack p n starts) (hx : p[n]? = some .endIf) :
    OpenStack p (n + 1) starts.tail := by
  have hif {j : Nat} (hj : j < n) :
      tally p .ifNonzero (j + 1) (n + 1) = tally p .ifNonzero (j + 1) n := tally_succ hx hj _
  have hend {j : Nat} (hj : j < n) :
      tally p .endIf (j + 1) (n + 1) = tally p .endIf (j + 1) n + 1 := tally_succ hx hj _
  refine ⟨?_, ?_, h.ordered.tail⟩
  · intro k j hk
    rw [List.getElem?_tail] at hk
    have hj := h.lt_of_mem (List.mem_of_getElem? hk)
    have hexcess := h.excess (k + 1) j hk
    rw [hif hj, hend hj]
    omega
  · intro j
    -- a block stays open exactly when it is not the first of the stack
    rw [openAt_succ hx]
    constructor
    · intro hmem
      obtain ⟨k, hk⟩ := List.mem_iff_getElem?.1 hmem
      rw [List.getElem?_tail] at hk
      have hopen := (h.mem_iff j).1 (List.mem_of_getElem? hk)
      have hexcess := h.excess (k + 1) j hk
      refine .inr ⟨hopen, ?_⟩
      rw [hif hopen.1, hend hopen.1]
      omega
    · rintro (⟨_, reg, hreg⟩ | ⟨hopen, hlast⟩)
      · cases hreg
      · rw [hif hopen.1, hend hopen.1] at hlast
        obtain ⟨k, hk⟩ := List.mem_iff_getElem?.1 ((h.mem_iff j).2 hopen)
        have hexcess := h.excess k j hk
        obtain ⟨k, rfl⟩ : ∃ k', k = k' + 1 := ⟨k - 1, by omega⟩
        rw [← List.getElem?_tail] at hk
        exact List.mem_of_getElem? hk

end OpenStack

/-! ### The stack of a scan -/

/-- What any scan knows of the blocks among the first `n` instructions. -/
structure BlocksKnown (p : List SymbolicInstr) (n : Nat) (opened : List OpenBlock) : Prop where
  stack : OpenStack p n (opened.map (·.start.index))
  located : ∀ block ∈ opened, block.start.pc = address p block.start.index
  alternative : ∀ block ∈ opened, block.alternative.isSome = true ↔
    ∃ k < n, p[k]? = some .orElse ∧ Innermost p block.start.index k

namespace BlocksKnown

variable {p : List SymbolicInstr} {n : Nat} {opened opened' : List OpenBlock}

theorem start (p : List SymbolicInstr) : BlocksKnown p 0 [] :=
  ⟨.start p, by simp, by simp⟩

/-- Nothing but an alternative of its own tells whether a block has one. -/
theorem alternative_succ (h : BlocksKnown p n opened) {block : OpenBlock} (hmem : block ∈ opened)
    (hno : p[n]? = some .orElse → ¬ Innermost p block.start.index n) :
    block.alternative.isSome = true ↔
      ∃ k < n + 1, p[k]? = some .orElse ∧ Innermost p block.start.index k := by
  rw [h.alternative block hmem, Nat.exists_lt_succ_right]
  constructor
  · exact .inl
  · rintro (hbefore | ⟨helse, hinnermost⟩)
    · exact hbefore
    · exact absurd hinnermost (hno helse)

theorem stay (h : BlocksKnown p n opened) (hno : p[n]? ≠ some .orElse)
    (hsub : ∀ block ∈ opened', block ∈ opened)
    (hstack : OpenStack p (n + 1) (opened'.map (·.start.index))) :
    BlocksKnown p (n + 1) opened' where
  stack := hstack
  located block hmem := h.located block (hsub block hmem)
  alternative _ hmem := h.alternative_succ (hsub _ hmem) (absurd · hno)

theorem pass (h : BlocksKnown p n opened) {x : SymbolicInstr} (hx : p[n]? = some x)
    (hplain : ∀ op : Opcode, op.isConditional = true → x.countsAs op = false) :
    BlocksKnown p (n + 1) opened := by
  refine h.stay ?_ (fun _ hmem => hmem) (h.stack.pass hx (hplain _ rfl) (hplain _ rfl))
  intro helse
  obtain rfl : x = .orElse := Option.some.inj (hx.symm.trans helse)
  cases hplain .orElse rfl

theorem push (h : BlocksKnown p n opened) {reg : UInt32} (hx : p[n]? = some (.ifNonzero reg)) :
    BlocksKnown p (n + 1) (⟨⟨n, address p n⟩, none⟩ :: opened) := by
  have hno : p[n]? ≠ some .orElse := by
    rw [hx]
    exact fun heq => by cases heq
  refine ⟨h.stack.push hx, ?_, ?_⟩
  · rintro block (_ | ⟨_, hmem⟩)
    · rfl
    · exact h.located block hmem
  · rintro block (_ | ⟨_, hmem⟩)
    · -- the new block is open nowhere before
      constructor
      · intro hsome
        cases hsome
      · rintro ⟨k, hk, _, ⟨hlt, _⟩, _⟩
        have hnk : n < k := hlt
        omega
    · exact h.alternative_succ hmem (absurd · hno)

theorem pop (h : BlocksKnown p n opened) (hx : p[n]? = some .endIf) :
    BlocksKnown p (n + 1) opened.tail := by
  refine h.stay ?_ (fun _ => List.mem_of_mem_tail) ?_
  · rw [hx]
    exact fun heq => by cases heq
  · rw [List.map_tail]
    exact h.stack.pop hx

/-- An alternative belongs to the innermost open block, whether or not that has one already. -/
theorem alternate {block block' : OpenBlock} {outer : List OpenBlock}
    (h : BlocksKnown p n (block :: outer)) (hx : p[n]? = some .orElse)
    (hstart : block'.start = block.start) (halternative : block'.alternative.isSome = true) :
    BlocksKnown p (n + 1) (block' :: outer) := by
  have hinnermost : ∀ j, Innermost p j n ↔ block.start.index = j := by
    intro j
    rw [h.stack.innermost_iff j]
    simp
  have hstack := h.stack.pass hx rfl rfl
  rw [List.map_cons, ← hstart] at hstack
  refine ⟨hstack, ?_, ?_⟩
  · rintro other (_ | ⟨_, hmem⟩)
    · rw [hstart]
      exact h.located block List.mem_cons_self
    · exact h.located other (List.mem_cons_of_mem _ hmem)
  · rintro other (_ | ⟨_, hmem⟩)
    · have hhere : Innermost p block'.start.index n := (hinnermost _).2 (by rw [hstart])
      exact iff_of_true halternative ⟨n, by omega, hx, hhere⟩
    · have hlt : block.start.index > other.start.index :=
        (List.pairwise_cons.1 h.stack.ordered).1 _ (List.mem_map_of_mem hmem)
      refine h.alternative_succ (List.mem_cons_of_mem _ hmem) fun _ hhere => ?_
      have heq := (hinnermost _).1 hhere
      omega

theorem closed_iff (h : BlocksKnown p n opened) : opened = [] ↔ ∀ j, ¬ OpenAt p j n := by
  simp [← h.stack.mem_iff, ← List.eq_nil_iff_forall_not_mem]

end BlocksKnown

theorem SymbolicInstr.countsAs_of_not_conditional {x : SymbolicInstr}
    (h : x.op.isConditional = false) {op : Opcode} (hop : op.isConditional = true) :
    x.countsAs op = false := by
  rw [countsAs, Bool.and_eq_false_iff]
  right
  apply beq_eq_false_iff_ne.2
  rintro rfl
  rw [h] at hop
  cases hop

theorem SymbolKind.not_conditional_marker (kind : SymbolKind) (id : UInt32) :
    (kind.marker id).op.isConditional = false := by
  cases kind <;> rfl

theorem SymbolicInstr.eq_ifNonzero {x : SymbolicInstr} (h : x.hasArity = true)
    (hop : x.op = .ifNonzero) : ∃ reg, x = .ifNonzero reg := by
  obtain ⟨op, operands⟩ := x
  have hlen := Scan.length_operands_of_hasArity h hop
  obtain rfl : op = .ifNonzero := hop
  match operands, hlen with
  | [reg], _ => exact ⟨reg.bits, rfl⟩

theorem blocksKnown {p : List SymbolicInstr} {n : Nat} (hn : n ≤ p.length) :
    BlocksKnown p n (scanned p n).opened := by
  refine visited_induction (motive := fun n s => BlocksKnown p n s.opened) (.start p) ?_ ?_ hn
  · intro n x s' hx ih htakes
    cases htakes with
    | @marker kind id instr _ _ =>
      obtain rfl : x = kind.marker id := instr
      exact ih.pass hx fun _ =>
        SymbolicInstr.countsAs_of_not_conditional (kind.not_conditional_marker id)
    | opening op arity =>
      obtain ⟨reg, rfl⟩ := SymbolicInstr.eq_ifNonzero arity op
      exact ih.push hx
    | alternative op arity opened =>
      obtain rfl : x = .orElse := Scan.eq_of_no_operands arity op rfl
      rw [opened] at ih
      exact ih.alternate hx rfl rfl
    | ending op arity opened =>
      obtain rfl : x = .endIf := Scan.eq_of_no_operands arity op rfl
      rw [opened] at ih
      exact ih.pop hx
    | plain _ _ conditional =>
      exact ih.pass hx fun _ => SymbolicInstr.countsAs_of_not_conditional conditional
  · intro n x cause hx ih hobjects
    change BlocksKnown p (n + 1) (scanned p n).opened
    cases hobjects with
    | arity arity =>
      have hbad : x.hasArity = false := arity
      exact ih.pass hx fun _ _ => by rw [SymbolicInstr.countsAs, hbad, Bool.false_and]
    | @range id instr _ =>
      obtain rfl : x = .function id := instr
      exact ih.pass hx fun _ => SymbolicInstr.countsAs_of_not_conditional rfl
    | @duplicate kind id _ instr _ _ =>
      obtain rfl : x = kind.marker id := instr
      exact ih.pass hx fun _ =>
        SymbolicInstr.countsAs_of_not_conditional (kind.not_conditional_marker id)
    | strayElse instr opened =>
      obtain rfl : x = .orElse := instr
      rw [opened] at ih ⊢
      exact ⟨ih.stack.pass hx rfl rfl, by simp, by simp⟩
    | secondElse instr opened alternative =>
      obtain rfl : x = .orElse := instr
      rw [opened] at ih ⊢
      exact ih.alternate hx rfl alternative
    | strayEnd instr opened =>
      obtain rfl : x = .endIf := instr
      rw [opened] at ih ⊢
      exact ih.pop hx

end RegisterMachine
