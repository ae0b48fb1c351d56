import RegisterMachine.Proofs.Scanning

/-!
# Matching

The stack of open blocks that the scan keeps is the one of the block grammar, and the addresses
it records for branching members are those behind the members that close their part of a block.
An open block carries the invariant: skipping from its branching member has got as far as the
scan, with exactly the blocks above it on the stack still to be closed.
-/

namespace RegisterMachine

theorem Opcode.hasSkipTarget_iff {op : Opcode} :
    op.hasSkipTarget = true ↔ op = .ifNonzero ∨ op = .orElse := by
  have key : ∀ op ∈ all, op.hasSkipTarget = true ↔ op = .ifNonzero ∨ op = .orElse := by decide
  exact key op (mem_all op)

namespace OpenBlock

/-- The index of the branching member that the next closing member serves. -/
def branch (b : OpenBlock) : Nat := b.alternative.getD b.start.index

def member (b : OpenBlock) : Opcode := if b.alternative.isSome then .orElse else .ifNonzero

/-- The `depth` blocks opened inside a block are all that its branching member has yet to skip
before instruction `n`. -/
def Pending (p : List SymbolicInstr) (n depth : Nat) (b : OpenBlock) : Prop :=
  (∃ x, p[b.branch]? = some x ∧ x.op = b.member) ∧
    skipIndex p b.member b.branch = n + skipped b.member depth (p.drop n)

theorem closes_member_end (b : OpenBlock) : closes b.member .endIf = true := by
  unfold member
  split <;> rfl

theorem Pending.begin {p : List SymbolicInstr} {n : Nat} {x : SymbolicInstr} {b : OpenBlock}
    (hx : p[n]? = some x) (hbranch : b.branch = n) (hmember : x.op = b.member) :
    b.Pending p (n + 1) 0 := by
  refine ⟨⟨x, by rw [hbranch, hx], hmember⟩, ?_⟩
  rw [hbranch, skipIndex]

theorem drop_eq_cons {p : List SymbolicInstr} {n : Nat} {x : SymbolicInstr}
    (hx : p[n]? = some x) : p.drop n = x :: p.drop (n + 1) := by
  obtain ⟨hn, rfl⟩ := List.getElem?_eq_some_iff.1 hx
  exact List.drop_eq_getElem_cons hn

theorem Pending.pass {p : List SymbolicInstr} {n depth : Nat} {x : SymbolicInstr} {b : OpenBlock}
    (h : b.Pending p n depth) (hx : p[n]? = some x)
    (hcloses : depth = 0 → closes b.member x.op = false) :
    b.Pending p (n + 1) (depthAfter depth x.op) := by
  refine ⟨h.1, ?_⟩
  rw [h.2, drop_eq_cons hx, skipped_cons hcloses]
  omega

theorem Pending.finish {p : List SymbolicInstr} {n : Nat} {x : SymbolicInstr} {b : OpenBlock}
    (h : b.Pending p n 0) (hx : p[n]? = some x) (hcloses : closes b.member x.op = true) :
    skipIndex p b.member b.branch = n + 1 := by
  rw [h.2, drop_eq_cons hx, skipped_cons_of_closes hcloses]

end OpenBlock

/-- What a scan without faults knows of the blocks among the first `n` instructions. -/
structure BlockFacts (p : List SymbolicInstr) (n : Nat) (s : Scan) : Prop where
  opened : blockRun [] ((p.take n).map (·.op)) = some (s.opened.map (·.alternative.isSome))
  pending : ∀ k (block : OpenBlock), s.opened[k]? = some block → block.Pending p n k
  skips : ∀ i t, (i, t) ∈ s.layout.skips →
    ∃ x, p[i]? = some x ∧ t = address p (skipIndex p x.op i)
  covered : ∀ i x, i < n → p[i]? = some x → x.op.hasSkipTarget = true →
    (∃ t, (i, t) ∈ s.layout.skips) ∨ ∃ block ∈ s.opened, block.branch = i

theorem BlockFacts.start (p : List SymbolicInstr) : BlockFacts p 0 {} where
  opened := rfl
  pending := by simp
  skips := by simp
  covered := by omega

theorem BlockFacts.opened_succ {p : List SymbolicInstr} {n : Nat} {s : Scan} {x : SymbolicInstr}
    (h : BlockFacts p n s) (hx : p[n]? = some x) :
    blockRun [] ((p.take (n + 1)).map (·.op)) =
      blockStep (s.opened.map (·.alternative.isSome)) x.op := by
  obtain ⟨hn, rfl⟩ := List.getElem?_eq_some_iff.1 hx
  rw [List.take_succ_eq_append_getElem hn, List.map_append, blockRun_append, h.opened]
  simp [blockRun]

theorem BlockFacts.pass {p : List SymbolicInstr} {n : Nat} {s s' : Scan} {x : SymbolicInstr}
    (h : BlockFacts p n s) (hx : p[n]? = some x) (hcond : x.op.isConditional = false)
    (hopened : s'.opened = s.opened) (hskips : s'.layout.skips = s.layout.skips) :
    BlockFacts p (n + 1) s' := by
  have hstep := fun st => blockStep_of_not_conditional st hcond
  refine ⟨?_, ?_, ?_, ?_⟩
  · rw [h.opened_succ hx, hstep, hopened]
  · intro k block hk
    rw [hopened] at hk
    have hcloses : closes block.member x.op = false :=
      closes_eq_false (by rw [hstep]; exact Option.some_ne_none _)
    have hpass := (h.pending k block hk).pass hx fun _ => hcloses
    rwa [depthAfter_of_not_conditional k hcond] at hpass
  · intro i t hi
    rw [hskips] at hi
    exact h.skips i t hi
  · intro i y hi hy hskip
    rw [hskips, hopened]
    have hne : i ≠ n := by
      rintro rfl
      obtain rfl : x = y := Option.some.inj (hx.symm.trans hy)
      rcases Opcode.hasSkipTarget_iff.1 hskip with hop | hop <;> rw [hop] at hcond <;> cases hcond
    exact h.covered i y (by omega) hy hskip

theorem BlockFacts.opening {p : List SymbolicInstr} {n : Nat} {s : Scan} {x : SymbolicInstr}
    (h : BlockFacts p n s) (hx : p[n]? = some x) (hop : x.op = .ifNonzero) :
    BlockFacts p (n + 1) { s with opened := ⟨⟨n, address p n⟩, none⟩ :: s.opened } := by
  refine ⟨?_, ?_, h.skips, ?_⟩
  · rw [h.opened_succ hx, hop]
    rfl
  · intro k block hk
    cases k with
    | zero =>
      obtain rfl := Option.some.inj hk
      exact .begin hx rfl hop
    | succ k =>
      have hpass := (h.pending k block hk).pass hx fun _ => by
        rw [hop]
        exact closes_eq_false (by simp [blockStep])
      rwa [hop] at hpass
  · intro i y hi hy hskip
    by_cases hin : i = n
    · exact .inr ⟨_, List.mem_cons_self, hin.symm⟩
    · rcases h.covered i y (by omega) hy hskip with hdone | ⟨block, hblock, hbranch⟩
      · exact .inl hdone
      · exact .inr ⟨block, List.mem_cons_of_mem _ hblock, hbranch⟩

/-- A closing member serves the innermost block: its branching member leads behind the closing
one, and the blocks around it wait on. -/
theorem BlockFacts.skips_cons {p : List SymbolicInstr} {n : Nat} {s : Scan} {x : SymbolicInstr}
    {block : OpenBlock} {outer : List OpenBlock} (h : BlockFacts p n s) (hx : p[n]? = some x)
    (hopened : s.opened = block :: outer) (hcloses : closes block.member x.op = true) {i t : Nat}
    (hmem : (i, t) ∈ (block.branch, address p (n + 1)) :: s.layout.skips) :
    ∃ y, p[i]? = some y ∧ t = address p (skipIndex p y.op i) := by
  rcases List.mem_cons.1 hmem with heq | hmem
  · obtain ⟨rfl, rfl⟩ := Prod.mk.inj heq
    have hpending := h.pending 0 block (by rw [hopened]; rfl)
    obtain ⟨y, hy, hop⟩ := hpending.1
    exact ⟨y, hy, by rw [hop, hpending.finish hx hcloses]⟩
  · exact h.skips i t hmem

theorem BlockFacts.alternative {p : List SymbolicInstr} {n : Nat} {s : Scan} {x : SymbolicInstr}
    {start : Location} {outer : List OpenBlock} (h : BlockFacts p n s) (hx : p[n]? = some x)
    (hop : x.op = .orElse) (hopened : s.opened = ⟨start, none⟩ :: outer) :
    BlockFacts p (n + 1)
      ({ s with opened := ⟨start, some n⟩ :: outer }.setSkip start.index (address p (n + 1))) := by
  refine ⟨?_, ?_, ?_, ?_⟩
  · rw [h.opened_succ hx, hop, hopened]
    rfl
  · intro k block hk
    cases k with
    | zero =>
      obtain rfl := Option.some.inj hk
      exact .begin hx rfl hop
    | succ k =>
      have hpass := (h.pending (k + 1) block (by rw [hopened]; exact hk)).pass hx (by omega)
      rwa [hop] at hpass
  · intro i t hmem
    exact h.skips_cons hx hopened (by rw [hop]; rfl) hmem
  · intro i y hi hy hskip
    by_cases hin : i = n
    · exact .inr ⟨_, List.mem_cons_self, hin.symm⟩
    · rcases h.covered i y (by omega) hy hskip with ⟨t, ht⟩ | ⟨block, hblock, hbranch⟩
      · exact .inl ⟨t, List.mem_cons_of_mem _ ht⟩
      · rw [hopened] at hblock
        rcases List.mem_cons.1 hblock with rfl | hblock
        · obtain rfl : start.index = i := hbranch
          exact .inl ⟨_, List.mem_cons_self⟩
        · exact .inr ⟨block, List.mem_cons_of_mem _ hblock, hbranch⟩

theorem BlockFacts.ending {p : List SymbolicInstr} {n : Nat} {s : Scan} {x : SymbolicInstr}
    {block : OpenBlock} {outer : List OpenBlock} (h : BlockFacts p n s) (hx : p[n]? = some x)
    (hop : x.op = .endIf) (hopened : s.opened = block :: outer) :
    BlockFacts p (n + 1)
      ({ s with opened := outer }.setSkip block.branch (address p (n + 1))) := by
  refine ⟨?_, ?_, ?_, ?_⟩
  · rw [h.opened_succ hx, hop, hopened]
    rfl
  · intro k inner hk
    have hpass := (h.pending (k + 1) inner (by rw [hopened]; exact hk)).pass hx (by omega)
    rwa [hop] at hpass
  · intro i t hmem
    exact h.skips_cons hx hopened (by rw [hop]; exact block.closes_member_end) hmem
  · intro i y hi hy hskip
    have hne : i ≠ n := by
      rintro rfl
      obtain rfl : x = y := Option.some.inj (hx.symm.trans hy)
      rw [hop] at hskip
      cases hskip
    rcases h.covered i y (by omega) hy hskip with ⟨t, ht⟩ | ⟨inner, hinner, hbranch⟩
    · exact .inl ⟨t, List.mem_cons_of_mem _ ht⟩
    · rw [hopened] at hinner
      rcases List.mem_cons.1 hinner with rfl | hinner
      · exact .inl ⟨_, by rw [← hbranch]; exact List.mem_cons_self⟩
      · exact .inr ⟨inner, hinner, hbranch⟩

theorem blockFacts {p : List SymbolicInstr} {n : Nat} (hn : n ≤ p.length)
    (h : (scanned p n).faults = #[]) : BlockFacts p n (scanned p n) := by
  refine clean_induction (.start p) ?_ hn h
  intro n x s' hx ih htakes
  cases htakes with
  | @marker kind id instr _ _ =>
    have hcond : x.op.isConditional = false := by
      rw [show x = kind.marker id from instr]
      cases kind <;> rfl
    exact ih.pass hx hcond rfl (by cases kind <;> rfl)
  | opening op _ => exact ih.opening hx op
  | alternative op _ opened =>
    rw [placedAt_next hx]
    exact ih.alternative hx op opened
  | ending op _ opened =>
    rw [placedAt_next hx]
    exact ih.ending hx op opened
  | plain _ _ conditional => exact ih.pass hx conditional rfl rfl

/-- After a scan without faults or open blocks every branching member has its address. -/
theorem skip?_eq_some {p : List SymbolicInstr} {i : Nat} {x : SymbolicInstr}
    (hfaults : (scan (place p)).faults = #[]) (hopened : (scan (place p)).opened = [])
    (hx : p[i]? = some x) (hskip : x.op.hasSkipTarget = true) :
    (scan (place p)).layout.skip? i = some (address p (skipIndex p x.op i)) := by
  rw [← scanned_length] at hfaults hopened ⊢
  have facts := blockFacts (Nat.le_refl _) hfaults
  have hlt : i < p.length := (List.getElem?_eq_some_iff.1 hx).1
  obtain ⟨t, ht⟩ : ∃ t, (i, t) ∈ (scanned p p.length).layout.skips := by
    rcases facts.covered i x hlt hx hskip with hdone | ⟨block, hblock, _⟩
    · exact hdone
    · rw [hopened] at hblock
      cases hblock
  have hsome : ((scanned p p.length).layout.skip? i).isSome := by
    rw [Layout.skip?, Option.isSome_map, List.find?_isSome]
    exact ⟨(i, t), ht, by simp⟩
  obtain ⟨u, hu⟩ := Option.isSome_iff_exists.1 hsome
  obtain ⟨⟨j, v⟩, hfind, hv⟩ := Option.map_eq_some_iff.1 hu
  obtain rfl : v = u := hv
  obtain rfl : j = i := by simpa using List.find?_some hfind
  obtain ⟨y, hy, hskips⟩ := facts.skips j v (List.mem_of_find?_eq_some hfind)
  obtain rfl : x = y := Option.some.inj (hx.symm.trans hy)
  rw [hu, hskips]

end RegisterMachine
