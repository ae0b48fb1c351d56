import RegisterMachine.Proofs.Matching

/-!
# Acceptance

Assembly accepts exactly the well-formed programs: those in which every instruction has the
operands it needs, no symbol is marked twice, conditional blocks nest and every branch names a
marker that exists.
-/

namespace RegisterMachine

/-- What a program must be like to assemble. -/
structure WellFormed (p : List SymbolicInstr) : Prop where
  arity : ∀ x ∈ p, x.operands.length = x.op.arity
  labels : ∀ (i j : Nat) id, p[i]? = some (SymbolicInstr.label id) →
    p[j]? = some (SymbolicInstr.label id) → i = j
  functions : ∀ (i j : Nat) id, p[i]? = some (SymbolicInstr.function id) →
    p[j]? = some (SymbolicInstr.function id) → i = j
  functionIds : ∀ id, .function id ∈ p → id.toNat ≤ 511
  blocks : BlockWord (conditionals p)
  jumps : ∀ id, .jump id ∈ p → .label id ∈ p
  jumpsIfZero : ∀ reg id, .jumpIfZero reg id ∈ p → .label id ∈ p
  jumpsIfNotZero : ∀ reg id, .jumpIfNotZero reg id ∈ p → .label id ∈ p
  calls : ∀ id, .call id ∈ p → .function id ∈ p

/-- The branches that name a symbol. -/
inductive SymbolicInstr.Names : SymbolicInstr → SymbolKind → UInt32 → Prop
  | jump (id : UInt32) : Names (.jump id) .label id
  | jumpIfZero (reg id : UInt32) : Names (.jumpIfZero reg id) .label id
  | jumpIfNotZero (reg id : UInt32) : Names (.jumpIfNotZero reg id) .label id
  | call (id : UInt32) : Names (.call id) .function id

theorem SymbolicInstr.Names.reference?_eq {x : SymbolicInstr} {kind : SymbolKind} {id : UInt32}
    (h : x.Names kind id) : x.reference? = some (kind, id) := by
  cases h <;> rfl

theorem SymbolicInstr.names_of_isBranch {x : SymbolicInstr} (h : x.hasArity = true)
    (hbranch : x.op.isBranch = true) : ∃ kind id, x.Names kind id := by
  obtain ⟨op, operands⟩ := x
  have hlen := Scan.length_operands_of_hasArity h rfl
  cases op <;> first | (cases hbranch; done) | skip
  case jump =>
    match operands, hlen with
    | [w], _ => exact ⟨.label, w.bits, .jump w.bits⟩
  case jumpIfZero =>
    match operands, hlen with
    | [r, w], _ => exact ⟨.label, w.bits, .jumpIfZero r.bits w.bits⟩
  case jumpIfNotZero =>
    match operands, hlen with
    | [r, w], _ => exact ⟨.label, w.bits, .jumpIfNotZero r.bits w.bits⟩
  case call =>
    match operands, hlen with
    | [w], _ => exact ⟨.function, w.bits, .call w.bits⟩

theorem SymbolicInstr.reference?_eq_none_iff {x : SymbolicInstr} (h : x.hasArity = true) :
    x.reference? = none ↔ x.op.isBranch = false := by
  constructor
  · intro hnone
    cases hbranch : x.op.isBranch with
    | false => rfl
    | true =>
      obtain ⟨kind, id, hnames⟩ := names_of_isBranch h hbranch
      rw [hnames.reference?_eq] at hnone
      cases hnone
  · intro hbranch
    obtain ⟨op, operands⟩ := x
    cases op <;> first | rfl | cases hbranch

theorem SymbolicInstr.reference?_eq_some_iff {x : SymbolicInstr} (h : x.hasArity = true)
    {kind : SymbolKind} {id : UInt32} : x.reference? = some (kind, id) ↔ x.Names kind id := by
  constructor
  · intro href
    have hbranch : x.op.isBranch = true := by
      rw [← Bool.not_eq_false, ← reference?_eq_none_iff h, href]
      exact Option.some_ne_none _
    obtain ⟨kind', id', hnames⟩ := names_of_isBranch h hbranch
    rw [hnames.reference?_eq] at href
    cases href
    exact hnames
  · exact Names.reference?_eq

theorem Layout.unresolved?_eq_none_iff {l : Layout} {x : Placed} (h : x.instr.hasArity = true) :
    l.unresolved? x = none ↔
      ∀ kind id, x.instr.Names kind id → ∃ t, l.target? kind id = some t := by
  constructor
  · intro hnone kind id hnames
    have href := (SymbolicInstr.reference?_eq_some_iff h).2 hnames
    simp only [unresolved?, href, Option.bind_some] at hnone
    split at hnone
    case h_1 t ht => exact ⟨t, ht⟩
    case h_2 => cases hnone
  · intro hall
    cases href : x.instr.reference? with
    | none => simp only [unresolved?, href, Option.bind_none]
    | some symbol =>
      obtain ⟨t, ht⟩ := hall symbol.1 symbol.2 ((SymbolicInstr.reference?_eq_some_iff h).1 href)
      simp only [unresolved?, href, Option.bind_some, ht]

theorem assemble_eq_ok_iff {p : List SymbolicInstr} {a : Assembly} :
    assemble p = .ok a ↔ check p = [] ∧ link p = a := by
  unfold assemble
  split
  case h_1 hcheck => simp [hcheck]
  case h_2 fault rest hcheck => simp [hcheck]

theorem Scan.allFaults_eq_nil_iff {s : Scan} :
    s.allFaults = [] ↔ s.faults = #[] ∧ s.opened = [] := by
  simp [allFaults]

theorem check_eq_nil_iff {p : List SymbolicInstr} :
    check p = [] ↔ (scan (place p)).faults = #[] ∧ (scan (place p)).opened = [] ∧
      ∀ i x, p[i]? = some x → (scan (place p)).layout.unresolved? (placedAt p i x) = none := by
  have hfilter : (place p).filterMap (scan (place p)).layout.unresolved? = [] ↔
      ∀ i x, p[i]? = some x → (scan (place p)).layout.unresolved? (placedAt p i x) = none := by
    rw [List.filterMap_eq_nil_iff]
    constructor
    · intro h i x hx
      exact h _ (mem_place_iff.2 ⟨i, x, hx, rfl⟩)
    · intro h y hy
      obtain ⟨i, x, hx, rfl⟩ := mem_place_iff.1 hy
      exact h i x hx
  rw [← hfilter, ← and_assoc, ← Scan.allFaults_eq_nil_iff]
  simp only [check]
  split
  case h_1 hnone => simp [hnone]
  case h_2 hsome =>
    constructor
    · intro h
      exact absurd h hsome
    · rintro ⟨h, _⟩
      exact absurd h hsome

theorem SymbolFacts.index_eq {p : List SymbolicInstr} {s : Scan} (facts : SymbolFacts p p.length s)
    (kind : SymbolKind) {id : UInt32} {i j : Nat} (hi : p[i]? = some (kind.marker id))
    (hj : p[j]? = some (kind.marker id)) : i = j := by
  have hilt : i < p.length := (List.getElem?_eq_some_iff.1 hi).1
  have hjlt : j < p.length := (List.getElem?_eq_some_iff.1 hj).1
  rcases Nat.lt_trichotomy i j with hlt | heq | hgt
  · exact absurd hj (facts.distinct i j kind id hlt hjlt hi)
  · exact heq
  · exact absurd hi (facts.distinct j i kind id hgt hilt hj)

theorem wellFormed_of_check {p : List SymbolicInstr} (h : check p = []) : WellFormed p := by
  obtain ⟨hfaults, hopened, hresolved⟩ := check_eq_nil_iff.1 h
  rw [← scanned_length] at hfaults hopened hresolved
  have symbols := symbolFacts (Nat.le_refl _) hfaults
  have blocks := blockFacts (Nat.le_refl _) hfaults
  have harity : ∀ (i : Nat) x, p[i]? = some x → x.hasArity = true := fun i x hx =>
    symbols.arity i x (List.getElem?_eq_some_iff.1 hx).1 hx
  have hmarked : ∀ x ∈ p, ∀ kind id, x.Names kind id → kind.marker id ∈ p := by
    intro x hmem kind id hnames
    obtain ⟨i, hx⟩ := List.mem_iff_getElem?.1 hmem
    have hnone := (Layout.unresolved?_eq_none_iff (x := placedAt p i x) (harity i x hx)).1
      (hresolved i x hx)
    obtain ⟨t, ht⟩ := hnone kind id hnames
    obtain ⟨j, _, hj, _⟩ := (symbols.target kind id t).1 ht
    exact List.mem_of_getElem? hj
  refine ⟨?_, ?_, ?_, ?_, ?_, ?_, ?_, ?_, ?_⟩
  · intro x hmem
    obtain ⟨i, hx⟩ := List.mem_iff_getElem?.1 hmem
    exact Scan.length_operands_of_hasArity (harity i x hx) rfl
  · intro i j id hi hj
    exact symbols.index_eq .label hi hj
  · intro i j id hi hj
    exact symbols.index_eq .function hi hj
  · intro id hmem
    obtain ⟨i, hi⟩ := List.mem_iff_getElem?.1 hmem
    have hlt : i < p.length := (List.getElem?_eq_some_iff.1 hi).1
    exact symbols.permitted i .function id hlt hi rfl
  · rw [blockWord_conditionals_iff]
    have hrun := blocks.opened
    rwa [List.take_length, hopened] at hrun
  · intro id hmem
    exact hmarked _ hmem .label id (.jump id)
  · intro reg id hmem
    exact hmarked _ hmem .label id (.jumpIfZero reg id)
  · intro reg id hmem
    exact hmarked _ hmem .label id (.jumpIfNotZero reg id)
  · intro id hmem
    exact hmarked _ hmem .function id (.call id)

namespace WellFormed

variable {p : List SymbolicInstr}

theorem hasArity (h : WellFormed p) {i : Nat} {x : SymbolicInstr} (hx : p[i]? = some x) :
    x.hasArity = true :=
  beq_iff_eq.2 (h.arity x (List.mem_of_getElem? hx))

theorem index_eq (h : WellFormed p) {kind : SymbolKind} {id : UInt32} {i j : Nat}
    (hi : p[i]? = some (kind.marker id)) (hj : p[j]? = some (kind.marker id)) : i = j := by
  cases kind with
  | label => exact h.labels i j id hi hj
  | function => exact h.functions i j id hi hj

theorem permits (h : WellFormed p) {kind : SymbolKind} {id : UInt32} {i : Nat}
    (hi : p[i]? = some (kind.marker id)) : kind.Permits id := by
  rintro rfl
  exact h.functionIds id (List.mem_of_getElem? hi)

theorem marked (h : WellFormed p) {x : SymbolicInstr} (hx : x ∈ p) {kind : SymbolKind}
    {id : UInt32} (hnames : x.Names kind id) : kind.marker id ∈ p := by
  cases hnames with
  | jump => exact h.jumps id hx
  | jumpIfZero reg => exact h.jumpsIfZero reg id hx
  | jumpIfNotZero reg => exact h.jumpsIfNotZero reg id hx
  | call => exact h.calls id hx

theorem blockStep_ne_none (h : WellFormed p) {n : Nat} {s : Scan} {x : SymbolicInstr}
    (facts : BlockFacts p n s) (hx : p[n]? = some x) :
    blockStep (s.opened.map (·.alternative.isSome)) x.op ≠ none := by
  intro hnone
  have hrun := (blockWord_conditionals_iff p).1 h.blocks
  rw [← List.take_append_drop (n + 1) p, List.map_append, blockRun_append, facts.opened_succ hx,
    hnone] at hrun
  cases hrun

theorem takes (h : WellFormed p) {n : Nat} {x : SymbolicInstr} (hx : p[n]? = some x)
    (hclean : (scanned p n).faults = #[]) :
    ∃ s', (scanned p n).Takes (placedAt p n x) s' := by
  have hn : n ≤ p.length := Nat.le_of_lt (List.getElem?_eq_some_iff.1 hx).1
  have symbols := symbolFacts hn hclean
  have blocks := blockFacts hn hclean
  have harity := h.hasArity hx
  have hstep := h.blockStep_ne_none blocks hx
  cases hmarker : x.op.isMarker with
  | true =>
    obtain ⟨kind, id, rfl⟩ : ∃ (kind : SymbolKind) (id : UInt32), x = kind.marker id := by
      rcases Opcode.isMarker_iff.1 hmarker with hop | hop
      · obtain ⟨w, hw⟩ := List.length_eq_one_iff.1 (Scan.length_operands_of_hasArity harity hop)
        exact ⟨.label, w.bits, Scan.eq_marker_of_operands hop hw⟩
      · obtain ⟨w, hw⟩ := List.length_eq_one_iff.1 (Scan.length_operands_of_hasArity harity hop)
        exact ⟨.function, w.bits, Scan.eq_marker_of_operands hop hw⟩
    have hfresh : (scanned p n).layout.target? kind id = none := by
      cases htarget : (scanned p n).layout.target? kind id with
      | none => rfl
      | some t =>
        obtain ⟨i, hi, hpi, _⟩ := (symbols.target kind id t).1 htarget
        exact absurd (h.index_eq hpi hx) (by omega)
    exact ⟨_, .marker rfl (h.permits hx) hfresh⟩
  | false =>
    cases hcond : x.op.isConditional with
    | false => exact ⟨_, .plain harity hmarker hcond⟩
    | true =>
      rcases Opcode.isConditional_iff.1 hcond with hop | hop | hop
      · exact ⟨_, .opening hop harity⟩
      · rw [hop] at hstep
        cases hopened : (scanned p n).opened with
        | nil => simp [hopened, blockStep] at hstep
        | cons block outer =>
          obtain ⟨start, alternative⟩ := block
          cases alternative with
          | some j => simp [hopened, blockStep] at hstep
          | none => exact ⟨_, .alternative hop harity hopened⟩
      · rw [hop] at hstep
        cases hopened : (scanned p n).opened with
        | nil => simp [hopened, blockStep] at hstep
        | cons block outer => exact ⟨_, .ending hop harity hopened⟩

theorem clean (h : WellFormed p) {n : Nat} (hn : n ≤ p.length) : (scanned p n).faults = #[] := by
  refine scanned_induction (motive := fun _ s => s.faults = #[]) rfl ?_ hn
  intro n x hx hclean
  obtain ⟨s', htakes⟩ := h.takes hx hclean
  rw [htakes.visit_eq, htakes.faults_eq, hclean]

theorem check_eq_nil (h : WellFormed p) : check p = [] := by
  have hclean := h.clean (Nat.le_refl p.length)
  have symbols := symbolFacts (Nat.le_refl _) hclean
  have blocks := blockFacts (Nat.le_refl _) hclean
  rw [check_eq_nil_iff, ← scanned_length]
  refine ⟨hclean, ?_, ?_⟩
  · have hrun := (blockWord_conditionals_iff p).1 h.blocks
    have hopened := blocks.opened
    rw [List.take_length, hrun] at hopened
    exact List.map_eq_nil_iff.1 (Option.some.inj hopened).symm
  · intro i x hx
    rw [Layout.unresolved?_eq_none_iff (x := placedAt p i x) (h.hasArity hx)]
    intro kind id hnames
    obtain ⟨j, hj⟩ := List.mem_iff_getElem?.1 (h.marked (List.mem_of_getElem? hx) hnames)
    have hlt : j < p.length := (List.getElem?_eq_some_iff.1 hj).1
    exact ⟨_, (symbols.target kind id _).2 ⟨j, hlt, hj, rfl⟩⟩

end WellFormed

/-- Assembly succeeds on well-formed programs and on no others. -/
theorem assemble_isOk_iff_wellFormed (p : List SymbolicInstr) :
    (∃ a, assemble p = .ok a) ↔ WellFormed p := by
  constructor
  · rintro ⟨a, h⟩
    exact wellFormed_of_check (assemble_eq_ok_iff.1 h).1
  · intro h
    exact ⟨link p, assemble_eq_ok_iff.2 ⟨h.check_eq_nil, rfl⟩⟩

end RegisterMachine
