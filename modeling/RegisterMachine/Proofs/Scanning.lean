import RegisterMachine.Assembly
import RegisterMachine.Proofs.Blocks
import RegisterMachine.Proofs.Placement

/-!
# Scanning

What one visit of the scan can do, and from that what a scan without faults knows after the
first instructions of a program: they all have as many operands as they need, no symbol is marked
twice, and every marker leads behind itself.
-/

namespace RegisterMachine

theorem Opcode.isMarker_iff {op : Opcode} :
    op.isMarker = true ↔ op = .label ∨ op = .function := by
  have key : ∀ op ∈ all, op.isMarker = true ↔ op = .label ∨ op = .function := by decide
  exact key op (mem_all op)

def SymbolKind.marker : SymbolKind → UInt32 → SymbolicInstr
  | .label, id => .label id
  | .function, id => .function id

def SymbolKind.Permits (kind : SymbolKind) (id : UInt32) : Prop :=
  kind = .function → id.toNat ≤ maxFunctionId

@[simp]
theorem SymbolKind.hasArity_marker (kind : SymbolKind) (id : UInt32) :
    (kind.marker id).hasArity = true := by
  cases kind <;> rfl

theorem SymbolKind.marker_inj {kind kind' : SymbolKind} {id id' : UInt32}
    (h : kind.marker id = kind'.marker id') : kind = kind' ∧ id = id' := by
  cases kind <;> cases kind' <;> simp_all [marker, SymbolicInstr.label, SymbolicInstr.function]

theorem Layout.target?_withSymbol (l : Layout) (kind kind' : SymbolKind) (id id' : UInt32)
    (t : Nat) : (l.withSymbol kind id t).target? kind' id' =
      if kind' = kind ∧ id' = id then some t else l.target? kind' id' := by
  cases kind <;> cases kind' <;>
    simp [target?, table, withSymbol, Table.find?_insert]

/-! ### One visit -/

namespace Scan

/-- A visit that finds no fault, by what the instruction is. -/
inductive Takes (s : Scan) (x : Placed) : Scan → Prop
  | marker {kind : SymbolKind} {id : UInt32} (instr : x.instr = kind.marker id)
      (permitted : kind.Permits id) (fresh : s.layout.target? kind id = none) :
      Takes s x { s with layout := s.layout.withSymbol kind id x.next }
  | opening (op : x.instr.op = .ifNonzero) (arity : x.instr.hasArity = true) :
      Takes s x { s with opened := ⟨x.location, none⟩ :: s.opened }
  | alternative {start : Location} {outer : List OpenBlock} (op : x.instr.op = .orElse)
      (arity : x.instr.hasArity = true) (opened : s.opened = ⟨start, none⟩ :: outer) :
      Takes s x
        ({ s with opened := ⟨start, some x.location.index⟩ :: outer }.setSkip start.index x.next)
  | ending {block : OpenBlock} {outer : List OpenBlock} (op : x.instr.op = .endIf)
      (arity : x.instr.hasArity = true) (opened : s.opened = block :: outer) :
      Takes s x
        ({ s with opened := outer }.setSkip (block.alternative.getD block.start.index) x.next)
  | plain (arity : x.instr.hasArity = true) (marker : x.instr.op.isMarker = false)
      (conditional : x.instr.op.isConditional = false) : Takes s x s

theorem Takes.arity {s s' : Scan} {x : Placed} (h : s.Takes x s') : x.instr.hasArity = true := by
  cases h with
  | marker instr _ _ => rw [instr, SymbolKind.hasArity_marker]
  | opening _ arity => exact arity
  | alternative _ arity _ => exact arity
  | ending _ arity _ => exact arity
  | plain arity _ _ => exact arity

theorem Takes.faults_eq {s s' : Scan} {x : Placed} (h : s.Takes x s') : s'.faults = s.faults := by
  cases h <;> rfl

theorem define_of_fresh {s : Scan} {kind : SymbolKind} {id : UInt32}
    (h : s.layout.target? kind id = none) (x : Placed) :
    s.define x kind id = { s with layout := s.layout.withSymbol kind id x.next } := by
  simp only [Layout.target?] at h
  simp only [define, h]

theorem visit_marker (s : Scan) {x : Placed} {kind : SymbolKind} {id : UInt32}
    (instr : x.instr = kind.marker id) (permitted : kind.Permits id) :
    s.visit x = s.define x kind id := by
  cases kind with
  | label => simp [visit, instr, SymbolKind.marker, SymbolicInstr.label, SymbolicInstr.hasArity,
      Opcode.arity, Opcode.operandKinds]
  | function =>
    have hle : Word.toNat ⟨id⟩ ≤ maxFunctionId := permitted rfl
    simp [visit, instr, SymbolKind.marker, SymbolicInstr.function, SymbolicInstr.hasArity,
      Opcode.arity, Opcode.operandKinds, hle]

theorem Takes.visit_eq {s s' : Scan} {x : Placed} (h : s.Takes x s') : s.visit x = s' := by
  cases h with
  | marker instr permitted fresh => rw [visit_marker s instr permitted, define_of_fresh fresh]
  | opening op arity => simp only [visit, arity, op, if_true]
  | alternative op arity opened => simp only [visit, arity, op, if_true, visitElse, opened]
  | ending op arity opened => simp only [visit, arity, op, if_true, visitEnd, opened]
  | plain arity marker conditional =>
    simp only [visit, arity, if_true]
    split <;> simp_all [Opcode.isMarker, Opcode.isConditional, Opcode.category]

theorem eq_marker_of_operands {x : SymbolicInstr} {w : Word} {kind : SymbolKind}
    (op : x.op = (kind.marker w.bits).op) (operands : x.operands = [w]) :
    x = kind.marker w.bits := by
  obtain ⟨xop, xoperands⟩ := x
  cases kind <;> simp_all [SymbolKind.marker, SymbolicInstr.label, SymbolicInstr.function]

theorem length_operands_of_hasArity {x : SymbolicInstr} {op : Opcode} (h : x.hasArity = true)
    (hop : x.op = op) : x.operands.length = op.arity := by
  rw [← hop]
  exact beq_iff_eq.1 h

/-- A visit that finds a fault, by what the instruction is and what came before it. -/
inductive Objects (s : Scan) (x : Placed) : AssemblyFault → Prop
  | arity (arity : x.instr.hasArity = false) :
      Objects s x (.operandArityMismatch x.instr.op x.instr.op.arity x.instr.operands.length)
  | range {id : UInt32} (instr : x.instr = .function id) (large : maxFunctionId < id.toNat) :
      Objects s x (.symbolOutOfRange .function id maxFunctionId)
  | duplicate {kind : SymbolKind} {id : UInt32} {first : Nat} (instr : x.instr = kind.marker id)
      (permitted : kind.Permits id) (taken : s.layout.target? kind id = some first) :
      Objects s x (.duplicateSymbol kind id first)
  | strayElse (instr : x.instr = .orElse) (opened : s.opened = []) :
      Objects s x (.unbalancedConditional "ELSE without a matching IF")
  | secondElse {block : OpenBlock} {outer : List OpenBlock} (instr : x.instr = .orElse)
      (opened : s.opened = block :: outer) (alternative : block.alternative.isSome = true) :
      Objects s x (.unbalancedConditional "second ELSE in one IF block")
  | strayEnd (instr : x.instr = .endIf) (opened : s.opened = []) :
      Objects s x (.unbalancedConditional "ENDIF without a matching IF")

theorem define_of_taken {s : Scan} {kind : SymbolKind} {id : UInt32} {first : Nat}
    (h : s.layout.target? kind id = some first) (x : Placed) :
    s.define x kind id = s.fail x (.duplicateSymbol kind id first) := by
  simp only [Layout.target?] at h
  simp only [define, h]

theorem Objects.visit_eq {s : Scan} {x : Placed} {cause : AssemblyFault} (h : s.Objects x cause) :
    s.visit x = s.fail x cause := by
  cases h with
  | arity arity => simp [visit, arity]
  | range instr large =>
    have hle : ¬ Word.toNat ⟨_⟩ ≤ maxFunctionId := Nat.not_le.2 large
    simp [visit, instr, SymbolicInstr.function, SymbolicInstr.hasArity, Opcode.arity,
      Opcode.operandKinds, hle]
  | duplicate instr permitted taken => rw [visit_marker s instr permitted, define_of_taken taken]
  | strayElse instr opened =>
    simp [visit, instr, SymbolicInstr.orElse, SymbolicInstr.hasArity, Opcode.arity,
      Opcode.operandKinds, visitElse, opened]
  | secondElse instr opened alternative =>
    obtain ⟨index, halternative⟩ := Option.isSome_iff_exists.1 alternative
    simp [visit, instr, SymbolicInstr.orElse, SymbolicInstr.hasArity, Opcode.arity,
      Opcode.operandKinds, visitElse, opened, halternative]
  | strayEnd instr opened =>
    simp [visit, instr, SymbolicInstr.endIf, SymbolicInstr.hasArity, Opcode.arity,
      Opcode.operandKinds, visitEnd, opened]

theorem define_takes_or_objects {s : Scan} {x : Placed} {kind : SymbolKind} {id : UInt32}
    (instr : x.instr = kind.marker id) (permitted : kind.Permits id) :
    s.Takes x (s.define x kind id) ∨ ∃ cause, s.Objects x cause := by
  cases h : s.layout.target? kind id with
  | none =>
    rw [define_of_fresh h]
    exact .inl (.marker instr permitted h)
  | some first => exact .inr ⟨_, .duplicate instr permitted h⟩

theorem eq_of_no_operands {x : SymbolicInstr} {op : Opcode} (h : x.hasArity = true)
    (hop : x.op = op) (harity : op.arity = 0) : x = ⟨op, []⟩ := by
  obtain ⟨xop, operands⟩ := x
  have hlen : operands.length = op.arity := length_operands_of_hasArity h hop
  rw [harity] at hlen
  rw [List.eq_nil_of_length_eq_zero hlen, show xop = op from hop]

theorem takes_or_objects (s : Scan) (x : Placed) :
    s.Takes x (s.visit x) ∨ ∃ cause, s.Objects x cause := by
  unfold visit
  split
  case isFalse h => exact .inr ⟨_, .arity (Bool.eq_false_iff.2 h)⟩
  case isTrue harity =>
    split
    case h_1 w hop hoperands =>
      exact define_takes_or_objects (eq_marker_of_operands hop hoperands) (by intro h; cases h)
    case h_2 w hop hoperands =>
      split
      case isTrue hle =>
        exact define_takes_or_objects (eq_marker_of_operands hop hoperands) fun _ => hle
      case isFalse hle =>
        have instr : x.instr = SymbolKind.function.marker w.bits :=
          eq_marker_of_operands hop hoperands
        exact .inr ⟨_, .range instr (Nat.not_le.1 hle)⟩
    case h_3 hop => exact .inl (.opening hop harity)
    case h_4 hop =>
      have instr : x.instr = .orElse := eq_of_no_operands harity hop rfl
      unfold visitElse
      split
      case h_1 hopened => exact .inr ⟨_, .strayElse instr hopened⟩
      case h_2 block outer hopened =>
        split
        case h_1 halt => exact .inr ⟨_, .secondElse instr hopened (by rw [halt]; rfl)⟩
        case h_2 halt =>
          obtain ⟨start, alternative⟩ := block
          obtain rfl : alternative = none := halt
          exact .inl (.alternative hop harity hopened)
    case h_5 hop =>
      unfold visitEnd
      split
      case h_1 hopened => exact .inr ⟨_, .strayEnd (eq_of_no_operands harity hop rfl) hopened⟩
      case h_2 block outer hopened => exact .inl (.ending hop harity hopened)
    case h_6 hif helse hend hlabel hfunction =>
      refine .inl (.plain harity ?_ ?_)
      · -- a marker with the right number of operands is one of the first two cases
        apply Bool.eq_false_iff.2
        intro hmarker
        rcases Opcode.isMarker_iff.1 hmarker with hop | hop
        · obtain ⟨w, hw⟩ := List.length_eq_one_iff.1 (length_operands_of_hasArity harity hop)
          exact hlabel w hop hw
        · obtain ⟨w, hw⟩ := List.length_eq_one_iff.1 (length_operands_of_hasArity harity hop)
          exact hfunction w hop hw
      · apply Bool.eq_false_iff.2
        intro hconditional
        rcases Opcode.isConditional_iff.1 hconditional with hop | hop | hop
        · exact hif hop
        · exact helse hop
        · exact hend hop

theorem takes_or_fails (s : Scan) (x : Placed) :
    s.Takes x (s.visit x) ∨ ∃ cause, s.visit x = s.fail x cause := by
  rcases s.takes_or_objects x with htakes | ⟨cause, hobjects⟩
  · exact .inl htakes
  · exact .inr ⟨cause, hobjects.visit_eq⟩

theorem Objects.unique {s : Scan} {x : Placed} {cause cause' : AssemblyFault}
    (h : s.Objects x cause) (h' : s.Objects x cause') : cause = cause' := by
  have hfail := h.visit_eq.symm.trans h'.visit_eq
  have hfaults := congrArg Scan.faults hfail
  simp only [fail, Array.push_eq_push, Fault.assembly.injEq] at hfaults
  exact hfaults.1.1

theorem Takes.not_objects {s s' : Scan} {x : Placed} {cause : AssemblyFault} (h : s.Takes x s') :
    ¬ s.Objects x cause := by
  intro hobjects
  have hsame := h.faults_eq
  rw [← h.visit_eq, hobjects.visit_eq] at hsame
  have hsize := congrArg Array.size hsame
  simp [fail] at hsize

end Scan

theorem visited_induction {p : List SymbolicInstr} {motive : Nat → Scan → Prop}
    (start : motive 0 {})
    (takes : ∀ n x s', p[n]? = some x → motive n (scanned p n) →
      (scanned p n).Takes (placedAt p n x) s' → motive (n + 1) s')
    (objects : ∀ n x cause, p[n]? = some x → motive n (scanned p n) →
      (scanned p n).Objects (placedAt p n x) cause →
      motive (n + 1) ((scanned p n).fail (placedAt p n x) cause))
    {n : Nat} (hn : n ≤ p.length) : motive n (scanned p n) := by
  refine scanned_induction start ?_ hn
  intro n x hx ih
  rcases (scanned p n).takes_or_objects (placedAt p n x) with htakes | ⟨cause, hobjects⟩
  · exact takes n x _ hx ih htakes
  · rw [hobjects.visit_eq]
    exact objects n x cause hx ih hobjects

/-- Faults are never forgotten, so a scan without faults took in every instruction. -/
theorem takes_of_clean {p : List SymbolicInstr} {n : Nat} {x : SymbolicInstr}
    (hx : p[n]? = some x) (h : (scanned p (n + 1)).faults = #[]) :
    (scanned p n).faults = #[] ∧
      (scanned p n).Takes (placedAt p n x) (scanned p (n + 1)) := by
  rw [scanned_succ hx] at h ⊢
  rcases (scanned p n).takes_or_fails (placedAt p n x) with htakes | ⟨cause, hfail⟩
  · exact ⟨htakes.faults_eq ▸ h, htakes⟩
  · rw [hfail] at h
    simp [Scan.fail] at h

theorem clean_induction {p : List SymbolicInstr} {motive : Nat → Scan → Prop}
    (start : motive 0 {})
    (step : ∀ n x s', p[n]? = some x → motive n (scanned p n) →
      (scanned p n).Takes (placedAt p n x) s' → motive (n + 1) s')
    {n : Nat} (hn : n ≤ p.length) (h : (scanned p n).faults = #[]) : motive n (scanned p n) := by
  induction n with
  | zero => simpa using start
  | succ n ih =>
    have hx : p[n]? = some p[n] := List.getElem?_eq_getElem (by omega)
    obtain ⟨hclean, htakes⟩ := takes_of_clean hx h
    exact step n _ _ hx (ih (by omega) hclean) htakes

/-! ### Symbols -/

/-- What a scan without faults knows of the markers among the first `n` instructions. -/
structure SymbolFacts (p : List SymbolicInstr) (n : Nat) (s : Scan) : Prop where
  arity : ∀ i x, i < n → p[i]? = some x → x.hasArity = true
  permitted : ∀ i (kind : SymbolKind) id, i < n → p[i]? = some (kind.marker id) → kind.Permits id
  distinct : ∀ i j (kind : SymbolKind) id, i < j → j < n → p[i]? = some (kind.marker id) →
    p[j]? ≠ some (kind.marker id)
  target : ∀ (kind : SymbolKind) id t, s.layout.target? kind id = some t ↔
    ∃ i < n, p[i]? = some (kind.marker id) ∧ t = address p (i + 1)

theorem SymbolFacts.start (p : List SymbolicInstr) : SymbolFacts p 0 {} where
  arity := by omega
  permitted := by omega
  distinct := by omega
  target := by
    intro kind id t
    cases kind <;> simp [Layout.target?, Layout.table]

/-- An instruction that is no marker adds nothing to what is known of markers. -/
theorem SymbolFacts.skip {p : List SymbolicInstr} {n : Nat} {s s' : Scan} {x : SymbolicInstr}
    (h : SymbolFacts p n s) (hx : p[n]? = some x) (harity : x.hasArity = true)
    (hmarker : x.op.isMarker = false) (hlabels : s'.layout.labels = s.layout.labels)
    (hfunctions : s'.layout.functions = s.layout.functions) : SymbolFacts p (n + 1) s' := by
  have hno : ∀ (kind : SymbolKind) id, p[n]? ≠ some (kind.marker id) := by
    intro kind id heq
    obtain rfl : x = kind.marker id := Option.some.inj (hx.symm.trans heq)
    cases kind <;> cases hmarker
  have hlt : ∀ i (kind : SymbolKind) id, i < n + 1 → p[i]? = some (kind.marker id) → i < n := by
    intro i kind id hi heq
    have hne : i ≠ n := by
      rintro rfl
      exact hno kind id heq
    omega
  have htarget : ∀ kind id, s'.layout.target? kind id = s.layout.target? kind id := by
    intro kind id
    cases kind <;> simp [Layout.target?, Layout.table, hlabels, hfunctions]
  refine ⟨?_, ?_, ?_, ?_⟩
  · intro i y hi hy
    by_cases hin : i = n
    · subst hin
      obtain rfl : x = y := Option.some.inj (hx.symm.trans hy)
      exact harity
    · exact h.arity i y (by omega) hy
  · intro i kind id hi heq
    exact h.permitted i kind id (hlt i kind id hi heq) heq
  · intro i j kind id hij hj hi heq
    exact h.distinct i j kind id hij (hlt j kind id hj heq) hi heq
  · intro kind id t
    rw [htarget, h.target]
    constructor
    · rintro ⟨i, hi, heq, rfl⟩
      exact ⟨i, by omega, heq, rfl⟩
    · rintro ⟨i, hi, heq, rfl⟩
      exact ⟨i, hlt i kind id hi heq, heq, rfl⟩

theorem SymbolFacts.mark {p : List SymbolicInstr} {n : Nat} {s : Scan} {kind : SymbolKind}
    {id : UInt32} (h : SymbolFacts p n s) (hx : p[n]? = some (kind.marker id))
    (hpermitted : kind.Permits id) (hfresh : s.layout.target? kind id = none) :
    SymbolFacts p (n + 1)
      { s with layout := s.layout.withSymbol kind id (address p (n + 1)) } := by
  have hnew : ∀ i < n, p[i]? ≠ some (kind.marker id) := by
    intro i hi heq
    have hsome := (h.target kind id _).2 ⟨i, hi, heq, rfl⟩
    rw [hfresh] at hsome
    cases hsome
  refine ⟨?_, ?_, ?_, ?_⟩
  · intro i y hi hy
    by_cases hin : i = n
    · subst hin
      obtain rfl := Option.some.inj (hx.symm.trans hy)
      exact kind.hasArity_marker id
    · exact h.arity i y (by omega) hy
  · intro i kind' id' hi heq
    by_cases hin : i = n
    · subst hin
      obtain ⟨rfl, rfl⟩ := SymbolKind.marker_inj (Option.some.inj (hx.symm.trans heq))
      exact hpermitted
    · exact h.permitted i kind' id' (by omega) heq
  · intro i j kind' id' hij hj hi heq
    by_cases hjn : j = n
    · subst hjn
      obtain ⟨rfl, rfl⟩ := SymbolKind.marker_inj (Option.some.inj (hx.symm.trans heq))
      exact hnew i hij hi
    · exact h.distinct i j kind' id' hij (by omega) hi heq
  · intro kind' id' t
    simp only [Layout.target?_withSymbol]
    split
    case isTrue hsame =>
      obtain ⟨rfl, rfl⟩ := hsame
      constructor
      · intro ht
        exact ⟨n, by omega, hx, (Option.some.inj ht).symm⟩
      · rintro ⟨i, hi, heq, rfl⟩
        have hin : i = n := by
          rcases Nat.lt_or_eq_of_le (Nat.le_of_lt_succ hi) with hlt | hin
          · exact absurd heq (hnew i hlt)
          · exact hin
        rw [hin]
    case isFalse hother =>
      rw [h.target]
      constructor
      · rintro ⟨i, hi, heq, rfl⟩
        exact ⟨i, by omega, heq, rfl⟩
      · rintro ⟨i, hi, heq, rfl⟩
        refine ⟨i, ?_, heq, rfl⟩
        rcases Nat.lt_or_eq_of_le (Nat.le_of_lt_succ hi) with hlt | rfl
        · exact hlt
        · exact absurd (SymbolKind.marker_inj (Option.some.inj (heq.symm.trans hx))) hother

theorem symbolFacts {p : List SymbolicInstr} {n : Nat} (hn : n ≤ p.length)
    (h : (scanned p n).faults = #[]) : SymbolFacts p n (scanned p n) := by
  refine clean_induction (.start p) ?_ hn h
  intro n x s' hx ih htakes
  have harity := htakes.arity
  cases htakes with
  | marker instr permitted fresh =>
    rw [placedAt_next hx]
    exact ih.mark (instr ▸ hx) permitted fresh
  | opening op _ => exact ih.skip hx harity (by rw [show x.op = _ from op]; rfl) rfl rfl
  | alternative op _ _ => exact ih.skip hx harity (by rw [show x.op = _ from op]; rfl) rfl rfl
  | ending op _ _ => exact ih.skip hx harity (by rw [show x.op = _ from op]; rfl) rfl rfl
  | plain _ marker _ => exact ih.skip hx harity marker rfl rfl

end RegisterMachine
