import RegisterMachine.Proofs.CheckedAssembly
import RegisterMachine.Proofs.OpenBlocks

/-!
# Fault reports

What is wrong with a program, said of the program alone: of one instruction and those before it,
of the blocks that are open at its end, and of the branches that lead nowhere. Checking reports
each of these once, in the order of the instructions, and assembly succeeds or ends with the first
of them.
-/

namespace RegisterMachine

/-- What is wrong with the instruction at an index, given those before it. -/
inductive Misplaced (p : List SymbolicInstr) (i : Nat) : AssemblyFault → Prop
  | arity {x : SymbolicInstr} (instr : p[i]? = some x)
      (arity : x.operands.length ≠ x.op.arity) :
      Misplaced p i (.operandArityMismatch x.op x.op.arity x.operands.length)
  | range {id : UInt32} (instr : p[i]? = some (.function id)) (large : 511 < id.toNat) :
      Misplaced p i (.symbolOutOfRange .function id 511)
  | duplicate {kind : SymbolKind} {id : UInt32} (instr : p[i]? = some (kind.marker id))
      (permitted : kind.Permits id) (later : p.idxOf (kind.marker id) < i) :
      Misplaced p i (.duplicateSymbol kind id (address p (p.idxOf (kind.marker id) + 1)))
  | strayElse (instr : p[i]? = some .orElse) (closed : ∀ j, ¬ OpenAt p j i) :
      Misplaced p i (.unbalancedConditional "ELSE without a matching IF")
  | secondElse {j k : Nat} (instr : p[i]? = some .orElse) (opened : Innermost p j i)
      (earlier : k < i) (first : p[k]? = some .orElse) (same : Innermost p j k) :
      Misplaced p i (.unbalancedConditional "second ELSE in one IF block")
  | strayEnd (instr : p[i]? = some .endIf) (closed : ∀ j, ¬ OpenAt p j i) :
      Misplaced p i (.unbalancedConditional "ENDIF without a matching IF")

/-- The block that starts at an index is open at the end of the program. -/
def Unclosed (p : List SymbolicInstr) (i : Nat) (cause : AssemblyFault) : Prop :=
  OpenAt p i p.length ∧ cause = .unbalancedConditional "IF block is never closed"

def Unresolved (p : List SymbolicInstr) (i : Nat) (cause : AssemblyFault) : Prop :=
  ∃ x kind id, p[i]? = some x ∧ x.Names kind id ∧ kind.marker id ∉ p ∧
    cause = .unresolvedSymbol kind id

/-- A report of all that is described: one fault for each, in increasing order of the indices,
located at the instruction and the width of those before it. -/
def Reports (p : List SymbolicInstr) (describes : Nat → AssemblyFault → Prop)
    (faults : List Fault) : Prop :=
  ∃ found : List (Nat × AssemblyFault), found.Pairwise (fun a b => a.1 < b.1) ∧
    (∀ i cause, (i, cause) ∈ found ↔ describes i cause) ∧
    faults = found.map fun f => .assembly f.2 ⟨f.1, address p f.1⟩

namespace Reports

variable {p : List SymbolicInstr} {describes describes' : Nat → AssemblyFault → Prop}
  {faults : List Fault}

theorem congr (h : Reports p describes faults)
    (heq : ∀ i cause, describes i cause ↔ describes' i cause) : Reports p describes' faults := by
  obtain ⟨found, hordered, hmem, hfaults⟩ := h
  exact ⟨found, hordered, fun i cause => (hmem i cause).trans (heq i cause), hfaults⟩

theorem extend {n : Nat} (h : Reports p (fun i cause => i < n ∧ describes i cause) faults)
    {emitted : Option AssemblyFault} (hn : ∀ cause, emitted = some cause ↔ describes n cause) :
    Reports p (fun i cause => i < n + 1 ∧ describes i cause)
      (faults ++ (emitted.map (.assembly · ⟨n, address p n⟩)).toList) := by
  obtain ⟨found, hordered, hmem, rfl⟩ := h
  refine ⟨found ++ (emitted.map (n, ·)).toList, ?_, ?_, ?_⟩
  · rw [List.pairwise_append]
    refine ⟨hordered, by cases emitted <;> simp, ?_⟩
    rintro ⟨i, cause⟩ hi ⟨j, cause'⟩ hj
    obtain ⟨_, _, heq⟩ := Option.map_eq_some_iff.1 (Option.mem_toList.1 hj)
    obtain ⟨rfl, _⟩ := Prod.mk.inj heq
    exact ((hmem i cause).1 hi).1
  · intro i cause
    have hlast : (i, cause) ∈ (emitted.map (n, ·)).toList ↔ i = n ∧ describes n cause := by
      rw [← hn]
      cases emitted <;> simp [eq_comm]
    rw [List.mem_append, hmem, hlast]
    constructor
    · rintro (⟨hi, hdescribes⟩ | ⟨rfl, hdescribes⟩)
      · exact ⟨by omega, hdescribes⟩
      · exact ⟨by omega, hdescribes⟩
    · rintro ⟨hi, hdescribes⟩
      by_cases hin : i = n
      · subst hin
        exact .inr ⟨rfl, hdescribes⟩
      · exact .inl ⟨by omega, hdescribes⟩
  · rw [List.map_append]
    cases emitted <;> rfl

theorem whole (h : Reports p (fun i cause => i < p.length ∧ describes i cause) faults)
    (hlt : ∀ i cause, describes i cause → i < p.length) : Reports p describes faults := by
  refine h.congr fun i cause => ?_
  constructor
  · rintro ⟨_, hdescribes⟩
    exact hdescribes
  · intro hdescribes
    exact ⟨hlt i cause hdescribes, hdescribes⟩

end Reports

/-- What any scan knows of the markers among the first `n` instructions. -/
def MarkersKnown (p : List SymbolicInstr) (n : Nat) (l : Layout) : Prop :=
  ∀ (kind : SymbolKind) id t, l.target? kind id = some t ↔
    kind.Permits id ∧ p.idxOf (kind.marker id) < n ∧ t = address p (p.idxOf (kind.marker id) + 1)

namespace MarkersKnown

variable {p : List SymbolicInstr} {n : Nat} {l : Layout}

/-- A visit that leaves the tables alone: a marker it passed over was known before. -/
theorem keep {s s' : Scan} {x : SymbolicInstr} (h : MarkersKnown p n s.layout)
    (hx : p[n]? = some x) (hvisit : s.visit (placedAt p n x) = s')
    (htarget : ∀ kind id, s'.layout.target? kind id = s.layout.target? kind id) :
    MarkersKnown p (n + 1) s'.layout := by
  have hn : n < p.length := (List.getElem?_eq_some_iff.1 hx).1
  have hne (kind : SymbolKind) (id : UInt32) (hpermits : kind.Permits id) :
      p.idxOf (kind.marker id) ≠ n := by
    intro heq
    obtain rfl : x = kind.marker id :=
      Option.some.inj (hx.symm.trans (getElem?_of_idxOf_eq hn heq))
    cases hfirst : s.layout.target? kind id with
    | some t =>
      have hbefore := ((h kind id t).1 hfirst).2.1
      omega
    | none =>
      have htakes := Scan.Takes.marker (x := placedAt p n (kind.marker id)) rfl hpermits hfirst
      have hsame := htarget kind id
      rw [← hvisit, htakes.visit_eq, Layout.target?_withSymbol, if_pos ⟨rfl, rfl⟩, hfirst] at hsame
      cases hsame
  intro kind id t
  rw [htarget, h kind id t]
  constructor
  · rintro ⟨hpermits, hlt, rfl⟩
    exact ⟨hpermits, by omega, rfl⟩
  · rintro ⟨hpermits, hlt, rfl⟩
    have hother := hne kind id hpermits
    exact ⟨hpermits, by omega, rfl⟩

theorem mark (h : MarkersKnown p n l) {kind : SymbolKind} {id : UInt32}
    (hx : p[n]? = some (kind.marker id)) (hpermits : kind.Permits id)
    (hfresh : l.target? kind id = none) :
    MarkersKnown p (n + 1) (l.withSymbol kind id (address p (n + 1))) := by
  obtain ⟨hn, hget⟩ := List.getElem?_eq_some_iff.1 hx
  have hfirst : p.idxOf (kind.marker id) = n := by
    have hle : p.idxOf (kind.marker id) ≤ n := by
      refine Nat.le_of_not_lt fun hlt => ?_
      have hne := List.not_of_lt_findIdx hlt
      simp [hget] at hne
    have hnlt : ¬ p.idxOf (kind.marker id) < n := by
      intro hlt
      have hsome := (h kind id _).2 ⟨hpermits, hlt, rfl⟩
      rw [hfresh] at hsome
      cases hsome
    omega
  intro kind' id' t
  rw [Layout.target?_withSymbol]
  split
  case isTrue hsame =>
    obtain ⟨rfl, rfl⟩ := hsame
    rw [hfirst]
    constructor
    · intro ht
      exact ⟨hpermits, by omega, (Option.some.inj ht).symm⟩
    · rintro ⟨_, _, rfl⟩
      rfl
  case isFalse hother =>
    rw [h kind' id' t]
    constructor
    · rintro ⟨hpermits', hlt, rfl⟩
      exact ⟨hpermits', by omega, rfl⟩
    · rintro ⟨hpermits', hlt, rfl⟩
      refine ⟨hpermits', ?_, rfl⟩
      have hne : p.idxOf (kind'.marker id') ≠ n := by
        intro heq
        have hx' := getElem?_of_idxOf_eq hn heq
        exact hother (SymbolKind.marker_inj (Option.some.inj (hx'.symm.trans hx)))
      omega

end MarkersKnown

theorem markersKnown {p : List SymbolicInstr} {n : Nat} (hn : n ≤ p.length) :
    MarkersKnown p n (scanned p n).layout := by
  refine visited_induction (motive := fun n s => MarkersKnown p n s.layout) ?_ ?_ ?_ hn
  · intro kind id t
    cases kind <;> simp [Layout.target?, Layout.table]
  · intro n x s' hx ih htakes
    have hvisit := htakes.visit_eq
    cases htakes with
    | @marker kind id instr permitted fresh =>
      rw [placedAt_next hx]
      exact ih.mark (instr ▸ hx) permitted fresh
    | opening => exact ih.keep hx hvisit fun _ _ => rfl
    | alternative => exact ih.keep hx hvisit fun kind _ => by cases kind <;> rfl
    | ending => exact ih.keep hx hvisit fun kind _ => by cases kind <;> rfl
    | plain => exact ih.keep hx hvisit fun _ _ => rfl
  · intro n x cause hx ih hobjects
    exact ih.keep hx hobjects.visit_eq fun _ _ => rfl

/-! ### One visit -/

theorem objects_iff_misplaced {p : List SymbolicInstr} {n : Nat} {s : Scan} {x : SymbolicInstr}
    (markers : MarkersKnown p n s.layout) (blocks : BlocksKnown p n s.opened)
    (hx : p[n]? = some x) (cause : AssemblyFault) :
    s.Objects (placedAt p n x) cause ↔ Misplaced p n cause := by
  constructor
  · intro hobjects
    cases hobjects with
    | arity arity => exact .arity hx (by simpa [SymbolicInstr.hasArity] using arity)
    | range instr large => exact .range (instr ▸ hx) large
    | @duplicate kind id first instr permitted taken =>
      obtain ⟨_, hlt, rfl⟩ := (markers kind id first).1 taken
      exact .duplicate (instr ▸ hx) permitted hlt
    | strayElse instr opened => exact .strayElse (instr ▸ hx) (blocks.closed_iff.1 opened)
    | @secondElse block outer instr opened alternative =>
      have hmem : block ∈ s.opened := by
        rw [opened]
        exact List.mem_cons_self
      have hinnermost : Innermost p block.start.index n :=
        (blocks.stack.innermost_iff _).2 (by rw [opened]; rfl)
      obtain ⟨k, hk, helse, hsame⟩ := (blocks.alternative block hmem).1 alternative
      exact .secondElse (instr ▸ hx) hinnermost hk helse hsame
    | strayEnd instr opened => exact .strayEnd (instr ▸ hx) (blocks.closed_iff.1 opened)
  · intro hmisplaced
    cases hmisplaced with
    | arity instr arity =>
      obtain rfl := Option.some.inj (hx.symm.trans instr)
      exact .arity (by simpa [placedAt, SymbolicInstr.hasArity] using arity)
    | range instr large =>
      obtain rfl := Option.some.inj (hx.symm.trans instr)
      exact .range rfl large
    | @duplicate kind id instr permitted later =>
      obtain rfl := Option.some.inj (hx.symm.trans instr)
      exact .duplicate rfl permitted ((markers kind id _).2 ⟨permitted, later, rfl⟩)
    | strayElse instr closed =>
      obtain rfl := Option.some.inj (hx.symm.trans instr)
      exact .strayElse rfl (blocks.closed_iff.2 closed)
    | @secondElse j k instr innermost earlier first same =>
      obtain rfl := Option.some.inj (hx.symm.trans instr)
      have hhead := (blocks.stack.innermost_iff j).1 innermost
      cases hopened : s.opened with
      | nil => simp [hopened] at hhead
      | cons block outer =>
        obtain rfl : block.start.index = j := by simpa [hopened] using hhead
        have hmem : block ∈ s.opened := by
          rw [hopened]
          exact List.mem_cons_self
        exact .secondElse rfl hopened ((blocks.alternative block hmem).2 ⟨k, earlier, first, same⟩)
    | strayEnd instr closed =>
      obtain rfl := Option.some.inj (hx.symm.trans instr)
      exact .strayEnd rfl (blocks.closed_iff.2 closed)

theorem Misplaced.lt_length {p : List SymbolicInstr} {i : Nat} {cause : AssemblyFault}
    (h : Misplaced p i cause) : i < p.length := by
  obtain ⟨x, hx⟩ : ∃ x, p[i]? = some x := by
    cases h with
    | arity instr => exact ⟨_, instr⟩
    | range instr => exact ⟨_, instr⟩
    | duplicate instr => exact ⟨_, instr⟩
    | strayElse instr => exact ⟨_, instr⟩
    | secondElse instr => exact ⟨_, instr⟩
    | strayEnd instr => exact ⟨_, instr⟩
  exact (List.getElem?_eq_some_iff.1 hx).1

/-! ### Both passes -/

theorem reports_faults (p : List SymbolicInstr) :
    Reports p (Misplaced p) (scan (place p)).faults.toList := by
  have hiff {n : Nat} {x : SymbolicInstr} (hx : p[n]? = some x) (cause : AssemblyFault) :
      (scanned p n).Objects (placedAt p n x) cause ↔ Misplaced p n cause := by
    have hn : n ≤ p.length := Nat.le_of_lt (List.getElem?_eq_some_iff.1 hx).1
    exact objects_iff_misplaced (markersKnown hn) (blocksKnown hn) hx cause
  rw [← scanned_length]
  refine Reports.whole ?_ fun _ _ => Misplaced.lt_length
  refine visited_induction
    (motive := fun n s => Reports p (fun i cause => i < n ∧ Misplaced p i cause) s.faults.toList)
    ⟨[], .nil, by simp, rfl⟩ ?_ ?_ (Nat.le_refl _)
  · intro n x s' hx ih htakes
    have hnone : ∀ cause, none = some cause ↔ Misplaced p n cause := by
      intro cause
      rw [← hiff hx]
      exact iff_of_false (Option.some_ne_none _ ·.symm) htakes.not_objects
    rw [htakes.faults_eq]
    simpa using ih.extend hnone
  · intro n x cause hx ih hobjects
    have hsome : ∀ cause', some cause = some cause' ↔ Misplaced p n cause' := by
      intro cause'
      rw [← hiff hx]
      constructor
      · rintro ⟨⟩
        exact hobjects
      · intro hobjects'
        rw [hobjects.unique hobjects']
    rw [Scan.fail, Array.toList_push]
    exact ih.extend hsome

theorem reports_opened (p : List SymbolicInstr) :
    Reports p (Unclosed p) ((scan (place p)).opened.reverse.map fun block =>
      .assembly (.unbalancedConditional "IF block is never closed") block.start) := by
  have blocks := blocksKnown (Nat.le_refl p.length)
  rw [scanned_length] at blocks
  refine ⟨(scan (place p)).opened.reverse.map fun block =>
    (block.start.index, .unbalancedConditional "IF block is never closed"), ?_, ?_, ?_⟩
  · rw [List.pairwise_map, List.pairwise_reverse]
    exact List.pairwise_map.1 blocks.stack.ordered
  · intro i cause
    rw [Unclosed, ← blocks.stack.mem_iff]
    simp only [List.mem_map, List.mem_reverse, Prod.mk.injEq]
    constructor
    · rintro ⟨block, hmem, hindex, rfl⟩
      exact ⟨⟨block, hmem, hindex⟩, rfl⟩
    · rintro ⟨⟨block, hmem, hindex⟩, rfl⟩
      exact ⟨block, hmem, hindex, rfl⟩
  · rw [List.map_map]
    apply List.map_congr_left
    intro block hmem
    have hpc := blocks.located block (List.mem_reverse.1 hmem)
    simp [← hpc]

theorem target?_scan_eq_none_iff {p : List SymbolicInstr}
    (hfaults : (scan (place p)).faults = #[]) (kind : SymbolKind) (id : UInt32) :
    (scan (place p)).layout.target? kind id = none ↔ kind.marker id ∉ p := by
  have htarget := target?_scan_iff hfaults kind id
  rw [Option.eq_none_iff_forall_ne_some]
  constructor
  · intro hnone hmem
    obtain ⟨j, hj⟩ := List.mem_iff_getElem?.1 hmem
    exact hnone _ ((htarget _).2 ⟨j, hj, rfl⟩)
  · intro hno t ht
    obtain ⟨j, hj, _⟩ := (htarget t).1 ht
    exact hno (List.mem_of_getElem? hj)

theorem exists_unresolved {p : List SymbolicInstr} (h : (scan (place p)).allFaults = []) {i : Nat}
    {x : SymbolicInstr} (hx : p[i]? = some x) :
    ∃ emitted : Option AssemblyFault,
      (scan (place p)).layout.unresolved? (placedAt p i x) =
        emitted.map (.assembly · ⟨i, address p i⟩) ∧
      ∀ cause, emitted = some cause ↔ Unresolved p i cause := by
  have hnone := target?_scan_eq_none_iff (Scan.allFaults_eq_nil_iff.1 h).1
  have harity := hasArity_of_scan h x (List.mem_of_getElem? hx)
  have hnames (kind : SymbolKind) (id : UInt32) :
      x.reference? = some (kind, id) ↔ x.Names kind id :=
    SymbolicInstr.reference?_eq_some_iff harity
  have hunresolved (cause : AssemblyFault) : Unresolved p i cause ↔
      ∃ kind id, x.reference? = some (kind, id) ∧
        (scan (place p)).layout.target? kind id = none ∧ cause = .unresolvedSymbol kind id := by
    simp [Unresolved, hx, hnone, hnames]
  simp only [hunresolved, Layout.unresolved?, placedAt]
  cases x.reference? with
  | none => exact ⟨none, rfl, by simp⟩
  | some symbol =>
    obtain ⟨kind, id⟩ := symbol
    cases htarget : (scan (place p)).layout.target? kind id with
    | some t =>
      refine ⟨none, by simp [htarget], ?_⟩
      simp +contextual [htarget]
    | none =>
      refine ⟨some (.unresolvedSymbol kind id), by simp [htarget], ?_⟩
      intro cause
      constructor
      · rintro ⟨⟩
        exact ⟨kind, id, rfl, htarget, rfl⟩
      · rintro ⟨_, _, ⟨⟩, _, rfl⟩
        rfl

theorem reports_unresolved {p : List SymbolicInstr} (h : (scan (place p)).allFaults = []) :
    Reports p (Unresolved p) ((place p).filterMap (scan (place p)).layout.unresolved?) := by
  have hprefix : ∀ n ≤ p.length, Reports p (fun i cause => i < n ∧ Unresolved p i cause)
      (((place p).take n).filterMap (scan (place p)).layout.unresolved?) := by
    intro n
    induction n with
    | zero =>
      intro _
      exact ⟨[], .nil, by simp, by simp⟩
    | succ n ih =>
      intro hn
      have hx : p[n]? = some p[n] := List.getElem?_eq_getElem hn
      obtain ⟨emitted, hemitted, hiff⟩ := exists_unresolved h hx
      have htake : (place p).take (n + 1) = (place p).take n ++ [placedAt p n p[n]] := by
        rw [List.take_add_one, getElem?_place, hx]
        rfl
      have hlast : [placedAt p n p[n]].filterMap (scan (place p)).layout.unresolved? =
          (emitted.map (.assembly · ⟨n, address p n⟩)).toList := by
        rw [← hemitted]
        cases hunresolved : (scan (place p)).layout.unresolved? (placedAt p n p[n]) <;>
          simp [hunresolved]
      rw [htake, List.filterMap_append, hlast]
      exact (ih (by omega)).extend hiff
  have hwhole := hprefix p.length (Nat.le_refl _)
  rw [List.take_of_length_le (by simp)] at hwhole
  refine hwhole.whole ?_
  rintro i cause ⟨x, _, _, hx, _⟩
  exact (List.getElem?_eq_some_iff.1 hx).1

theorem check_of_faults {p : List SymbolicInstr} (h : (scan (place p)).allFaults ≠ []) :
    check p = (scan (place p)).allFaults := by
  cases hfaults : (scan (place p)).allFaults with
  | nil => exact absurd hfaults h
  | cons fault rest => simp only [check, hfaults]

theorem check_of_no_faults {p : List SymbolicInstr} (h : (scan (place p)).allFaults = []) :
    check p = (place p).filterMap (scan (place p)).layout.unresolved? := by
  simp only [check, h]

theorem exists_rest (p : List SymbolicInstr) :
    ∃ rest, check p = (scan (place p)).allFaults ++ rest ∧
      Reports p (fun i cause => (scan (place p)).allFaults = [] ∧ Unresolved p i cause) rest := by
  by_cases h : (scan (place p)).allFaults = []
  · refine ⟨check p, by rw [h, List.nil_append], ?_⟩
    rw [check_of_no_faults h]
    exact (reports_unresolved h).congr fun i cause => (and_iff_right h).symm
  · refine ⟨[], by rw [check_of_faults h, List.append_nil], ?_⟩
    exact ⟨[], .nil, fun i cause => by simp [h], rfl⟩

theorem assemble_eq_error_iff {p : List SymbolicInstr} {fault : Fault} :
    assemble p = .error fault ↔ (check p).head? = some fault := by
  unfold assemble
  cases check p <;> simp

/-- Checking reports all that is wrong with a program and assembly the first of it. Both look
things up only where they are. -/
theorem check_reports_exactly (p : List SymbolicInstr) :
    checkedCheck p = some (check p) ∧ checkedAssemble p = some (assemble p) ∧
      ((∃ a, assemble p = .ok a) ↔ check p = []) ∧
      (∀ fault, assemble p = .error fault ↔ (check p).head? = some fault) ∧
      ∃ visited unclosed unresolved, check p = visited ++ unclosed ++ unresolved ∧
        Reports p (Misplaced p) visited ∧ Reports p (Unclosed p) unclosed ∧
        Reports p (fun i cause => visited ++ unclosed = [] ∧ Unresolved p i cause) unresolved := by
  obtain ⟨rest, hcheck, hrest⟩ := exists_rest p
  refine ⟨checkedCheck_eq p, checkedAssemble_eq p, ?_, fun _ => assemble_eq_error_iff,
    _, _, rest, hcheck, reports_faults p, reports_opened p, hrest⟩
  constructor
  · rintro ⟨a, h⟩
    exact (assemble_eq_ok_iff.1 h).1
  · intro h
    exact ⟨link p, assemble_eq_ok_iff.2 ⟨h, rfl⟩⟩

example :
    check [.label 7, .ifNonzero 0, .label 7, ⟨.jump, []⟩, .function 512, .ifNonzero 1, .endIf,
      .call 3] =
      [.assembly (.duplicateSymbol .label 7 2) ⟨2, 5⟩,
        .assembly (.operandArityMismatch .jump 1 0) ⟨3, 7⟩,
        .assembly (.symbolOutOfRange .function 512 511) ⟨4, 9⟩,
        .assembly (.unbalancedConditional "IF block is never closed") ⟨1, 2⟩] := by
  decide

end RegisterMachine
