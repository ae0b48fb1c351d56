import RegisterMachine.Proofs.CheckedExecution
import RegisterMachine.Proofs.ExactEncoding

/-!
# Checked assembly

Assembly in two passes over plain lists, where an operand or an address is looked up by its
position and a look-up out of bounds has no result at all. The second pass counts on the first: it
takes operands without asking how many there are. Checked assembly has a result for every program,
broken ones included, and both ways into it, for the first fault and for all of them, give what
assembly gives.
-/

namespace RegisterMachine

def Scan.checkedVisit (s : Scan) (x : Placed) : Option Scan :=
  if x.instr.operands.length ≠ x.instr.op.arity then
    some (s.fail x (.operandArityMismatch x.instr.op x.instr.op.arity x.instr.operands.length))
  else match x.instr.op with
    | .label => x.instr.operands[0]?.map fun id => s.define x .label id.bits
    | .function => x.instr.operands[0]?.map fun id =>
      if maxFunctionId < id.toNat then s.fail x (.symbolOutOfRange .function id.bits maxFunctionId)
      else s.define x .function id.bits
    | .ifNonzero => some { s with opened := ⟨x.location, none⟩ :: s.opened }
    | .orElse => some (s.visitElse x)
    | .endIf => some (s.visitEnd x)
    | _ => some s

def checkedScan (placed : List Placed) : Option Scan := placed.foldlM Scan.checkedVisit {}

/-- What the second pass makes of an instruction. -/
structure Emission where
  words : List Word
  fault? : Option Fault := none
  preload? : Option PreloadBinding := none

/-- The instruction with the address of a symbol after some operands. A symbol that does not exist
has the address zero and is reported. -/
def Layout.emitBranch (l : Layout) (x : Placed) (operands : List Word) (kind : SymbolKind)
    (id : UInt32) : Emission :=
  match l.target? kind id with
  | some t => { words := .ofNat x.instr.op.id :: (operands ++ [.ofNat t]) }
  | none =>
    { words := .ofNat x.instr.op.id :: (operands ++ [.ofNat 0])
      fault? := some (.assembly (.unresolvedSymbol kind id) x.location) }

def Layout.checkedEmit (l : Layout) (x : Placed) : Option Emission :=
  let operands := x.instr.operands
  match x.instr.op with
  | .jump | .jumpIfZero | .jumpIfNotZero =>
    (decrement? operands.length).bind fun last =>
      operands[last]?.map fun id => l.emitBranch x (operands.take last) .label id.bits
  | .call => operands[0]?.map fun id => l.emitBranch x [] .function id.bits
  | .ifNonzero | .orElse =>
    some { words := .ofNat x.instr.op.id ::
      (operands ++ [.ofNat ((l.skip? x.location.index).getD x.next)]) }
  | .listPreload =>
    operands[0]?.bind fun list => operands[1]?.map fun key =>
      { words := List.replicate x.instr.width (.ofNat Opcode.nop.id)
        preload? := some ⟨list.bits, key.bits, x.location.pc⟩ }
  | op => some { words := .ofNat op.id :: operands }

/-- Emits all instructions, each at the address that the first pass has noted for its index. -/
def Layout.checkedPatch (l : Layout) (pcs : List Nat) (program : List SymbolicInstr) :
    Option (List Emission) :=
  program.zipIdx.mapM fun (x, index) =>
    pcs[index]?.bind fun pc => l.checkedEmit ⟨⟨index, pc⟩, x⟩

def checkedAssemble (program : List SymbolicInstr) : Option (Except Fault Assembly) :=
  let placed := place program
  (checkedScan placed).bind fun s =>
    match s.allFaults with
    | fault :: _ => some (.error fault)
    | [] =>
      (s.layout.checkedPatch (placed.map (·.location.pc)) program).map fun emitted =>
        match emitted.filterMap (·.fault?) with
        | fault :: _ => .error fault
        | [] => .ok
          { program :=
              { words := (emitted.flatMap (·.words)).toArray
                labels := s.layout.labels
                functions := s.layout.functions }
            preloads := emitted.filterMap (·.preload?) }

def checkedCheck (program : List SymbolicInstr) : Option (List Fault) :=
  let placed := place program
  (checkedScan placed).bind fun s =>
    match s.allFaults with
    | [] =>
      (s.layout.checkedPatch (placed.map (·.location.pc)) program).map fun emitted =>
        emitted.filterMap (·.fault?)
    | faults => some faults

theorem Scan.checkedVisit_eq (s : Scan) (x : Placed) : s.checkedVisit x = some (s.visit x) := by
  unfold checkedVisit visit
  by_cases h : x.instr.operands.length = x.instr.op.arity
  · have harity : x.instr.hasArity = true := beq_iff_eq.2 h
    rw [if_neg fun hne => hne h, if_pos harity]
    obtain ⟨location, op, operands⟩ := x
    cases op
    case label =>
      match operands, h with
      | [id], _ => rfl
    case function =>
      match operands, h with
      | [id], _ =>
        by_cases hle : id.toNat ≤ maxFunctionId
        · simp [hle, Nat.not_lt.2 hle]
        · simp [hle, Nat.not_le.1 hle]
    all_goals rfl
  · have harity : ¬ x.instr.hasArity = true := fun harity => h (beq_iff_eq.1 harity)
    rw [if_pos h, if_neg harity]

theorem checkedScan_eq (placed : List Placed) : checkedScan placed = some (scan placed) := by
  have hfold (s : Scan) : placed.foldlM Scan.checkedVisit s = some (placed.foldl Scan.visit s) := by
    induction placed generalizing s with
    | nil => rfl
    | cons x placed ih =>
      rw [List.foldlM_cons, s.checkedVisit_eq]
      exact ih (s.visit x)
  exact hfold {}

def Layout.emission (l : Layout) (x : Placed) : Emission :=
  ⟨l.encode x, l.unresolved? x, x.instr.binding? x.location.pc⟩

theorem Layout.emitBranch_eq (l : Layout) {x : Placed} {kind : SymbolKind} {id : UInt32}
    (hnames : x.instr.Names kind id) :
    l.emitBranch x x.instr.operands.dropLast kind id = l.emission x := by
  have href := hnames.reference?_eq
  have hop := hnames.ne_preload
  have hencode := l.encode_of_ne_preload hop
  have hbinding := SymbolicInstr.binding?_of_ne hop x.location.pc
  unfold emitBranch emission unresolved?
  rw [hencode, hbinding, resolveOperands, href]
  simp only [Option.bind_some]
  cases l.target? kind id <;> rfl

theorem Layout.checkedEmit_eq (l : Layout) {x : Placed} (h : x.instr.hasArity = true) :
    l.checkedEmit x = some (l.emission x) := by
  have hbranch {kind : SymbolKind} {id : UInt32} (hnames : x.instr.Names kind id) :=
    l.emitBranch_eq hnames
  have hlen := Scan.length_operands_of_hasArity h rfl
  obtain ⟨location, op, operands⟩ := x
  cases op
  case jump =>
    match operands, hlen with
    | [id], _ => exact congrArg some (hbranch (.jump id.bits))
  case jumpIfZero =>
    match operands, hlen with
    | [test, id], _ => exact congrArg some (hbranch (.jumpIfZero test.bits id.bits))
  case jumpIfNotZero =>
    match operands, hlen with
    | [test, id], _ => exact congrArg some (hbranch (.jumpIfNotZero test.bits id.bits))
  case call =>
    match operands, hlen with
    | [id], _ => exact congrArg some (hbranch (.call id.bits))
  case listPreload =>
    match operands, hlen with
    | [list, key], _ => rfl
  all_goals rfl

theorem mapM_of_forall {α β : Type} {f : α → Option β} {g : α → β} {l : List α}
    (h : ∀ a ∈ l, f a = some (g a)) : l.mapM f = some (l.map g) := by
  induction l with
  | nil => rfl
  | cons a l ih =>
    rw [List.forall_mem_cons] at h
    rw [List.mapM_cons, h.1, ih h.2]
    rfl

theorem Layout.checkedPatch_eq (l : Layout) {p : List SymbolicInstr}
    (h : ∀ x ∈ p, x.hasArity = true) :
    l.checkedPatch ((place p).map (·.location.pc)) p = some ((place p).map l.emission) := by
  rw [place_eq_map_zipIdx, List.map_map, List.map_map]
  refine mapM_of_forall (g := l.emission ∘ fun x : SymbolicInstr × Nat => placedAt p x.2 x.1) ?_
  intro (x, i) hmem
  have hx : p[i]? = some x := List.mk_mem_zipIdx_iff_getElem?.1 hmem
  have hpc : (p.zipIdx.map ((fun y : Placed => y.location.pc) ∘ fun y => placedAt p y.2 y.1))[i]? =
      some (address p i) := by
    simp [hx, placedAt]
  simp only [hpc, Option.bind_some]
  exact l.checkedEmit_eq (x := placedAt p i x) (h x (List.mem_of_getElem? hx))

theorem hasArity_of_scan {p : List SymbolicInstr} (h : (scan (place p)).allFaults = []) :
    ∀ x ∈ p, x.hasArity = true := by
  obtain ⟨hfaults, _⟩ := Scan.allFaults_eq_nil_iff.1 h
  rw [← scanned_length] at hfaults
  have symbols := symbolFacts (Nat.le_refl _) hfaults
  intro x hmem
  obtain ⟨i, hx⟩ := List.mem_iff_getElem?.1 hmem
  exact symbols.arity i x (List.getElem?_eq_some_iff.1 hx).1 hx

theorem checkedCheck_eq (p : List SymbolicInstr) : checkedCheck p = some (check p) := by
  simp only [checkedCheck, check, checkedScan_eq, Option.bind_some]
  cases hfaults : (scan (place p)).allFaults with
  | cons fault rest => rfl
  | nil =>
    simp only [Layout.checkedPatch_eq _ (hasArity_of_scan hfaults), Option.map_some,
      List.filterMap_map]
    rfl

theorem checkedAssemble_eq (p : List SymbolicInstr) :
    checkedAssemble p = some (assemble p) := by
  simp only [checkedAssemble, assemble, check, checkedScan_eq, Option.bind_some]
  cases hfaults : (scan (place p)).allFaults with
  | cons fault rest => rfl
  | nil =>
    have hunresolved : ((place p).map (scan (place p)).layout.emission).filterMap (·.fault?) =
        (place p).filterMap (scan (place p)).layout.unresolved? := List.filterMap_map
    simp only [Layout.checkedPatch_eq _ (hasArity_of_scan hfaults), Option.map_some, hunresolved]
    cases (place p).filterMap (scan (place p)).layout.unresolved? with
    | cons fault rest => rfl
    | nil =>
      simp only [link, List.flatMap_map, List.filterMap_map]
      rfl

end RegisterMachine
