import RegisterMachine.Proofs.Padding
import RegisterMachine.Proofs.Simulation

/-!
# Forward branches

A program in which every jump and every call leads forward always ends. Returns lead back, so the
place of a context alone measures nothing. What falls with every step is an allowance for that
place together with one for each place to return to: the allowance of an instruction covers twice
that of the next one, which is enough for a call and for what follows its return.
-/

namespace RegisterMachine

/-- Every marker that a branch names stands behind the branch. -/
def ForwardBranches (p : List SymbolicInstr) : Prop :=
  ∀ i < p.length, ∀ j < p.length, ∀ symbol ∈ p[i]?.bind SymbolicInstr.reference?,
    p[j]? = some (symbol.1.marker symbol.2) → i < j

instance (p : List SymbolicInstr) : Decidable (ForwardBranches p) :=
  inferInstanceAs (Decidable (∀ i < p.length, ∀ j < p.length,
    ∀ symbol ∈ p[i]?.bind SymbolicInstr.reference?,
      p[j]? = some (symbol.1.marker symbol.2) → i < j))

theorem ForwardBranches.lt_idxOf {p : List SymbolicInstr} (h : ForwardBranches p) {i : Nat}
    {x : SymbolicInstr} (hx : p[i]? = some x) {kind : SymbolKind} {id : UInt32}
    (hnames : x.Names kind id) : i < p.idxOf (kind.marker id) := by
  have hi : i < p.length := (List.getElem?_eq_some_iff.1 hx).1
  rcases Nat.lt_or_ge (p.idxOf (kind.marker id)) p.length with hj | hj
  · have hmarker := getElem?_of_idxOf_eq hj rfl
    have hsymbol : (kind, id) ∈ p[i]?.bind SymbolicInstr.reference? := by
      rw [hx]
      exact hnames.reference?_eq
    exact h i hi _ hj _ hsymbol hmarker
  · exact Nat.lt_of_lt_of_le hi hj

theorem lt_skipIndex (p : List SymbolicInstr) (op : Opcode) (i : Nat) : i < skipIndex p op i := by
  rw [skipIndex]
  omega

/-- Blocks are left forward in any program, so only symbols need the hypothesis. -/
theorem ForwardBranches.lt_branchIndex {p : List SymbolicInstr} (h : ForwardBranches p) {i : Nat}
    {x : SymbolicInstr} {instr : Instr} (hx : p[i]? = some x) (hview : x.view? = some instr) :
    i < branchIndex p i instr := by
  have hsymbol {kind : SymbolKind} {id : UInt32} (hnames : x.Names kind id) :
      i < p.idxOf (kind.marker id) + 1 := Nat.lt_succ_of_lt (h.lt_idxOf hx hnames)
  cases instr with
  | jump id =>
    obtain rfl := SymbolicInstr.eq_of_view? hview rfl
    exact hsymbol (.jump id.bits)
  | jumpIfZero test id =>
    obtain rfl := SymbolicInstr.eq_of_view? hview rfl
    exact hsymbol (.jumpIfZero test.bits id.bits)
  | jumpIfNotZero test id =>
    obtain rfl := SymbolicInstr.eq_of_view? hview rfl
    exact hsymbol (.jumpIfNotZero test.bits id.bits)
  | call id =>
    obtain rfl := SymbolicInstr.eq_of_view? hview rfl
    exact hsymbol (.call id.bits)
  | ifNonzero test skip => exact lt_skipIndex p .ifNonzero i
  | orElse skip => exact lt_skipIndex p .orElse i
  | _ => exact Nat.lt_succ_self i

/-- How many steps may follow where some number of instructions is left. -/
def allowance : Nat → Nat
  | 0 => 2
  | left + 1 => 2 * allowance left + 1

theorem two_le_allowance (n : Nat) : 2 ≤ allowance n := by
  induction n with
  | zero => exact Nat.le_refl 2
  | succ n ih =>
    rw [allowance]
    omega

theorem allowance_le_of_le {m n : Nat} (h : m ≤ n) : allowance m ≤ allowance n := by
  induction h with
  | refl => exact Nat.le_refl _
  | step _ ih =>
    rw [allowance]
    omega

/-- The allowances of places to return to. -/
def owed (p : List SymbolicInstr) : List Nat → Nat
  | [] => 0
  | index :: rest => allowance (p.length - index) + owed p rest

namespace SymbolicContext

variable {p : List SymbolicInstr} {w w' : SymbolicContext} {x : SymbolicInstr} {s s' : Shared}

/-- The allowances of the place of a context and of all places it may return to, less the no-ops
it has done at its place. -/
def potential (p : List SymbolicInstr) (w : SymbolicContext) : Nat :=
  allowance (p.length - w.index) + owed p w.stack.frames - w.phase

theorem allowance_of_lt {n i : Nat} (h : i < n) :
    allowance (n - i) = 2 * allowance (n - (i + 1)) + 1 := by
  have hleft : n - i = n - (i + 1) + 1 := by omega
  rw [hleft, allowance]

theorem potential_le (p : List SymbolicInstr) (w : SymbolicContext) :
    w.potential p ≤ allowance (p.length - w.index) + owed p w.stack.frames := Nat.sub_le _ _

theorem potential_rest (hi : w.index < p.length) (hphase : w.phase < Opcode.listPreload.width) :
    w.rest.potential p < w.potential p := by
  have hwidth : Opcode.listPreload.width = 3 := rfl
  have hnext := allowance_of_lt hi
  have htwo := two_le_allowance (p.length - (w.index + 1))
  unfold rest
  split
  case isTrue hmore =>
    simp only [potential]
    omega
  case isFalse hlast =>
    simp only [potential]
    omega

theorem potential_transfer {i : Instr} {branch pc : Nat} {flow : Flow} (hi : w.index < p.length)
    (hphase : w.phase = 0) (hbranch : w.index < branch)
    (h : (w.pass i).transfer branch pc flow = (.proceed, w')) :
    w'.potential p < w.potential p := by
  have hnext := allowance_of_lt hi
  have hlater : allowance (p.length - branch) ≤ allowance (p.length - (w.index + 1)) :=
    allowance_le_of_le (by omega)
  have htwo := two_le_allowance (p.length - (w.index + 1))
  have hpotential : w.potential p = allowance (p.length - w.index) + owed p w.stack.frames := by
    rw [potential, hphase, Nat.sub_zero]
  rw [hpotential]
  refine Nat.lt_of_le_of_lt (w'.potential_le p) ?_
  cases flow with
  | next =>
    cases h
    simp only [pass]
    omega
  | jump target =>
    cases h
    simp only [pass]
    omega
  | call target =>
    simp only [transfer] at h
    split at h
    case h_1 stack hpush =>
      cases h
      obtain ⟨hframes, _⟩ := CallStack.frames_of_push? hpush
      simp only [hframes, pass, owed]
      omega
    case h_2 => cases h
  | ret =>
    simp only [transfer] at h
    split at h
    case h_1 index stack hpop =>
      cases h
      obtain ⟨hframes, _⟩ := CallStack.frames_of_pop? hpop
      have howed : owed p w.stack.frames = allowance (p.length - index) + owed p stack.frames :=
        congrArg (owed p) hframes
      simp only
      omega
    case h_2 => cases h
  | halt => cases h
  | badRegister index => cases h

theorem potential_step (hforward : ForwardBranches p) (hw : w.Steady p)
    (h : w.step p s = (.proceed, w', s')) : w'.potential p < w.potential p := by
  unfold step at h
  split at h
  case h_1 => cases h
  case h_2 x hx =>
    have hi : w.index < p.length := (List.getElem?_eq_some_iff.1 hx).1
    split at h
    case h_1 => cases h
    case h_2 =>
      split at h
      case isTrue hop =>
        cases h
        exact potential_rest hi hw.phase_lt
      case isFalse hop =>
        split at h
        case h_1 => cases h
        case h_2 i hview =>
          obtain ⟨hsignal, hrest⟩ := Prod.mk.inj h
          obtain ⟨hcontext, _⟩ := Prod.mk.inj hrest
          exact potential_transfer hi (hw.phase_eq_zero hx hop)
            (hforward.lt_branchIndex hx hview) (Prod.ext hsignal hcontext)

theorem run_of_potential (hforward : ForwardBranches p) {fuel : Nat} (hw : w.Steady p)
    (s : Shared) (hfuel : w.potential p < fuel) : ∃ r, run p fuel w s = some r := by
  induction fuel generalizing w s with
  | zero => omega
  | succ fuel ih =>
    have hsteady := hw.step s
    rw [run]
    cases hstep : w.step p s with
    | mk signal outcome =>
      obtain ⟨w', s'⟩ := outcome
      rw [hstep] at hsteady
      cases signal with
      | proceed =>
        have hless : w'.potential p < w.potential p := potential_step hforward hw hstep
        exact ih (w := w') hsteady s' (by omega)
      | stop status => exact ⟨_, rfl⟩

end SymbolicContext

theorem EntryPoint.exists_address {p : List SymbolicInstr} (h : check p = []) {entry : EntryPoint}
    {pc : Nat} (hentry : entry.pc? (link p).program = some pc) : ∃ index, pc = address p index := by
  cases entry with
  | top =>
    obtain rfl : 0 = pc := Option.some.inj hentry
    exact ⟨0, (address_zero p).symm⟩
  | function id =>
    obtain ⟨_, rfl⟩ := (find?_functions h).1 hentry
    exact ⟨_, rfl⟩

/-- If every branch of an accepted program leads forward, every context of it ends, from every
entry point and every shared state, within a number of steps that depends on the length of the
program only. -/
theorem forward_branches_end {p : List SymbolicInstr} {a : Assembly} (hassemble : assemble p = .ok a)
    (hwidth : encodedWidth p < 4294967296) (hforward : ForwardBranches p) {entry : EntryPoint}
    {pc : Nat} (hentry : entry.pc? a.program = some pc) (who : ContextId) (seed : UInt64)
    (limit : Option Nat) (s : Shared) :
    ∃ report t, Context.run a.program (allowance p.length + 1) (.start who pc seed limit) s =
      some (report, t) := by
  obtain ⟨hcheck, rfl⟩ := assemble_eq_ok_iff.1 hassemble
  obtain ⟨index, rfl⟩ := EntryPoint.exists_address hcheck hentry
  have hsteady : (SymbolicContext.start who index seed limit).Steady p := .inl rfl
  have hpotential : (SymbolicContext.start who index seed limit).potential p <
      allowance p.length + 1 := by
    have hle : allowance (p.length - index) ≤ allowance p.length :=
      allowance_le_of_le (Nat.sub_le _ _)
    exact Nat.lt_succ_of_le hle
  obtain ⟨⟨report, t⟩, hrun⟩ := SymbolicContext.run_of_potential hforward hsteady s hpotential
  refine ⟨report, t, ?_⟩
  rw [← SymbolicContext.locate_start, run_locate (linked_of_check hcheck) hwidth _ hsteady s]
  exact hrun

/-- Two functions, one of which calls the other, and a block that is left by a jump. -/
def forwardCalls : List SymbolicInstr :=
  [.call 1, .ifNonzero 0, .call 2, .orElse, .jump 5, .endIf, .listPreload 0 0, .label 5, .halt,
    .function 1, .loadInt 0 1, .call 2, .ret, .function 2, .outputInt 0 0, .ret]

theorem forwardCalls_end :
    ForwardBranches forwardCalls ∧ ∃ pc report t,
      EntryPoint.pc? (link forwardCalls).program (.function 1) = some pc ∧
      Context.run (link forwardCalls).program (allowance forwardCalls.length + 1)
        (.start (.function 1) pc 7 none) ({} : Shared) = some (report, t) := by
  have hforward : ForwardBranches forwardCalls := by decide
  have hentry : EntryPoint.pc? (link forwardCalls).program (.function 1) = some 20 := by decide
  obtain ⟨report, t, hrun⟩ := forward_branches_end (assemble_eq_ok_iff.2 ⟨by decide, rfl⟩)
    (by decide) hforward hentry (.function 1) 7 none {}
  exact ⟨hforward, 20, report, t, hentry, hrun⟩

end RegisterMachine
