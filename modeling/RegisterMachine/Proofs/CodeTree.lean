import RegisterMachine.Proofs.Acceptance
import RegisterMachine.Proofs.SymbolicContext

/-!
# Structured programs

Trees of straight-line instructions and conditional blocks, what they evaluate to and the
symbolic programs they stand for. The program of a valid tree is well-formed.
-/

namespace RegisterMachine

/-- A program whose only control is conditional blocks. -/
inductive CodeTree where
  | done
  | step (x : SymbolicInstr) (next : CodeTree)
  | block (test : UInt32) (body next : CodeTree)
  | choice (test : UInt32) (body alternative next : CodeTree)

def Opcode.isStraight : Opcode → Bool
  | .halt | .jump | .jumpIfZero | .jumpIfNotZero | .call | .ret | .ifNonzero | .orElse | .endIf
  | .listPreload => false
  | _ => true

theorem Opcode.plain_of_isStraight {op : Opcode} (h : op.isStraight = true) :
    op.isConditional = false ∧ op.isBranch = false ∧ op.hasSkipTarget = false ∧
      op ≠ .listPreload := by
  have key : ∀ op ∈ all, op.isStraight = true → op.isConditional = false ∧
      op.isBranch = false ∧ op.hasSkipTarget = false ∧ op ≠ .listPreload := by
    decide
  exact key op (mem_all op) h

namespace CodeTree

def flatten : CodeTree → List SymbolicInstr
  | done => []
  | step x next => x :: next.flatten
  | block test body next => .ifNonzero test :: (body.flatten ++ .endIf :: next.flatten)
  | choice test body alternative next =>
    .ifNonzero test ::
      (body.flatten ++ .orElse :: (alternative.flatten ++ .endIf :: next.flatten))

def steps : CodeTree → List SymbolicInstr
  | done => []
  | step x next => x :: next.steps
  | block _ body next => body.steps ++ next.steps
  | choice _ body alternative next => body.steps ++ alternative.steps ++ next.steps

/-- What a tree must be like: its instructions are straight and complete, and no marker is
repeated or out of range. -/
structure Valid (t : CodeTree) : Prop where
  straight : ∀ x ∈ t.steps, x.op.isStraight = true
  arity : ∀ x ∈ t.steps, x.operands.length = x.op.arity
  markers : (t.steps.filter (·.op.isMarker)).Nodup
  functionIds : ∀ id, .function id ∈ t.steps → id.toNat ≤ 511

inductive Outcome where
  | finished (random : RandomStream) (shared : Shared)
  | faulted (cause : RuntimeFault) (pc : Nat) (shared : Shared)

namespace Outcome

/-- Goes on from where an evaluation finished; a fault stands. -/
def andThen : Outcome → (RandomStream → Shared → Outcome) → Outcome
  | finished r s, k => k r s
  | faulted cause pc s, _ => .faulted cause pc s

def status : Outcome → Status
  | finished _ _ => .halted
  | faulted cause pc _ => .faulted cause pc

def shared : Outcome → Shared
  | finished _ s => s
  | faulted _ _ s => s

end Outcome

/-- A straight-line instruction at an address either finishes or names a register that does not
exist. -/
def evalStep (who : ContextId) (x : SymbolicInstr) (pc : Nat) (r : RandomStream) (s : Shared) :
    Outcome :=
  match x.view? with
  | none => .finished r s
  | some i =>
    match i.effect who r s with
    | (.badRegister index, s) => .faulted (Registers.outOfRange index) pc s
    | (_, s) => .finished (i.advanceStream r) s

/-- Evaluates a tree whose instructions stand from an address on. A block reads its register once
and evaluates one of its branches, then what follows the block. -/
def eval (who : ContextId) : CodeTree → Nat → RandomStream → Shared → Outcome
  | done, _, r, s => .finished r s
  | step x next, pc, r, s =>
    (evalStep who x pc r s).andThen (next.eval who (pc + x.width))
  | block test body next, pc, r, s =>
    match s.registers.read test with
    | .error cause => .faulted cause pc s
    | .ok w =>
      let bodyPc := pc + Opcode.ifNonzero.width
      let nextPc := bodyPc + encodedWidth body.flatten + Opcode.endIf.width
      (if w.isZero then .finished r s else body.eval who bodyPc r s).andThen
        (next.eval who nextPc)
  | choice test body alternative next, pc, r, s =>
    match s.registers.read test with
    | .error cause => .faulted cause pc s
    | .ok w =>
      let bodyPc := pc + Opcode.ifNonzero.width
      let alternativePc := bodyPc + encodedWidth body.flatten + Opcode.orElse.width
      let nextPc := alternativePc + encodedWidth alternative.flatten + Opcode.endIf.width
      (if w.isZero then alternative.eval who alternativePc r s
        else body.eval who bodyPc r s).andThen (next.eval who nextPc)

theorem mem_flatten {t : CodeTree} {x : SymbolicInstr} (h : x ∈ t.flatten) :
    x ∈ t.steps ∨ (∃ test, x = .ifNonzero test) ∨ x = .orElse ∨ x = .endIf := by
  induction t with
  | done => cases h
  | step y next ih =>
    simp only [flatten, steps, List.mem_cons] at h ⊢
    grind
  | block test body next ihBody ihNext =>
    simp only [flatten, steps, List.mem_cons, List.mem_append] at h ⊢
    grind
  | choice test body alternative next ihBody ihAlternative ihNext =>
    simp only [flatten, steps, List.mem_cons, List.mem_append] at h ⊢
    grind

theorem mem_steps {t : CodeTree} {x : SymbolicInstr} (hx : x ∈ t.flatten)
    (hop : x.op.isConditional = false) : x ∈ t.steps := by
  rcases mem_flatten hx with hstep | ⟨test, rfl⟩ | rfl | rfl
  · exact hstep
  all_goals cases hop

theorem filter_marker_flatten (t : CodeTree) :
    t.flatten.filter (·.op.isMarker) = t.steps.filter (·.op.isMarker) := by
  have hif : ∀ test, (SymbolicInstr.ifNonzero test).op.isMarker = false := fun _ => rfl
  have helse : SymbolicInstr.orElse.op.isMarker = false := rfl
  have hend : SymbolicInstr.endIf.op.isMarker = false := rfl
  induction t with
  | done => rfl
  | step x next ih => simp only [flatten, steps, List.filter_cons, ih]
  | block test body next ihBody ihNext =>
    simp [flatten, steps, hif, hend, ihBody, ihNext]
  | choice test body alternative next ihBody ihAlternative ihNext =>
    simp [flatten, steps, hif, helse, hend, ihBody, ihAlternative, ihNext]

theorem blockWord_flatten {t : CodeTree} (h : ∀ x ∈ t.steps, x.op.isStraight = true) :
    BlockWord (conditionals t.flatten) := by
  have hif : ∀ test, (SymbolicInstr.ifNonzero test).op.isConditional = true := fun _ => rfl
  have helse : SymbolicInstr.orElse.op.isConditional = true := rfl
  have hend : SymbolicInstr.endIf.op.isConditional = true := rfl
  induction t with
  | done => exact .empty
  | step x next ih =>
    have hx : x.op.isConditional = false :=
      (Opcode.plain_of_isStraight (h x (by simp [steps]))).1
    have hnext := ih fun y hy => h y (by simp [steps, hy])
    rwa [flatten, conditionals_cons_of_neg hx]
  | block test body next ihBody ihNext =>
    have hbody := ihBody fun y hy => h y (by simp [steps, hy])
    have hnext := ihNext fun y hy => h y (by simp [steps, hy])
    simp only [flatten, conditionals_cons_of_pos, conditionals_append, hif, hend]
    exact .block hbody hnext
  | choice test body alternative next ihBody ihAlternative ihNext =>
    have hbody := ihBody fun y hy => h y (by simp [steps, hy])
    have halternative := ihAlternative fun y hy => h y (by simp [steps, hy])
    have hnext := ihNext fun y hy => h y (by simp [steps, hy])
    simp only [flatten, conditionals_cons_of_pos, conditionals_append, hif, helse, hend]
    exact .choice hbody halternative hnext

namespace Valid

variable {t : CodeTree} (h : t.Valid)
include h

theorem index_eq {i j : Nat} {x : SymbolicInstr} (hx : x.op.isMarker = true)
    (hi : t.flatten[i]? = some x) (hj : t.flatten[j]? = some x) : i = j := by
  have hpairs : t.flatten.Pairwise fun x y =>
      x.op.isMarker = true → y.op.isMarker = true → x ≠ y := by
    have hnodup := h.markers
    rw [← filter_marker_flatten] at hnodup
    exact List.pairwise_filter.1 hnodup
  obtain ⟨hilt, hi⟩ := List.getElem?_eq_some_iff.1 hi
  obtain ⟨hjlt, hj⟩ := List.getElem?_eq_some_iff.1 hj
  have hsame : t.flatten[i] = t.flatten[j] := hi.trans hj.symm
  rw [List.pairwise_iff_getElem] at hpairs
  rcases Nat.lt_trichotomy i j with hlt | heq | hgt
  · exact absurd hsame (hpairs i j hilt hjlt hlt (by rw [hi, hx]) (by rw [hj, hx]))
  · exact heq
  · exact absurd hsame.symm (hpairs j i hjlt hilt hgt (by rw [hj, hx]) (by rw [hi, hx]))

theorem arity_flatten {x : SymbolicInstr} (hx : x ∈ t.flatten) :
    x.operands.length = x.op.arity := by
  rcases mem_flatten hx with hstep | ⟨test, rfl⟩ | rfl | rfl
  · exact h.arity x hstep
  all_goals rfl

theorem no_branch {x : SymbolicInstr} (hx : x ∈ t.flatten) : x.op.isBranch = false := by
  rcases mem_flatten hx with hstep | ⟨test, rfl⟩ | rfl | rfl
  · exact (Opcode.plain_of_isStraight (h.straight x hstep)).2.1
  all_goals rfl

theorem wellFormed : WellFormed t.flatten where
  arity := fun _ hx => h.arity_flatten hx
  labels := fun _ _ _ hi hj => h.index_eq rfl hi hj
  functions := fun _ _ _ hi hj => h.index_eq rfl hi hj
  functionIds := fun id hid => h.functionIds id (mem_steps hid rfl)
  blocks := blockWord_flatten h.straight
  jumps := fun _ hid => nomatch h.no_branch hid
  jumpsIfZero := fun _ _ hid => nomatch h.no_branch hid
  jumpsIfNotZero := fun _ _ hid => nomatch h.no_branch hid
  calls := fun _ hid => nomatch h.no_branch hid

end Valid

end CodeTree

end RegisterMachine
