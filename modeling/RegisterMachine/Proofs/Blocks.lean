import RegisterMachine.Symbolic

/-!
# Conditional blocks

Which sequences of conditional members nest, by a grammar and by a stack of open blocks, and
where the part of a block that a branching member skips ends. The two descriptions of nesting
agree, and skipping passes over nested blocks as a whole.
-/

namespace RegisterMachine

/-- Sequences of conditional members that nest. -/
inductive BlockWord : List Opcode → Prop
  | empty : BlockWord []
  | block {body rest : List Opcode} : BlockWord body → BlockWord rest →
      BlockWord (.ifNonzero :: (body ++ .endIf :: rest))
  | choice {body alternative rest : List Opcode} : BlockWord body → BlockWord alternative →
      BlockWord rest →
      BlockWord (.ifNonzero :: (body ++ .orElse :: (alternative ++ .endIf :: rest)))

def Opcode.isConditional (op : Opcode) : Bool := op.category == .conditional

theorem Opcode.isConditional_iff {op : Opcode} :
    op.isConditional = true ↔ op = .ifNonzero ∨ op = .orElse ∨ op = .endIf := by
  have key : ∀ op ∈ all,
      op.isConditional = true ↔ op = .ifNonzero ∨ op = .orElse ∨ op = .endIf := by
    decide
  exact key op (mem_all op)

/-- The conditional members of a program. -/
def conditionals (p : List SymbolicInstr) : List Opcode :=
  (p.map (·.op)).filter Opcode.isConditional

theorem conditionals_append (p q : List SymbolicInstr) :
    conditionals (p ++ q) = conditionals p ++ conditionals q := by
  simp [conditionals]

theorem conditionals_cons_of_pos {x : SymbolicInstr} (h : x.op.isConditional = true)
    (p : List SymbolicInstr) : conditionals (x :: p) = x.op :: conditionals p := by
  simp [conditionals, h]

theorem conditionals_cons_of_neg {x : SymbolicInstr} (h : x.op.isConditional = false)
    (p : List SymbolicInstr) : conditionals (x :: p) = conditionals p := by
  simp [conditionals, h]

theorem BlockWord.append {u v : List Opcode} (hu : BlockWord u) (hv : BlockWord v) :
    BlockWord (u ++ v) := by
  induction hu with
  | empty => exact hv
  | block hbody _ _ ih =>
    simp only [List.cons_append, List.append_assoc]
    exact .block hbody ih
  | choice hbody halt _ _ _ ih =>
    simp only [List.cons_append, List.append_assoc]
    exact .choice hbody halt ih

/-- One member against the open blocks, innermost first; each says whether its alternative was
seen. `none` if the member has no place there. -/
def blockStep : List Bool → Opcode → Option (List Bool)
  | st, .ifNonzero => some (false :: st)
  | false :: st, .orElse => some (true :: st)
  | _, .orElse => none
  | _ :: st, .endIf => some st
  | [], .endIf => none
  | st, _ => some st

def blockRun : List Bool → List Opcode → Option (List Bool)
  | st, [] => some st
  | st, op :: ops => (blockStep st op).bind fun st => blockRun st ops

theorem blockStep_of_not_conditional (st : List Bool) {op : Opcode}
    (h : op.isConditional = false) : blockStep st op = some st := by
  unfold blockStep
  split <;> first | rfl | (exfalso; revert h; decide)

theorem blockRun_append (st : List Bool) (u v : List Opcode) :
    blockRun st (u ++ v) = (blockRun st u).bind fun st => blockRun st v := by
  induction u generalizing st with
  | nil => rfl
  | cons op u ih =>
    simp only [List.cons_append, blockRun, Option.bind_assoc]
    congr 1
    funext st'
    exact ih st'

theorem blockRun_filter (st : List Bool) (ops : List Opcode) :
    blockRun st (ops.filter Opcode.isConditional) = blockRun st ops := by
  induction ops generalizing st with
  | nil => rfl
  | cons op ops ih =>
    cases h : op.isConditional with
    | true =>
      rw [List.filter_cons_of_pos h]
      simp only [blockRun]
      congr 1
      funext st'
      exact ih st'
    | false =>
      rw [List.filter_cons_of_neg (by simp [h]), ih]
      simp only [blockRun, blockStep_of_not_conditional st h, Option.bind_some]

theorem blockRun_of_blockWord {u : List Opcode} (h : BlockWord u) (st : List Bool) :
    blockRun st u = some st := by
  induction h generalizing st with
  | empty => rfl
  | block _ _ ihBody ihRest =>
    simp only [blockRun, blockStep, Option.bind_some, blockRun_append, ihBody, ihRest]
  | choice _ _ _ ihBody ihAlt ihRest =>
    simp only [blockRun, blockStep, Option.bind_some, blockRun_append, ihBody, ihAlt, ihRest]

/-- What may follow while some blocks are open: each of them is completed in turn, and what
comes after the outermost one nests. -/
def Completes : List Bool → List Opcode → Prop
  | [], u => BlockWord u
  | true :: st, u => ∃ alternative rest, u = alternative ++ .endIf :: rest ∧
      BlockWord alternative ∧ Completes st rest
  | false :: st, u =>
      (∃ body rest, u = body ++ .endIf :: rest ∧ BlockWord body ∧ Completes st rest) ∨
      (∃ body alternative rest, u = body ++ .orElse :: (alternative ++ .endIf :: rest) ∧
        BlockWord body ∧ BlockWord alternative ∧ Completes st rest)

theorem Completes.prepend {st : List Bool} {u v : List Opcode} (hu : BlockWord u)
    (hv : Completes st v) : Completes st (u ++ v) := by
  match st, hv with
  | [], hv => exact hu.append hv
  | true :: st, ⟨alternative, rest, heq, halt, hrest⟩ =>
    exact ⟨u ++ alternative, rest, by rw [heq, List.append_assoc], hu.append halt, hrest⟩
  | false :: st, .inl ⟨body, rest, heq, hbody, hrest⟩ =>
    exact .inl ⟨u ++ body, rest, by rw [heq, List.append_assoc], hu.append hbody, hrest⟩
  | false :: st, .inr ⟨body, alternative, rest, heq, hbody, halt, hrest⟩ =>
    exact .inr ⟨u ++ body, alternative, rest, by rw [heq, List.append_assoc],
      hu.append hbody, halt, hrest⟩

/-- A block that is opened and completed is nested in what surrounds it. -/
theorem Completes.opening {st : List Bool} {u : List Opcode} (h : Completes (false :: st) u) :
    Completes st (.ifNonzero :: u) := by
  rcases h with ⟨body, rest, rfl, hbody, hrest⟩ | ⟨body, alternative, rest, rfl, hbody, halt, hrest⟩
  · have hblock := BlockWord.block hbody .empty
    simpa using hrest.prepend hblock
  · have hblock := BlockWord.choice hbody halt .empty
    simpa using hrest.prepend hblock

theorem completes_of_blockRun {u : List Opcode} (hcond : ∀ op ∈ u, op.isConditional = true)
    {st : List Bool} (h : blockRun st u = some []) : Completes st u := by
  -- the grammar alone says nothing of a suffix, so the induction is for any open blocks
  induction u generalizing st with
  | nil =>
    obtain rfl : st = [] := Option.some.inj h
    exact .empty
  | cons op u ih =>
    have hu : ∀ op ∈ u, op.isConditional = true := fun op hop => hcond op (by simp [hop])
    have hop : op.isConditional = true := hcond op (by simp)
    obtain ⟨st', hstep, hrun⟩ := Option.bind_eq_some_iff.1 h
    have hrest := ih hu hrun
    rcases Opcode.isConditional_iff.1 hop with rfl | rfl | rfl
    · obtain rfl : false :: st = st' := Option.some.inj hstep
      exact hrest.opening
    · match st, hstep with
      | false :: st, hstep =>
        obtain rfl : true :: st = st' := Option.some.inj hstep
        obtain ⟨alternative, rest, rfl, halt, hrest⟩ := hrest
        exact .inr ⟨[], alternative, rest, rfl, .empty, halt, hrest⟩
    · match st, hstep with
      | false :: st, hstep =>
        obtain rfl : st = st' := Option.some.inj hstep
        exact .inl ⟨[], u, rfl, .empty, hrest⟩
      | true :: st, hstep =>
        obtain rfl : st = st' := Option.some.inj hstep
        exact ⟨[], u, rfl, .empty, hrest⟩

/-- The grammar and the stack accept the same programs. -/
theorem blockWord_conditionals_iff (p : List SymbolicInstr) :
    BlockWord (conditionals p) ↔ blockRun [] (p.map (·.op)) = some [] := by
  rw [← blockRun_filter]
  constructor
  · intro h
    exact blockRun_of_blockWord h []
  · intro h
    have hall : ∀ op ∈ conditionals p, op.isConditional = true :=
      fun op hop => (List.mem_filter.1 hop).2
    have hword : Completes [] (conditionals p) := completes_of_blockRun hall h
    exact hword

/-- How many blocks are open after a member. -/
def depthAfter (depth : Nat) : Opcode → Nat
  | .ifNonzero => depth + 1
  | .endIf => depth - 1
  | _ => depth

/-- Which members of the same block end what a branching member skips: a failed test goes on
after the alternative or, without one, after the end, and an alternative after the end. -/
def closes : Opcode → Opcode → Bool
  | .ifNonzero, .orElse | .ifNonzero, .endIf | .orElse, .endIf => true
  | _, _ => false

/-- How many instructions a branching member skips, counting the one that ends the skip; `depth`
blocks were opened on the way. -/
def skipped (op : Opcode) (depth : Nat) : List SymbolicInstr → Nat
  | [] => 0
  | x :: rest =>
    if depth = 0 ∧ closes op x.op then 1 else skipped op (depthAfter depth x.op) rest + 1

/-- The index at which the branching member at an index goes on. -/
def skipIndex (p : List SymbolicInstr) (op : Opcode) (index : Nat) : Nat :=
  index + 1 + skipped op 0 (p.drop (index + 1))

theorem skipped_cons_of_closes {op : Opcode} {x : SymbolicInstr} (h : closes op x.op = true)
    (rest : List SymbolicInstr) : skipped op 0 (x :: rest) = 1 := by
  simp [skipped, h]

theorem skipped_cons {op : Opcode} {depth : Nat} {x : SymbolicInstr}
    (h : depth = 0 → closes op x.op = false) (rest : List SymbolicInstr) :
    skipped op depth (x :: rest) = skipped op (depthAfter depth x.op) rest + 1 := by
  rw [skipped, if_neg]
  rintro ⟨hdepth, hcloses⟩
  simp [h hdepth] at hcloses

theorem closes_eq_false {op x : Opcode} (h : blockStep [] x ≠ none) : closes op x = false := by
  unfold closes
  split <;> first | rfl | exact absurd rfl h

theorem depthAfter_of_not_conditional (depth : Nat) {op : Opcode}
    (h : op.isConditional = false) : depthAfter depth op = depth := by
  unfold depthAfter
  split <;> first | rfl | (exfalso; revert h; decide)

theorem length_of_blockStep {st st' : List Bool} {op : Opcode} (h : blockStep st op = some st') :
    st'.length = depthAfter st.length op := by
  cases hop : op.isConditional with
  | false =>
    rw [blockStep_of_not_conditional st hop] at h
    obtain rfl := Option.some.inj h
    exact (depthAfter_of_not_conditional _ hop).symm
  | true =>
    rcases Opcode.isConditional_iff.1 hop with rfl | rfl | rfl
    · obtain rfl := Option.some.inj h
      rfl
    · match st, h with
      | false :: st, h =>
        obtain rfl := Option.some.inj h
        rfl
    · match st, h with
      | _ :: st, h =>
        obtain rfl := Option.some.inj h
        rfl

theorem skipped_append {op : Opcode} {u : List SymbolicInstr} {st st' : List Bool}
    (h : blockRun st (u.map (·.op)) = some st') (v : List SymbolicInstr) :
    skipped op st.length (u ++ v) = u.length + skipped op st'.length v := by
  induction u generalizing st with
  | nil =>
    obtain rfl : st = st' := Option.some.inj h
    simp
  | cons x u ih =>
    obtain ⟨st₁, hstep, hrun⟩ := Option.bind_eq_some_iff.1 h
    have hcloses : st.length = 0 → closes op x.op = false := by
      intro hst
      apply closes_eq_false
      rw [← List.eq_nil_of_length_eq_zero hst, hstep]
      exact Option.some_ne_none st₁
    rw [List.cons_append, skipped_cons hcloses, ← length_of_blockStep hstep, ih hrun]
    simp only [List.length_cons]
    omega

/-- Skipping passes over nested blocks as a whole and stops at the member that closes. -/
theorem skipped_nested {op : Opcode} {u : List SymbolicInstr} {x : SymbolicInstr}
    (hu : BlockWord (conditionals u)) (hx : closes op x.op = true) (v : List SymbolicInstr) :
    skipped op 0 (u ++ x :: v) = u.length + 1 := by
  have hrun := (blockWord_conditionals_iff u).1 hu
  have h : skipped op 0 (u ++ x :: v) = u.length + skipped op 0 (x :: v) :=
    skipped_append hrun (x :: v)
  rw [h, skipped_cons_of_closes hx]

end RegisterMachine
