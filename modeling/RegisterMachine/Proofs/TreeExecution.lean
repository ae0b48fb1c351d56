import RegisterMachine.Proofs.CodeTree
import RegisterMachine.Proofs.Simulation

/-!
# Executing structured programs

The program of a valid tree, assembled and executed from its beginning, ends as the evaluation of
the tree does. The induction is over the tree with its instructions anywhere in a program: a
branching member skips the whole of a nested block, so only where the segment stands matters.
-/

namespace RegisterMachine

/-- Some instructions of a program that stand at an index and an address. -/
def Segment (p : List SymbolicInstr) (index pc : Nat) (q : List SymbolicInstr) : Prop :=
  ∃ before after, p = before ++ q ++ after ∧ before.length = index ∧ encodedWidth before = pc

namespace Segment

variable {p u v : List SymbolicInstr} {x : SymbolicInstr} {index pc : Nat}

theorem whole (p : List SymbolicInstr) : Segment p 0 0 p := ⟨[], [], by simp, rfl, rfl⟩

theorem left (h : Segment p index pc (u ++ v)) : Segment p index pc u := by
  obtain ⟨before, after, hp, hindex, hpc⟩ := h
  exact ⟨before, v ++ after, by rw [hp]; simp, hindex, hpc⟩

theorem right (h : Segment p index pc (u ++ v)) :
    Segment p (index + u.length) (pc + encodedWidth u) v := by
  obtain ⟨before, after, hp, hindex, hpc⟩ := h
  refine ⟨before ++ u, after, by rw [hp]; simp, ?_, ?_⟩
  · rw [List.length_append, hindex]
  · rw [encodedWidth_append, hpc]

theorem head (h : Segment p index pc (x :: u)) : p[index]? = some x := by
  obtain ⟨before, after, rfl, rfl, _⟩ := h
  simp

theorem tail (h : Segment p index pc (x :: u)) : Segment p (index + 1) (pc + x.width) u := by
  have hsplit : Segment p index pc ([x] ++ u) := h
  have hright := hsplit.right
  simpa using hright

theorem address_eq (h : Segment p index pc u) : address p index = pc := by
  obtain ⟨before, after, rfl, rfl, rfl⟩ := h
  rw [List.append_assoc, address_append]

theorem skipIndex_eq (h : Segment p index pc (x :: (u ++ v))) (op : Opcode)
    {y : SymbolicInstr} {rest : List SymbolicInstr} (hv : v = y :: rest)
    (hu : BlockWord (conditionals u)) (hy : closes op y.op = true) :
    skipIndex p op index = index + 1 + u.length + 1 := by
  obtain ⟨before, after, hp, hindex, _⟩ := h.tail
  have hdrop : p.drop (index + 1) = u ++ y :: (rest ++ after) := by
    rw [hp, ← hindex, hv, List.append_assoc, List.drop_left]
    simp
  rw [skipIndex, hdrop, skipped_nested hu hy]
  omega

end Segment

theorem iterate_trans {γ : Type} {step : γ → Shared → Signal × γ × Shared} {k : Nat} {c c' : γ}
    {s s' : Shared} (h : iterate step k c s = (.proceed, c', s')) (m : Nat) :
    iterate step (k + m) c s = iterate step m c' s' := by
  induction k generalizing c s with
  | zero =>
    cases h
    rw [Nat.zero_add]
  | succ k ih =>
    rw [Nat.add_right_comm]
    simp only [iterate] at h ⊢
    generalize step c s = outcome at h ⊢
    obtain ⟨signal, c₁, s₁⟩ := outcome
    cases signal with
    | proceed => exact ih h
    | stop status => cases h

theorem SymbolicContext.run_of_iterate {p : List SymbolicInstr} {k : Nat}
    {w w' : SymbolicContext} {s s' : Shared} {status : Status}
    (h : iterate (SymbolicContext.step p) k w s = (.stop status, w', s')) :
    SymbolicContext.run p k w s = some (w'.report status, s') := by
  induction k generalizing w s with
  | zero => cases h
  | succ k ih =>
    simp only [iterate, run] at h ⊢
    generalize w.step p s = outcome at h ⊢
    obtain ⟨signal, w₁, s₁⟩ := outcome
    cases signal with
    | proceed => exact ih h
    | stop status =>
      cases h
      rfl

def SymbolicContext.free (who : ContextId) (index : Nat) (r : RandomStream) (count : Nat) :
    SymbolicContext where
  id := who
  index := index
  random := r
  instructions := count

namespace CodeTree

/-- Execution from an index does what an evaluation says: it goes on at a target if that has
finished, and stops with its fault otherwise. -/
def Leads (p : List SymbolicInstr) (who : ContextId) (index : Nat) (r : RandomStream) (s : Shared)
    (target : Nat) : Outcome → Prop
  | .finished r' s' => ∀ count, ∃ k count',
      iterate (SymbolicContext.step p) k (.free who index r count) s =
        (.proceed, .free who target r' count', s')
  | .faulted cause pc s' => ∀ count, ∃ k w,
      iterate (SymbolicContext.step p) k (.free who index r count) s =
        (.stop (.faulted cause pc), w, s')

variable {p : List SymbolicInstr} {who : ContextId} {index target mid : Nat} {r r' : RandomStream}
  {s s' : Shared}

theorem Leads.refl : Leads p who index r s index (.finished r s) := by
  intro count
  exact ⟨0, count, rfl⟩

theorem Leads.trans {o : Outcome} (h : Leads p who index r s mid (.finished r' s'))
    (ho : Leads p who mid r' s' target o) : Leads p who index r s target o := by
  cases o with
  | finished r₂ s₂ =>
    intro count
    obtain ⟨n, count₁, hn⟩ := h count
    obtain ⟨m, count₂, hm⟩ := ho count₁
    exact ⟨n + m, count₂, by rw [iterate_trans hn, hm]⟩
  | faulted cause pc s₂ =>
    intro count
    obtain ⟨n, count₁, hn⟩ := h count
    obtain ⟨m, w, hm⟩ := ho count₁
    exact ⟨n + m, w, by rw [iterate_trans hn, hm]⟩

theorem Leads.andThen {o : Outcome} {k : RandomStream → Shared → Outcome}
    (h : Leads p who index r s mid o) (hk : ∀ r s, Leads p who mid r s target (k r s)) :
    Leads p who index r s target (o.andThen k) := by
  cases o with
  | faulted cause pc s₁ => exact h
  | finished r₁ s₁ => exact h.trans (hk r₁ s₁)

theorem Leads.extend {o : Outcome} (h : Leads p who index r s mid o)
    (hmid : ∀ r s, Leads p who mid r s target (.finished r s)) :
    Leads p who index r s target o := by
  have hthen := h.andThen hmid
  cases o <;> exact hthen

/-! ### One instruction -/

theorem step_free {x : SymbolicInstr} {i : Instr} (hx : p[index]? = some x)
    (hop : x.op ≠ .listPreload) (hview : x.view? = some i) {flow : Flow}
    (heffect : i.effect who r s = (flow, s')) (count : Nat) :
    (SymbolicContext.free who index r count).step p s =
      let (signal, w) :=
        (SymbolicContext.free who (index + 1) (i.advanceStream r) (count + 1)).transfer
          (branchIndex p index i) (address p index) flow
      (signal, w, s') := by
  have hindex : p[(SymbolicContext.free who index r count).index]? = some x := hx
  have hlimit : (SymbolicContext.free who index r count).exhausted? = none := rfl
  have hstep : i.effect (SymbolicContext.free who index r count).id
      (SymbolicContext.free who index r count).random s = (flow, s') := heffect
  simp only [SymbolicContext.step, hindex, hlimit, if_neg hop, hview, i.execute_eq_effect, hstep]
  rfl

theorem leads_of_next {x : SymbolicInstr} {i : Instr} (hx : p[index]? = some x)
    (hop : x.op ≠ .listPreload) (hview : x.view? = some i)
    (heffect : i.effect who r s = (.next, s')) :
    Leads p who index r s (index + 1) (.finished (i.advanceStream r) s') := by
  intro count
  refine ⟨1, count + 1, ?_⟩
  simp only [iterate, step_free hx hop hview heffect, SymbolicContext.transfer]

theorem leads_of_jump {x : SymbolicInstr} {i : Instr} (hx : p[index]? = some x)
    (hop : x.op ≠ .listPreload) (hview : x.view? = some i) {t : Word}
    (heffect : i.effect who r s = (.jump t, s')) :
    Leads p who index r s (branchIndex p index i) (.finished (i.advanceStream r) s') := by
  intro count
  refine ⟨1, count + 1, ?_⟩
  simp only [iterate, step_free hx hop hview heffect, SymbolicContext.transfer]
  rfl

theorem leads_of_badRegister {x : SymbolicInstr} {i : Instr} (hx : p[index]? = some x)
    (hop : x.op ≠ .listPreload) (hview : x.view? = some i) {reg : UInt32}
    (heffect : i.effect who r s = (.badRegister reg, s')) :
    Leads p who index r s target
      (.faulted (Registers.outOfRange reg) (address p index) s') := by
  intro count
  refine ⟨1, .free who (index + 1) (i.advanceStream r) (count + 1), ?_⟩
  simp only [iterate, step_free hx hop hview heffect, SymbolicContext.transfer]

end CodeTree

/-- Goes on, if not ended by a register that does not exist. -/
def Flow.Quiet (flow : Flow) : Prop := flow = .next ∨ ∃ index, flow = .badRegister index

theorem Shared.quiet_writing (s : Shared) (reg value : Word) : (s.writing reg value).1.Quiet := by
  rw [writing_eq_slot]
  split
  case h_1 => exact .inl rfl
  case h_2 => exact .inr ⟨reg.bits, rfl⟩

theorem Shared.quiet_reading (s : Shared) (reg : Word) {k : Word → Flow × Shared}
    (h : ∀ w, (k w).1.Quiet) : (s.reading reg k).1.Quiet := by
  rw [reading_eq_slot]
  split
  case h_1 i _ => exact h (s.registers.get i)
  case h_2 => exact .inr ⟨reg.bits, rfl⟩

theorem Instr.quiet_effect {i : Instr} (h : i.opcode.isStraight = true) (who : ContextId)
    (r : RandomStream) (s : Shared) : (i.effect who r s).1.Quiet := by
  cases i
  case halt | jump | jumpIfZero | jumpIfNotZero | call | ret | ifNonzero | orElse | endIf
    | listPreload => cases h
  case nop | label | function | listDeclare => exact .inl rfl
  case loadInt | loadFloat | clear | random | listLength => exact s.quiet_writing _ _
  case unary => exact s.quiet_reading _ fun _ => s.quiet_writing _ _
  case binary => exact s.quiet_reading _ fun _ => s.quiet_reading _ fun _ => s.quiet_writing _ _
  case listRead => exact s.quiet_reading _ fun _ => s.quiet_writing _ _
  case listEdit => exact s.quiet_reading _ fun _ => s.quiet_reading _ fun _ => .inl rfl
  case listAppend | listRemove | outputInt | outputFloat =>
    exact s.quiet_reading _ fun _ => .inl rfl
  case outputList out list =>
    simp only [effect]
    split <;> exact .inl rfl

namespace CodeTree

variable {p : List SymbolicInstr} {who : ContextId} {index target : Nat} {r : RandomStream}
  {s : Shared}

theorem leads_evalStep {x : SymbolicInstr} (hx : p[index]? = some x)
    (hstraight : x.op.isStraight = true) (harity : x.operands.length = x.op.arity) :
    Leads p who index r s (index + 1) (evalStep who x (address p index) r s) := by
  obtain ⟨_, _, hskip, hop⟩ := Opcode.plain_of_isStraight hstraight
  have hpayload : x.operands.length = x.op.payload := by
    rw [Opcode.payload_of_no_skip hskip, harity]
  obtain ⟨i, hdecode⟩ := Instr.exists_decode? hpayload
  have hview : x.view? = some i := by
    rw [SymbolicInstr.view?, if_neg (by simp [hskip]), hdecode]
  have hquiet : (i.effect who r s).1.Quiet := by
    apply Instr.quiet_effect
    rw [Instr.opcode_of_decode? hdecode, hstraight]
  simp only [evalStep, hview]
  generalize heffect : i.effect who r s = outcome at hquiet ⊢
  obtain ⟨flow, s'⟩ := outcome
  rcases hquiet with hnext | ⟨reg, hbad⟩
  · obtain rfl : flow = .next := hnext
    exact leads_of_next hx hop hview heffect
  · obtain rfl : flow = .badRegister reg := hbad
    exact leads_of_badRegister hx hop hview heffect

/-! ### Members of blocks -/

theorem reading_of_read {s : Shared} {reg : UInt32} {w : Word}
    (h : s.registers.read reg = .ok w) (k : Word → Flow × Shared) : s.reading ⟨reg⟩ k = k w := by
  rw [Shared.reading, h]

theorem reading_of_fault {s : Shared} {reg : UInt32} {cause : RuntimeFault}
    (h : s.registers.read reg = .error cause) (k : Word → Flow × Shared) :
    cause = Registers.outOfRange reg ∧ s.reading ⟨reg⟩ k = (.badRegister reg, s) := by
  refine ⟨?_, by rw [Shared.reading, h]⟩
  unfold Registers.read at h
  split at h
  · cases h
  · cases h
    rfl

theorem leads_if_fault {test : UInt32} {cause : RuntimeFault}
    (hx : p[index]? = some (.ifNonzero test)) (hread : s.registers.read test = .error cause) :
    Leads p who index r s target (.faulted cause (address p index) s) := by
  have hop : Opcode.ifNonzero ≠ .listPreload := by decide
  obtain ⟨rfl, heffect⟩ :=
    reading_of_fault hread fun w => (if w.isZero then .jump .zero else .next, s)
  exact leads_of_badRegister hx hop rfl heffect

theorem leads_if_zero {test : UInt32} {w : Word} (hx : p[index]? = some (.ifNonzero test))
    (hread : s.registers.read test = .ok w) (hzero : w.isZero = true) :
    Leads p who index r s (skipIndex p .ifNonzero index) (.finished r s) := by
  have hop : Opcode.ifNonzero ≠ .listPreload := by decide
  have heffect := reading_of_read hread fun w => (if w.isZero then .jump .zero else .next, s)
  rw [if_pos hzero] at heffect
  exact leads_of_jump hx hop rfl heffect

theorem leads_if_nonzero {test : UInt32} {w : Word} (hx : p[index]? = some (.ifNonzero test))
    (hread : s.registers.read test = .ok w) (hzero : w.isZero = false) :
    Leads p who index r s (index + 1) (.finished r s) := by
  have hop : Opcode.ifNonzero ≠ .listPreload := by decide
  have heffect := reading_of_read hread fun w => (if w.isZero then .jump .zero else .next, s)
  rw [if_neg (by simp [hzero])] at heffect
  exact leads_of_next hx hop rfl heffect

theorem leads_else (hx : p[index]? = some .orElse) :
    Leads p who index r s (skipIndex p .orElse index) (.finished r s) :=
  leads_of_jump (i := .orElse .zero) hx (by decide) rfl rfl

theorem leads_end (hx : p[index]? = some .endIf) :
    Leads p who index r s (index + 1) (.finished r s) :=
  leads_of_next (i := .endIf) hx (by decide) rfl rfl

/-! ### Whole trees -/

/-- Wherever the program of a tree stands, executing it is evaluating the tree. -/
def Executes (p : List SymbolicInstr) (who : ContextId) (t : CodeTree) : Prop :=
  ∀ index pc r s, Segment p index pc t.flatten →
    Leads p who index r s (index + t.flatten.length) (t.eval who pc r s)

theorem executes_step {x : SymbolicInstr} {next : CodeTree} (hstraight : x.op.isStraight = true)
    (harity : x.operands.length = x.op.arity) (hnext : Executes p who next) :
    Executes p who (step x next) := by
  intro index pc r s hseg
  have hlength : index + (step x next).flatten.length = index + 1 + next.flatten.length := by
    simp only [flatten, List.length_cons]
    omega
  have hx : Leads p who index r s (index + 1) (evalStep who x (address p index) r s) :=
    leads_evalStep hseg.head hstraight harity
  rw [hseg.address_eq] at hx
  rw [hlength]
  exact hx.andThen fun r s => hnext _ _ r s hseg.tail

theorem executes_block {test : UInt32} {body next : CodeTree}
    (hword : BlockWord (conditionals body.flatten)) (hbody : Executes p who body)
    (hnext : Executes p who next) : Executes p who (block test body next) := by
  intro index pc r s hseg
  have hinner := hseg.tail
  have hend := hinner.right
  have hlength : index + (block test body next).flatten.length =
      index + 1 + body.flatten.length + 1 + next.flatten.length := by
    simp only [flatten, List.length_cons, List.length_append]
    omega
  rw [hlength, eval]
  cases hread : s.registers.read test with
  | error cause =>
    rw [← hseg.address_eq]
    exact leads_if_fault hseg.head hread
  | ok w =>
    have hchoice : Leads p who index r s (index + 1 + body.flatten.length + 1)
        (if w.isZero then .finished r s else body.eval who (pc + Opcode.ifNonzero.width) r s) := by
      cases hzero : w.isZero with
      | true =>
        rw [← hseg.skipIndex_eq .ifNonzero rfl hword rfl]
        exact leads_if_zero hseg.head hread hzero
      | false =>
        have htest : Leads p who index r s (index + 1) (.finished r s) :=
          leads_if_nonzero hseg.head hread hzero
        have hrun := htest.trans (hbody _ _ r s hinner.left)
        exact hrun.extend fun r s => leads_end hend.head
    exact hchoice.andThen fun r s => hnext _ _ r s hend.tail

theorem executes_choice {test : UInt32} {body alternative next : CodeTree}
    (hword : BlockWord (conditionals body.flatten))
    (hwordAlt : BlockWord (conditionals alternative.flatten)) (hbody : Executes p who body)
    (halternative : Executes p who alternative) (hnext : Executes p who next) :
    Executes p who (choice test body alternative next) := by
  intro index pc r s hseg
  have hinner := hseg.tail
  have helse := hinner.right
  have hother := helse.tail
  have hend := hother.right
  have hlength : index + (choice test body alternative next).flatten.length =
      index + 1 + body.flatten.length + 1 + alternative.flatten.length + 1 +
        next.flatten.length := by
    simp only [flatten, List.length_cons, List.length_append]
    omega
  rw [hlength, eval]
  cases hread : s.registers.read test with
  | error cause =>
    rw [← hseg.address_eq]
    exact leads_if_fault hseg.head hread
  | ok w =>
    have hchoice : Leads p who index r s
        (index + 1 + body.flatten.length + 1 + alternative.flatten.length + 1)
        (if w.isZero then
          alternative.eval who
            (pc + Opcode.ifNonzero.width + encodedWidth body.flatten + Opcode.orElse.width) r s
        else body.eval who (pc + Opcode.ifNonzero.width) r s) := by
      cases hzero : w.isZero with
      | true =>
        have htest : Leads p who index r s (index + 1 + body.flatten.length + 1)
            (.finished r s) := by
          rw [← hseg.skipIndex_eq .ifNonzero rfl hword rfl]
          exact leads_if_zero hseg.head hread hzero
        have hrun := htest.trans (halternative _ _ r s hother.left)
        exact hrun.extend fun r s => leads_end hend.head
      | false =>
        have htest : Leads p who index r s (index + 1) (.finished r s) :=
          leads_if_nonzero hseg.head hread hzero
        have hrun := htest.trans (hbody _ _ r s hinner.left)
        rw [← helse.skipIndex_eq .orElse rfl hwordAlt rfl]
        exact hrun.extend fun r s => leads_else helse.head
    exact hchoice.andThen fun r s => hnext _ _ r s hend.tail

theorem executes {t : CodeTree}
    (h : ∀ x ∈ t.steps, x.op.isStraight = true ∧ x.operands.length = x.op.arity)
    (p : List SymbolicInstr) (who : ContextId) : Executes p who t := by
  induction t with
  | done =>
    intro index pc r s _
    exact .refl
  | step x next ih =>
    obtain ⟨hstraight, harity⟩ := h x (by simp [steps])
    exact executes_step hstraight harity (ih fun y hy => h y (by simp [steps, hy]))
  | block test body next ihBody ihNext =>
    have hbody : ∀ y ∈ body.steps, _ := fun y hy => h y (by simp [steps, hy])
    have hnext : ∀ y ∈ next.steps, _ := fun y hy => h y (by simp [steps, hy])
    exact executes_block (blockWord_flatten fun y hy => (hbody y hy).1) (ihBody hbody)
      (ihNext hnext)
  | choice test body alternative next ihBody ihAlternative ihNext =>
    have hbody : ∀ y ∈ body.steps, _ := fun y hy => h y (by simp [steps, hy])
    have halternative : ∀ y ∈ alternative.steps, _ := fun y hy => h y (by simp [steps, hy])
    have hnext : ∀ y ∈ next.steps, _ := fun y hy => h y (by simp [steps, hy])
    exact executes_choice (blockWord_flatten fun y hy => (hbody y hy).1)
      (blockWord_flatten fun y hy => (halternative y hy).1) (ihBody hbody)
      (ihAlternative halternative) (ihNext hnext)

theorem step_free_end (p : List SymbolicInstr) (who : ContextId) (r : RandomStream) (count : Nat)
    (s : Shared) :
    (SymbolicContext.free who p.length r count).step p s =
      (.stop .halted, .free who p.length r count, s) := by
  have hend : p[(SymbolicContext.free who p.length r count).index]? = none :=
    List.getElem?_eq_none_iff.2 (Nat.le_refl _)
  simp only [SymbolicContext.step, hend]

theorem run_flatten {t : CodeTree}
    (h : ∀ x ∈ t.steps, x.op.isStraight = true ∧ x.operands.length = x.op.arity)
    (who : ContextId) (seed : UInt64) (s : Shared) :
    ∃ fuel report, report.status = (t.eval who 0 (.forContext seed who.ordinal) s).status ∧
      SymbolicContext.run t.flatten fuel (.start who 0 seed none) s =
        some (report, (t.eval who 0 (.forContext seed who.ordinal) s).shared) := by
  have hleads := executes h t.flatten who 0 0 (.forContext seed who.ordinal) s (.whole _)
  rw [Nat.zero_add] at hleads
  cases heval : t.eval who 0 (.forContext seed who.ordinal) s with
  | finished r' s' =>
    rw [heval] at hleads
    obtain ⟨k, count, hk⟩ := hleads 0
    have hstop : iterate (SymbolicContext.step t.flatten) (k + 1) (.start who 0 seed none) s =
        (.stop .halted, .free who t.flatten.length r' count, s') := by
      refine (iterate_trans hk 1).trans ?_
      simp only [iterate, step_free_end]
    exact ⟨k + 1, _, rfl, SymbolicContext.run_of_iterate hstop⟩
  | faulted cause pc s' =>
    rw [heval] at hleads
    obtain ⟨k, w, hk⟩ := hleads 0
    exact ⟨k, _, rfl, SymbolicContext.run_of_iterate hk⟩

/-- The program of a valid tree assembles, and executing it from its beginning always ends, as the
evaluation of the tree does. -/
theorem assembled_tree_evaluates {t : CodeTree} (h : t.Valid)
    (hwidth : encodedWidth t.flatten < 4294967296) :
    ∃ a, assemble t.flatten = .ok a ∧ ∀ who seed s, ∃ fuel report,
      report.status = (t.eval who 0 (.forContext seed who.ordinal) s).status ∧
      Context.run a.program fuel (.start who 0 seed none) s =
        some (report, (t.eval who 0 (.forContext seed who.ordinal) s).shared) := by
  have hcheck := h.wellFormed.check_eq_nil
  have hlinked := linked_of_check hcheck
  refine ⟨link t.flatten, assemble_eq_ok_iff.2 ⟨hcheck, rfl⟩, ?_⟩
  intro who seed s
  obtain ⟨fuel, report, hstatus, hrun⟩ :=
    run_flatten (fun x hx => ⟨h.straight x hx, h.arity x hx⟩) who seed s
  have hsteady : (SymbolicContext.start who 0 seed none).Steady t.flatten := .inl rfl
  have hwords := run_locate hlinked hwidth fuel hsteady s
  rw [SymbolicContext.locate_start, address_zero, hrun] at hwords
  exact ⟨fuel, report, hstatus, hwords⟩

/-- A choice inside a choice, with a branch that changes the register it was tested by. -/
def nestedTree : CodeTree :=
  .step (.label 7) (.choice 0
    (.step (.loadInt 0 0) (.block 1 (.step (.loadInt 2 10) .done) .done))
    (.choice 1 .done (.step (.loadInt 2 30) .done) .done)
    (.step (.outputInt 0 2) .done))

theorem nestedTree_valid : nestedTree.Valid where
  straight := by decide
  arity := by decide
  markers := by decide
  functionIds := by
    intro id hid
    simp [nestedTree, steps, SymbolicInstr.function, SymbolicInstr.label, SymbolicInstr.loadInt,
      SymbolicInstr.outputInt] at hid

theorem assembled_nestedTree_evaluates :
    ∃ a, assemble nestedTree.flatten = .ok a ∧ ∀ who seed s, ∃ fuel report,
      report.status = (nestedTree.eval who 0 (.forContext seed who.ordinal) s).status ∧
      Context.run a.program fuel (.start who 0 seed none) s =
        some (report, (nestedTree.eval who 0 (.forContext seed who.ordinal) s).shared) :=
  assembled_tree_evaluates nestedTree_valid (by decide)

end CodeTree

end RegisterMachine
