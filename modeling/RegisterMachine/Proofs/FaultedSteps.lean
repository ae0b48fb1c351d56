import RegisterMachine.Proofs.Executions

/-!
# Steps that fail

An instruction changes the shared state only if control goes on right behind it. A step that fails
therefore changes nothing that contexts share, nor the calls its context is in, and a run that
ends by a fault leaves exactly what the instructions executed before the fault made.
-/

namespace RegisterMachine

/-- Control goes on with the next instruction, or nothing has changed. -/
def Shared.Settled (s : Shared) (outcome : Flow × Shared) : Prop :=
  outcome.1 = .next ∨ outcome.2 = s

namespace Shared

theorem settled_writing (s : Shared) (reg value : Word) : s.Settled (s.writing reg value) := by
  rw [writing_eq_slot]
  split
  case h_1 => exact .inl rfl
  case h_2 => exact .inr rfl

theorem settled_reading (s : Shared) (reg : Word) {k : Word → Flow × Shared}
    (h : ∀ w, s.Settled (k w)) : s.Settled (s.reading reg k) := by
  rw [reading_eq_slot]
  split
  case h_1 i _ => exact h (s.registers.get i)
  case h_2 => exact .inr rfl

end Shared

theorem Instr.settled_effect (i : Instr) (who : ContextId) (r : RandomStream) (s : Shared) :
    s.Settled (i.effect who r s) := by
  cases i with
  | loadInt | loadFloat | clear | random | listLength => exact s.settled_writing _ _
  | unary | listRead => exact s.settled_reading _ fun _ => s.settled_writing _ _
  | binary =>
    exact s.settled_reading _ fun _ => s.settled_reading _ fun _ => s.settled_writing _ _
  | jumpIfZero | jumpIfNotZero | ifNonzero => exact s.settled_reading _ fun _ => .inr rfl
  | listAppend | listRemove | outputInt | outputFloat =>
    exact s.settled_reading _ fun _ => .inl rfl
  | listEdit => exact s.settled_reading _ fun _ => s.settled_reading _ fun _ => .inl rfl
  | outputList out list =>
    simp only [effect]
    split <;> exact .inl rfl
  | listDeclare => exact .inl rfl
  | _ => exact .inr rfl

/-- Found while an instruction is executed, not before. -/
def RuntimeFault.isRaised : RuntimeFault → Bool
  | .registerOutOfRange .. | .stackOverflow .. => true
  | _ => false

theorem RuntimeFault.isRaised_iff {cause : RuntimeFault} :
    cause.isRaised = true ↔ (∃ index max, cause = .registerOutOfRange index max) ∨
      ∃ maxDepth, cause = .stackOverflow maxDepth := by
  cases cause <;> simp [isRaised]

namespace Context

variable {p : Program} {c c' : Context} {s s' t : Shared}

theorem transfer_faulted {pc pc' : Nat} {flow : Flow} {cause : RuntimeFault}
    (h : c.transfer pc flow = (.stop (.faulted cause pc'), c')) :
    flow ≠ .next ∧ c' = c ∧ cause.isRaised = true ∧ pc' = pc := by
  cases flow with
  | next => cases h
  | jump target => cases h
  | halt => cases h
  | badRegister index =>
    cases h
    exact ⟨Flow.noConfusion, rfl, rfl, rfl⟩
  | call target =>
    simp only [transfer] at h
    split at h
    case h_1 => cases h
    case h_2 =>
      cases h
      exact ⟨Flow.noConfusion, rfl, rfl, rfl⟩
  | ret =>
    simp only [transfer] at h
    split at h <;> cases h

/-- What a step that fails leaves. -/
structure LeftByFault (c : Context) (s : Shared) (cause : RuntimeFault) (pc : Nat) (c' : Context)
    (s' : Shared) : Prop where
  shared : s' = s
  stack : c'.stack = c.stack
  instructions : c'.instructions = c.instructions + if cause.isRaised then 1 else 0
  pc : pc = c.pc

theorem leftByFault_of_step {cause : RuntimeFault} {pc : Nat}
    (h : c.step p s = (.stop (.faulted cause pc), c', s')) : LeftByFault c s cause pc c' s' := by
  unfold step at h
  split at h
  case h_1 => cases h
  case h_2 =>
    cases h
    exact ⟨rfl, rfl, rfl, rfl⟩
  case h_3 =>
    cases h
    exact ⟨rfl, rfl, rfl, rfl⟩
  case h_4 i _ =>
    split at h
    case h_1 =>
      cases h
      exact ⟨rfl, rfl, rfl, rfl⟩
    case h_2 =>
      rw [i.execute_eq_effect] at h
      obtain ⟨hsignal, hrest⟩ := Prod.mk.inj h
      obtain ⟨hcontext, hshared⟩ := Prod.mk.inj hrest
      have htransfer : (c.pass i).transfer c.pc (i.effect c.id c.random s).1 =
          (.stop (.faulted cause pc), c') := Prod.ext hsignal hcontext
      obtain ⟨hnext, rfl, hraised, hpc⟩ := transfer_faulted htransfer
      refine ⟨?_, rfl, ?_, hpc⟩
      · rw [← hshared]
        exact (i.settled_effect c.id c.random s).resolve_left hnext
      · rw [if_pos hraised]
        rfl

/-- A context executes instructions, one after another, and goes on after each. -/
inductive Performs (p : Program) : Context → Shared → List Instr → Context → Shared → Prop
  | refl (c : Context) (s : Shared) : Performs p c s [] c s
  | step {c c' c'' : Context} {s s' s'' : Shared} {i : Instr} {rest : List Instr} :
      c.current? p = some i → c.step p s = (.proceed, c', s') → Performs p c' s' rest c'' s'' →
      Performs p c s (i :: rest) c'' s''

/-- What instructions make of a state when they are executed one after another. -/
def produced (who : ContextId) : List Instr → RandomStream → Shared → Shared
  | [], _, s => s
  | i :: rest, r, s => produced who rest (i.advanceStream r) (i.effect who r s).2

theorem current?_of_proceed (h : c.step p s = (.proceed, c', s')) :
    ∃ i, c.current? p = some i := by
  cases hi : c.current? p with
  | some i => exact ⟨i, rfl⟩
  | none =>
    obtain ⟨status, hstep⟩ := step_of_current?_none hi
    rw [hstep] at h
    cases h

theorem kept_by_transfer (c : Context) (pc : Nat) (flow : Flow) :
    (c.transfer pc flow).2.random = c.random ∧
      (c.transfer pc flow).2.instructions = c.instructions := by
  unfold transfer
  split <;> first | exact ⟨rfl, rfl⟩ | (split <;> exact ⟨rfl, rfl⟩)

theorem proceed_eq {i : Instr} (hi : c.current? p = some i)
    (h : c.step p s = (.proceed, c', s')) :
    s' = (i.effect c.id c.random s).2 ∧ c'.id = c.id ∧
      c'.random = i.advanceStream c.random ∧ c'.instructions = c.instructions + 1 := by
  have hid := id_step p c s
  rw [step_of_current? hi] at h hid
  obtain ⟨_, hrest⟩ := Prod.mk.inj h
  obtain ⟨hcontext, hshared⟩ := Prod.mk.inj hrest
  subst hcontext
  obtain ⟨hrandom, hinstructions⟩ := kept_by_transfer (c.pass i) c.pc (i.effect c.id c.random s).1
  exact ⟨hshared.symm, hid, hrandom, hinstructions⟩

theorem Performs.produced_eq {done : List Instr} (h : Performs p c s done c' t) :
    t = produced c.id done c.random s ∧ c'.instructions = c.instructions + done.length := by
  induction h with
  | refl c s => exact ⟨rfl, rfl⟩
  | @step c c₁ c' s s₁ t i rest hi hstep _ ih =>
    obtain ⟨rfl, hid, hrandom, hinstructions⟩ := proceed_eq hi hstep
    obtain ⟨hshared, hcount⟩ := ih
    refine ⟨?_, ?_⟩
    · rw [hshared, hid, hrandom]
      rfl
    · rw [hcount, hinstructions, List.length_cons]
      omega

/-- A run that ends by a fault executes some instructions and then takes a step that fails. -/
theorem performs_of_run {fuel : Nat} {report : ContextReport} {cause : RuntimeFault} {pc : Nat}
    (h : run p fuel c s = some (report, t)) (hstatus : report.status = .faulted cause pc) :
    ∃ done c' c'', Performs p c s done c' t ∧
      c'.step p t = (.stop (.faulted cause pc), c'', t) ∧
      report.instructions = c''.instructions := by
  induction fuel generalizing c s with
  | zero => cases h
  | succ fuel ih =>
    simp only [run] at h
    cases hstep : c.step p s with
    | mk signal outcome =>
      obtain ⟨c₁, s₁⟩ := outcome
      rw [hstep] at h
      cases signal with
      | proceed =>
        obtain ⟨done, c', c'', hperforms, hfails, hreport⟩ := ih h
        obtain ⟨i, hi⟩ := current?_of_proceed hstep
        exact ⟨i :: done, c', c'', .step hi hstep hperforms, hfails, hreport⟩
      | stop status =>
        cases h
        obtain rfl : status = .faulted cause pc := hstatus
        obtain rfl := (leftByFault_of_step hstep).shared
        exact ⟨[], c, c₁, .refl c _, hstep, rfl⟩

end Context

/-- A step that fails leaves registers, lists, output and call stack as they were, and counts as
an instruction exactly if it got as far as executing one. A run that fails leaves what the
instructions before the failing one produced. -/
theorem faults_change_nothing {p : Program} {c : Context} {s : Shared} {cause : RuntimeFault}
    {pc : Nat} :
    (∀ c' s', c.step p s = (.stop (.faulted cause pc), c', s') →
      s'.registers = s.registers ∧ s'.lists = s.lists ∧ s'.output = s.output ∧
        c'.stack = c.stack ∧
        (c'.instructions = c.instructions + 1 ↔
          (∃ index max, cause = .registerOutOfRange index max) ∨
            ∃ maxDepth, cause = .stackOverflow maxDepth) ∧
        (c'.instructions = c.instructions ∨ c'.instructions = c.instructions + 1)) ∧
    ∀ fuel report t, Context.run p fuel c s = some (report, t) →
      report.status = .faulted cause pc →
      ∃ done c', Context.Performs p c s done c' t ∧ c'.pc = pc ∧
        (c'.step p t).1 = .stop (.faulted cause pc) ∧
        t = Context.produced c.id done c.random s ∧
        report.instructions = c.instructions + done.length + if cause.isRaised then 1 else 0 := by
  constructor
  · intro c' s' hstep
    have left := Context.leftByFault_of_step hstep
    obtain rfl := left.shared
    have hcount := left.instructions
    refine ⟨rfl, rfl, rfl, left.stack, ?_, ?_⟩
    · rw [← RuntimeFault.isRaised_iff, hcount]
      cases cause.isRaised <;> simp
    · cases hraised : cause.isRaised <;> simp [hcount, hraised]
  · intro fuel report t hrun hstatus
    obtain ⟨done, c', c'', hperforms, hfails, hreport⟩ := Context.performs_of_run hrun hstatus
    obtain ⟨hshared, hinstructions⟩ := hperforms.produced_eq
    have left := Context.leftByFault_of_step hfails
    refine ⟨done, c', hperforms, left.pc.symm, by rw [hfails], hshared, ?_⟩
    rw [hreport, left.instructions, hinstructions]

def emitsThenFails : Program where
  words := (Instr.encode (.outputInt ⟨7⟩ ⟨0⟩) ++ Instr.encode (.unary .move ⟨0⟩ ⟨4096⟩)).toArray

theorem emitsThenFails_changes_nothing :
    ∃ report t, Context.run emitsThenFails 2 (.start .main 0 42 none) ({} : Shared) = some (report, t) ∧
      report.status = .faulted (.registerOutOfRange 4096 4095) 3 ∧
      t.output.entries.toList = [⟨7, .int 0, .main⟩] ∧
      ∃ done c', Context.Performs emitsThenFails (.start .main 0 42 none) {} done c' t ∧
        c'.pc = 3 ∧
        (c'.step emitsThenFails t).1 = .stop (.faulted (.registerOutOfRange 4096 4095) 3) ∧
        t = Context.produced .main done (Context.start .main 0 42 none).random {} ∧
        report.instructions = 0 + done.length + 1 := by
  obtain ⟨report, t, hrun, hstatus, houtput⟩ :
      ∃ report t, Context.run emitsThenFails 2 (.start .main 0 42 none) ({} : Shared) = some (report, t) ∧
        report.status = .faulted (.registerOutOfRange 4096 4095) 3 ∧
        t.output.entries.toList = [⟨7, .int 0, .main⟩] := ⟨_, _, rfl, rfl, rfl⟩
  exact ⟨report, t, hrun, hstatus, houtput, faults_change_nothing.2 2 report t hrun hstatus⟩

end RegisterMachine
