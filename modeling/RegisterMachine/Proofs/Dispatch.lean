import RegisterMachine.Proofs.Executions

/-!
# Dispatch

What a step does once its instruction is known, apart from any program. Of the registers that an
instruction names, sources are looked up before the destination: the first that does not exist is
reported, and only if all of them exist the instruction asks control for what its kind asks for.
-/

namespace RegisterMachine

/-- What an instruction may ask of control once all its registers are found. -/
def Instr.requests : Instr → List Flow
  | .halt => [.halt]
  | .jump target => [.jump target]
  | .jumpIfZero _ target | .jumpIfNotZero _ target => [.next, .jump target]
  | .ifNonzero _ skip => [.next, .jump skip]
  | .orElse skip => [.jump skip]
  | .call target => [.call target]
  | .ret => [.ret]
  | _ => [.next]

/-- Registers an instruction names, in the order in which it looks them up. -/
def Instr.accesses (i : Instr) : List Word := i.sources ++ i.destination?.toList

def firstBad? (regs : List Word) : Option Word := regs.find? fun w => registerCount ≤ w.toNat

/-- The first register that does not exist is reported; if all exist, one of some requests is
made. -/
def Flow.Follows (flow : Flow) (regs : List Word) (requests : List Flow) : Prop :=
  match firstBad? regs with
  | some w => flow = .badRegister w.bits
  | none => flow ∈ requests

theorem Registers.slot?_eq_none_iff {w : Word} :
    slot? w.bits = none ↔ registerCount ≤ w.toNat := by
  unfold slot? Word.toNat
  split
  case isTrue hlt => simp only [reduceCtorEq, false_iff]; omega
  case isFalse hge => simp only [true_iff]; omega

theorem Registers.toNat_of_slot? {w : Word} {r : Fin registerCount} (h : slot? w.bits = some r) :
    w.toNat = r.val := by
  unfold slot? at h
  split at h
  case isTrue =>
    cases h
    rfl
  case isFalse => cases h

theorem firstBad?_cons_of_slot? {reg : Word} {r : Fin registerCount}
    (h : Registers.slot? reg.bits = some r) (rest : List Word) :
    firstBad? (reg :: rest) = firstBad? rest := by
  have hlt : ¬ registerCount ≤ reg.toNat := by
    rw [← Registers.slot?_eq_none_iff, h]
    exact Option.some_ne_none r
  rw [firstBad?, List.find?_cons_of_neg (by simpa using hlt)]
  rfl

theorem firstBad?_cons_of_missing {reg : Word} (h : Registers.slot? reg.bits = none)
    (rest : List Word) : firstBad? (reg :: rest) = some reg := by
  have hle := Registers.slot?_eq_none_iff.1 h
  rw [firstBad?, List.find?_cons_of_pos (by simpa using hle)]

namespace Shared

variable (s : Shared) (reg : Word)

theorem follows_writing (value : Word) : (s.writing reg value).1.Follows [reg] [.next] := by
  rw [writing_eq_slot, Flow.Follows]
  cases hslot : Registers.slot? reg.bits with
  | some r =>
    rw [firstBad?_cons_of_slot? hslot]
    exact List.mem_singleton_self _
  | none => rw [firstBad?_cons_of_missing hslot]

theorem follows_reading {k : Word → Flow × Shared} {rest : List Word} {requests : List Flow}
    (h : ∀ w, (k w).1.Follows rest requests) :
    (s.reading reg k).1.Follows (reg :: rest) requests := by
  rw [reading_eq_slot, Flow.Follows]
  cases hslot : Registers.slot? reg.bits with
  | some r =>
    rw [firstBad?_cons_of_slot? hslot]
    exact h (s.registers.get r)
  | none => rw [firstBad?_cons_of_missing hslot]

end Shared

namespace Instr

variable {i : Instr} {who : ContextId} {r : RandomStream} {s : Shared}

theorem follows_effect (i : Instr) (who : ContextId) (r : RandomStream) (s : Shared) :
    (i.effect who r s).1.Follows i.accesses i.requests := by
  have done {flow : Flow} {requests : List Flow} (h : flow ∈ requests) :
      flow.Follows [] requests := h
  cases i with
  | loadInt | loadFloat | clear | random | listLength => exact s.follows_writing _ _
  | unary | listRead => exact s.follows_reading _ fun _ => s.follows_writing _ _
  | binary =>
    exact s.follows_reading _ fun _ => s.follows_reading _ fun _ => s.follows_writing _ _
  | jumpIfZero | jumpIfNotZero | ifNonzero =>
    refine s.follows_reading _ fun w => done ?_
    cases w.isZero <;> simp [requests]
  | listAppend | listRemove | outputInt | outputFloat =>
    exact s.follows_reading _ fun _ => done (List.mem_singleton_self _)
  | listEdit =>
    exact s.follows_reading _ fun _ => s.follows_reading _ fun _ =>
      done (List.mem_singleton_self _)
  | outputList out list =>
    simp only [effect]
    split <;> exact done (List.mem_singleton_self _)
  | _ => exact done (List.mem_singleton_self _)

theorem badRegister_notMem_requests (i : Instr) (index : UInt32) :
    Flow.badRegister index ∉ i.requests := by
  cases i <;> simp [requests]

theorem effect_eq_badRegister_iff {index : UInt32} :
    (i.effect who r s).1 = .badRegister index ↔ firstBad? i.accesses = some ⟨index⟩ := by
  have hfollows := i.follows_effect who r s
  unfold Flow.Follows at hfollows
  split at hfollows
  case h_1 w hbad =>
    rw [hfollows, hbad]
    constructor
    · intro h
      cases h
      rfl
    · intro h
      cases h
      rfl
  case h_2 hnone =>
    rw [hnone]
    simp only [reduceCtorEq, iff_false]
    intro h
    rw [h] at hfollows
    exact i.badRegister_notMem_requests index hfollows

theorem badRegister_or_mem_requests (i : Instr) (who : ContextId) (r : RandomStream)
    (s : Shared) : (∃ index, (i.effect who r s).1 = .badRegister index) ∨
      (i.effect who r s).1 ∈ i.requests := by
  have hfollows := i.follows_effect who r s
  unfold Flow.Follows at hfollows
  split at hfollows
  case h_1 w _ => exact .inl ⟨w.bits, hfollows⟩
  case h_2 => exact .inr hfollows

theorem eq_call_of_effect {target : Word} (h : (i.effect who r s).1 = .call target) :
    i = .call target := by
  have hflow := i.badRegister_or_mem_requests who r s
  rw [h] at hflow
  rcases hflow with ⟨index, hbad⟩ | hmem
  · cases hbad
  · cases i <;> simp [requests] at hmem
    rw [hmem]

theorem eq_ret_of_effect (h : (i.effect who r s).1 = .ret) : i = .ret := by
  have hflow := i.badRegister_or_mem_requests who r s
  rw [h] at hflow
  rcases hflow with ⟨index, hbad⟩ | hmem
  · cases hbad
  · cases i <;> simp [requests] at hmem
    rfl

end Instr

namespace Context

variable {p : Program} {c c' : Context} {i : Instr} {s s' : Shared}

/-- Executes an instruction that stands at the context's address. -/
def dispatch (c : Context) (i : Instr) (s : Shared) : Signal × Context × Shared :=
  let (flow, s) := i.effect c.id c.random s
  let (signal, c) := (c.pass i).transfer c.pc flow
  (signal, c, s)

theorem signal_dispatch (c : Context) (i : Instr) (s : Shared) :
    (c.dispatch i s).1 = ((c.pass i).transfer c.pc (i.effect c.id c.random s).1).1 := rfl

theorem step_eq_dispatch (h : c.current? p = some i) (s : Shared) :
    c.step p s = c.dispatch i s := step_of_current? h s

theorem stack_transfer (c : Context) (pc : Nat) {flow : Flow}
    (hcall : ∀ target, flow ≠ .call target) (hret : flow ≠ .ret) :
    (c.transfer pc flow).2.stack = c.stack := by
  cases flow with
  | call target => exact absurd rfl (hcall target)
  | ret => exact absurd rfl hret
  | _ => rfl

theorem maxDepth_transfer (c : Context) (pc : Nat) (flow : Flow) :
    (c.transfer pc flow).2.stack.maxDepth = c.stack.maxDepth := by
  cases flow with
  | call target =>
    simp only [transfer]
    cases hpush : c.stack.push? c.pc with
    | none => rfl
    | some stack => exact (CallStack.frames_of_push? hpush).2
  | ret =>
    simp only [transfer]
    cases hpop : c.stack.pop? with
    | none => rfl
    | some top => exact (CallStack.frames_of_pop? hpop).2
  | _ => rfl

/-- Control fails at a register that does not exist and at a call that does not fit, and nowhere
else. -/
theorem transfer_eq_faulted_iff {pc pc' : Nat} {flow : Flow} {cause : RuntimeFault} :
    (c.transfer pc flow).1 = .stop (.faulted cause pc') ↔
      pc' = pc ∧ ((∃ index, flow = .badRegister index ∧ cause = Registers.outOfRange index) ∨
        ∃ target, flow = .call target ∧ c.stack.depth = c.stack.maxDepth ∧
          cause = c.stack.overflow) := by
  cases flow with
  | badRegister index =>
    simp only [transfer, Signal.stop.injEq, Status.faulted.injEq, Flow.badRegister.injEq,
      reduceCtorEq, false_and, exists_false, or_false, exists_eq_left', and_comm]
    constructor <;> rintro ⟨rfl, rfl⟩ <;> exact ⟨rfl, rfl⟩
  | call target =>
    rw [← c.stack.push?_eq_none_iff c.pc]
    simp only [transfer]
    cases hpush : c.stack.push? c.pc with
    | none =>
      simp only [Signal.stop.injEq, Status.faulted.injEq, Flow.call.injEq, reduceCtorEq, false_and,
        exists_false, false_or, exists_eq_left', true_and]
      constructor <;> rintro ⟨rfl, rfl⟩ <;> exact ⟨rfl, rfl⟩
    | some stack => simp
  | ret =>
    simp only [transfer]
    cases c.stack.pop? <;> simp
  | _ => simp [transfer]

end Context

end RegisterMachine
