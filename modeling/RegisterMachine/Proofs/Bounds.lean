import RegisterMachine.Proofs.CheckedExecution
import RegisterMachine.Proofs.Executions

/-!
# Arbitrary words

Words need not come from an assembler: they may jump into operands, past the end or to any
address, and name registers and lists that do not exist. Whatever they are, a context stays within
its bounds, executes with every access in range, and fails only by one of five faults, at the
address of the instruction it was about to execute.
-/

namespace RegisterMachine

namespace Program

variable {p : Program} {pc : Nat}

theorem fetch?_instr_le {i : Instr} (h : p.fetch? pc = some (.instr i)) :
    pc + i.width ≤ p.size := by
  have hpc : pc < p.words.size := lt_size_of_fetch? h
  obtain ⟨word, hword, hf⟩ := Option.map_eq_some_iff.1 h
  split at hf
  case h_1 => cases hf
  case h_2 op hop =>
    rcases Nat.lt_or_ge (p.words.size - pc) op.width with hshort | hfits
    · rw [fetch?_of_truncated hword hop hshort] at h
      cases h
    · obtain ⟨j, hj, hopcode, _⟩ := fetch?_of_complete hword hop hfits
      obtain rfl : i = j := by
        rw [h] at hj
        cases hj
        rfl
      have hwidth : i.width = op.width := congrArg Opcode.width hopcode
      have hsize : p.size = p.words.size := rfl
      omega

theorem fetch?_unknown {word : Word} (h : p.fetch? pc = some (.unknown word)) :
    p.word? pc = some word ∧ Opcode.ofId? word.toNat = none := by
  obtain ⟨w, hw, hf⟩ := Option.map_eq_some_iff.1 h
  split at hf
  case h_1 hop =>
    cases hf
    exact ⟨hw, hop⟩
  case h_2 => split at hf <;> cases hf

theorem fetch?_truncated {op : Opcode} {available : Nat}
    (h : p.fetch? pc = some (.truncated op available)) :
    available = p.size - pc ∧ available < op.width := by
  obtain ⟨word, hword, hf⟩ := Option.map_eq_some_iff.1 h
  split at hf
  case h_1 => cases hf
  case h_2 op' hop =>
    rcases Nat.lt_or_ge (p.words.size - pc) op'.width with hshort | hfits
    · rw [fetch?_of_truncated hword hop hshort] at h
      cases h
      exact ⟨rfl, hshort⟩
    · obtain ⟨j, hj, _⟩ := fetch?_of_complete hword hop hfits
      rw [h] at hj
      cases hj

end Program

/-- Reports no register that exists. -/
def Flow.Honest (flow : Flow) : Prop :=
  ∀ index, flow = .badRegister index → registerCount ≤ index.toNat

theorem Flow.honest_next : Flow.next.Honest := by
  intro index h
  cases h

theorem Flow.honest_jump (target : Word) : (Flow.jump target).Honest := by
  intro index h
  cases h

theorem Flow.honest_badRegister {reg : UInt32} (h : Registers.slot? reg = none) :
    (Flow.badRegister reg).Honest := by
  intro index heq
  cases heq
  unfold Registers.slot? at h
  split at h
  case isTrue => cases h
  case isFalse hout => exact Nat.not_lt.1 hout

theorem Shared.honest_writing (s : Shared) (reg value : Word) :
    (s.writing reg value).1.Honest := by
  rw [writing_eq_slot]
  split
  case h_1 => exact Flow.honest_next
  case h_2 hslot => exact Flow.honest_badRegister hslot

theorem Shared.honest_reading (s : Shared) (reg : Word) {k : Word → Flow × Shared}
    (h : ∀ w, (k w).1.Honest) : (s.reading reg k).1.Honest := by
  rw [reading_eq_slot]
  split
  case h_1 i _ => exact h (s.registers.get i)
  case h_2 hslot => exact Flow.honest_badRegister hslot

theorem Instr.honest_effect (i : Instr) (who : ContextId) (r : RandomStream) (s : Shared) :
    (i.effect who r s).1.Honest := by
  cases i
  case nop | label | function | endIf | listPreload | listDeclare => exact Flow.honest_next
  case jump | orElse => exact Flow.honest_jump _
  case halt | call | ret =>
    intro index h
    cases h
  case loadInt | loadFloat | clear | random | listLength => exact s.honest_writing _ _
  case unary | listRead => exact s.honest_reading _ fun _ => s.honest_writing _ _
  case binary => exact s.honest_reading _ fun _ => s.honest_reading _ fun _ => s.honest_writing _ _
  case jumpIfZero | jumpIfNotZero | ifNonzero =>
    refine s.honest_reading _ fun w => ?_
    cases w.isZero
    all_goals first | exact Flow.honest_next | exact Flow.honest_jump _
  case listAppend | listRemove | outputInt | outputFloat =>
    exact s.honest_reading _ fun _ => Flow.honest_next
  case listEdit => exact s.honest_reading _ fun _ => s.honest_reading _ fun _ => Flow.honest_next
  case outputList out list =>
    simp only [effect]
    split <;> exact Flow.honest_next

/-! ### Bounds of a context -/

namespace Context

/-- A context all of whose addresses fit in thirty-two bits. -/
structure Bounded (c : Context) : Prop where
  pc : c.pc < 4294967296
  frames : ∀ pc ∈ c.stack.frames, pc < 4294967296
  maxDepth : c.stack.maxDepth = maxCallDepth

theorem bounded_start (id : ContextId) (entry : UInt32) (seed : UInt64) (limit : Option Nat) :
    (start id entry.toNat seed limit).Bounded :=
  ⟨entry.toNat_lt, fun _ hpc => absurd hpc List.not_mem_nil, rfl⟩

variable {p : Program} {c c' : Context} {s s' : Shared}

theorem Bounded.depth_le (h : c.Bounded) : c.stack.depth ≤ 256 := by
  have hle := c.stack.depth_le
  rwa [h.maxDepth] at hle

theorem Bounded.transfer (h : c.Bounded) (pc : Nat) (flow : Flow) :
    (c.transfer pc flow).2.Bounded := by
  cases flow with
  | jump target => exact ⟨target.toNat_lt, h.frames, h.maxDepth⟩
  | call target =>
    unfold Context.transfer CallStack.push?
    by_cases hroom : c.stack.frames.length < c.stack.maxDepth
    · simp only [dif_pos hroom]
      refine ⟨target.toNat_lt, ?_, h.maxDepth⟩
      intro pc hpc
      rcases List.mem_cons.1 hpc with rfl | hpc
      · exact h.pc
      · exact h.frames pc hpc
    · simp only [dif_neg hroom]
      exact h
  | ret =>
    obtain ⟨id, pc, ⟨frames, maxDepth, hle⟩, random, instructions, limit⟩ := c
    cases frames with
    | nil => exact h
    | cons top rest =>
      exact ⟨h.frames top List.mem_cons_self,
        fun pc hpc => h.frames pc (List.mem_cons_of_mem top hpc), h.maxDepth⟩
  | _ => exact h

theorem Bounded.step (h : c.Bounded) (hsize : p.size < 4294967296) (s : Shared) :
    (c.step p s).2.1.Bounded := by
  cases hcurrent : c.current? p with
  | none =>
    obtain ⟨status, hstep⟩ := step_of_current?_none hcurrent
    rw [hstep]
    exact h
  | some i =>
    have hfetch := (current?_eq_some_iff.1 hcurrent).1
    have hle := Program.fetch?_instr_le hfetch
    have hpass : (c.pass i).Bounded :=
      ⟨Nat.lt_of_le_of_lt hle hsize, h.frames, h.maxDepth⟩
    rw [step_of_current? hcurrent]
    exact hpass.transfer _ _

theorem Bounded.reaches (h : c.Bounded) (hsize : p.size < 4294967296)
    (hreach : Reaches p c s c' s') : c'.Bounded := by
  induction hreach with
  | refl => exact h
  | @step c c' c'' s s' s'' hstep _ ih =>
    have hnext := h.step hsize s
    rw [hstep] at hnext
    exact ih hnext

/-! ### Faults of a step -/

/-- The faults a context can end by, each with what it is about. -/
inductive Raises (p : Program) (c : Context) : RuntimeFault → Prop
  | stackOverflow : c.stack.depth = 256 → Raises p c (.stackOverflow 256)
  | unknownOpcode {word : Word} : p.word? c.pc = some word → Opcode.ofId? word.toNat = none →
      Raises p c (.unknownOpcode word)
  | registerOutOfRange {index : UInt32} : 4096 ≤ index.toNat →
      Raises p c (.registerOutOfRange index 4095)
  | truncatedInstruction {op : Opcode} : p.size - c.pc < op.width →
      Raises p c (.truncatedInstruction op op.width (p.size - c.pc))
  | instructionLimitExceeded {limit : Nat} : c.limit = some limit → limit ≤ c.instructions →
      Raises p c (.instructionLimitExceeded limit)

theorem depth_of_push?_eq_none (h : c.Bounded) {pc : Nat} (hpush : c.stack.push? pc = none) :
    c.stack.depth = 256 := by
  unfold CallStack.push? at hpush
  by_cases hroom : c.stack.frames.length < c.stack.maxDepth
  · rw [dif_pos hroom] at hpush
    cases hpush
  · have hle := h.depth_le
    have hdepth : c.stack.maxDepth = 256 := h.maxDepth
    have hlength : c.stack.depth = c.stack.frames.length := rfl
    omega

theorem raises_of_transfer (h : c.Bounded) {i : Instr} {flow : Flow} {cause : RuntimeFault}
    {pc pc' : Nat} (hhonest : flow.Honest)
    (hstop : ((c.pass i).transfer pc flow).1 = .stop (.faulted cause pc')) :
    pc' = pc ∧ c.Raises p cause := by
  have hstack : (c.pass i).stack = c.stack := rfl
  cases flow with
  | call target =>
    simp only [Context.transfer, hstack] at hstop
    cases hpush : c.stack.push? (c.pass i).pc with
    | some stack =>
      rw [hpush] at hstop
      cases hstop
    | none =>
      rw [hpush] at hstop
      cases hstop
      rw [CallStack.overflow, h.maxDepth]
      exact ⟨rfl, .stackOverflow (depth_of_push?_eq_none h hpush)⟩
  | ret =>
    simp only [Context.transfer, hstack] at hstop
    cases hpop : c.stack.pop? with
    | some top =>
      rw [hpop] at hstop
      cases hstop
    | none =>
      rw [hpop] at hstop
      cases hstop
  | badRegister index =>
    cases hstop
    exact ⟨rfl, .registerOutOfRange (hhonest index rfl)⟩
  | next => cases hstop
  | jump target => cases hstop
  | halt => cases hstop

theorem raises_of_step (h : c.Bounded) {cause : RuntimeFault} {pc : Nat}
    (hstop : (c.step p s).1 = .stop (.faulted cause pc)) : pc = c.pc ∧ c.Raises p cause := by
  unfold step at hstop
  cases hfetch : p.fetch? c.pc with
  | none =>
    rw [hfetch] at hstop
    cases hstop
  | some f =>
    rw [hfetch] at hstop
    cases f with
    | unknown word =>
      cases hstop
      obtain ⟨hword, hop⟩ := Program.fetch?_unknown hfetch
      exact ⟨rfl, .unknownOpcode hword hop⟩
    | truncated op available =>
      cases hstop
      obtain ⟨rfl, hshort⟩ := Program.fetch?_truncated hfetch
      exact ⟨rfl, .truncatedInstruction hshort⟩
    | instr i =>
      cases hlimit : c.exhausted? with
      | some limit =>
        rw [hlimit] at hstop
        cases hstop
        obtain ⟨hsome, hle⟩ := Option.filter_eq_some_iff.1 hlimit
        exact ⟨rfl, .instructionLimitExceeded hsome (of_decide_eq_true hle)⟩
      | none =>
        simp only [hlimit, i.execute_eq_effect] at hstop
        exact raises_of_transfer h (i.honest_effect c.id c.random s) hstop

end Context

/-- A context and a shared state within their bounds. -/
structure WithinBounds (c : Context) (s : Shared) : Prop where
  pc : c.pc < 4294967296
  depth : c.stack.depth ≤ 256
  registers : s.plain.registers.size = 4096
  lists : s.plain.lists.size = 128
  list : ∀ l ∈ s.plain.lists, l.items.size = 1024 ∧ l.length ≤ 1024 ∧
    (l.declared = false → l.length = 0)

theorem Context.Bounded.within {c : Context} (h : c.Bounded) (s : Shared) : WithinBounds c s where
  pc := h.pc
  depth := h.depth_le
  registers := s.registers.cells.size_toArray
  lists := by
    rw [Shared.plain, Array.size_map]
    exact s.lists.slots.size_toArray
  list := by
    intro l hl
    obtain ⟨b, _, rfl⟩ := Array.mem_map.1 hl
    exact ⟨b.cells.size_toArray, b.length_le, b.length_of_undeclared⟩

/-- In every state that execution reaches from any entry of any words: everything is within
bounds, before the next step and after it; the step has every access in range; the address after
an instruction fits; and if the step fails, it does so by one of five faults at its own address. -/
theorem arbitrary_words_stay_in_bounds {p : Program} (hsize : p.size < 4294967296)
    {id : ContextId} {entry : UInt32} {seed : UInt64} {limit : Option Nat} {s₀ s : Shared}
    {c : Context} (hreach : Context.Reaches p (.start id entry.toNat seed limit) s₀ c s) :
    WithinBounds c s ∧ WithinBounds (c.step p s).2.1 (c.step p s).2.2 ∧
      c.checkedStep p.words s.plain = some (Context.plain (c.step p s)) ∧
      (∀ i, p.fetch? c.pc = some (.instr i) → c.pc + i.width < 4294967296) ∧
      ∀ status, (c.step p s).1 = .stop status → ∀ fault, status.fault? = some fault →
        ∃ cause, fault = .runtime cause ⟨0, c.pc⟩ ∧ c.Raises p cause := by
  have hbounded := (Context.bounded_start id entry seed limit).reaches hsize hreach
  refine ⟨hbounded.within s, (hbounded.step hsize s).within _, c.checkedStep_eq hsize s, ?_, ?_⟩
  · intro i hfetch
    exact Nat.lt_of_le_of_lt (Program.fetch?_instr_le hfetch) hsize
  · intro status hstop fault hfault
    cases status with
    | halted => cases hfault
    | faulted cause pc =>
      cases hfault
      obtain ⟨rfl, hraises⟩ := Context.raises_of_step hbounded hstop
      exact ⟨cause, rfl, hraises⟩

def cutOffCall : Program where
  words := #[.ofNat Opcode.jump.id, ⟨2⟩, .ofNat Opcode.call.id]

def beforeCutOffCall : Context :=
  { Context.start .main 0 42 none with pc := 2, instructions := 1 }

theorem cutOffCall_stays_in_bounds :
    Context.Reaches cutOffCall (.start .main (0 : UInt32).toNat 42 none) {} beforeCutOffCall {} ∧
      WithinBounds beforeCutOffCall {} ∧
      WithinBounds (beforeCutOffCall.step cutOffCall ({} : Shared)).2.1
        (beforeCutOffCall.step cutOffCall {}).2.2 ∧
      beforeCutOffCall.checkedStep cutOffCall.words (Shared.plain {}) =
        some (Context.plain (beforeCutOffCall.step cutOffCall {})) ∧
      (∀ i, cutOffCall.fetch? beforeCutOffCall.pc = some (.instr i) →
        beforeCutOffCall.pc + i.width < 4294967296) ∧
      ∀ status, (beforeCutOffCall.step cutOffCall ({} : Shared)).1 = .stop status →
        ∀ fault, status.fault? = some fault →
          ∃ cause, fault = .runtime cause ⟨0, beforeCutOffCall.pc⟩ ∧
            beforeCutOffCall.Raises cutOffCall cause := by
  have hreach : Context.Reaches cutOffCall (.start .main (0 : UInt32).toNat 42 none) {}
      beforeCutOffCall {} := .step rfl (.refl _ _)
  exact ⟨hreach, arbitrary_words_stay_in_bounds (by decide) hreach⟩

end RegisterMachine
