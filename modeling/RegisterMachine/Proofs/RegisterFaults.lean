import RegisterMachine.Proofs.DeclaredEffects

/-!
# Faults of instructions

An instruction that is executed fails for two reasons only: a register operand names no register,
whatever else the operands and the state are, or a call finds the call stack full. Of several bad
registers the first source is reported, and the destination only if all sources exist.
-/

namespace RegisterMachine

theorem firstBad?_append (regs rest : List Word) :
    firstBad? (regs ++ rest) = (firstBad? regs).or (firstBad? rest) := List.find?_append

theorem firstBad?_eq_none_iff {regs : List Word} :
    firstBad? regs = none ↔ ∀ w ∈ regs, w.toNat < registerCount := by
  unfold firstBad?
  rw [List.find?_eq_none]
  constructor
  · intro h w hw
    have hnot := h w hw
    simp only [decide_eq_true_eq] at hnot
    omega
  · intro h w hw
    have hlt := h w hw
    simp only [decide_eq_true_eq]
    omega

theorem exists_firstBad?_iff {regs : List Word} :
    (∃ w, firstBad? regs = some w) ↔ ∃ w ∈ regs, registerCount ≤ w.toNat := by
  rw [← Option.isSome_iff_exists, firstBad?, List.find?_isSome]
  simp only [decide_eq_true_eq]

theorem Instr.opcode_eq_call_iff {i : Instr} : i.opcode = .call ↔ ∃ target, i = .call target := by
  cases i <;> simp [opcode]

/-- A bad register of an instruction is its first bad source, or its destination if all sources
are good. -/
theorem Instr.firstBad?_accesses {i : Instr} {w : Word} (h : firstBad? i.accesses = some w) :
    firstBad? i.sources = some w ∨
      (∀ v ∈ i.sources, v.toNat < registerCount) ∧ i.destination? = some w := by
  rw [accesses, firstBad?_append] at h
  cases hsources : firstBad? i.sources with
  | some v =>
    rw [hsources] at h
    exact .inl h
  | none =>
    rw [hsources, Option.none_or] at h
    refine .inr ⟨firstBad?_eq_none_iff.1 hsources, ?_⟩
    have hmem : w ∈ i.destination?.toList := List.mem_of_find?_eq_some h
    exact Option.mem_toList.1 hmem

namespace Context

variable {c : Context} {i : Instr} {s : Shared} {cause : RuntimeFault} {pc : Nat}

theorem dispatch_eq_faulted_iff : (c.dispatch i s).1 = .stop (.faulted cause pc) ↔
    pc = c.pc ∧ ((∃ w, firstBad? i.accesses = some w ∧ cause = Registers.outOfRange w.bits) ∨
      i.opcode = .call ∧ c.stack.depth = c.stack.maxDepth ∧ cause = c.stack.overflow) := by
  have hbad : (∃ index, (i.effect c.id c.random s).1 = .badRegister index ∧
      cause = Registers.outOfRange index) ↔
      ∃ w, firstBad? i.accesses = some w ∧ cause = Registers.outOfRange w.bits := by
    simp only [Instr.effect_eq_badRegister_iff]
    constructor
    · rintro ⟨index, hfirst, hcause⟩
      exact ⟨⟨index⟩, hfirst, hcause⟩
    · rintro ⟨w, hfirst, hcause⟩
      exact ⟨w.bits, hfirst, hcause⟩
  have hcall : (∃ target, (i.effect c.id c.random s).1 = .call target) ↔ i.opcode = .call := by
    rw [Instr.opcode_eq_call_iff]
    constructor
    · rintro ⟨target, hflow⟩
      exact ⟨target, Instr.eq_call_of_effect hflow⟩
    · rintro ⟨target, rfl⟩
      exact ⟨target, rfl⟩
  rw [signal_dispatch, transfer_eq_faulted_iff, hbad, ← hcall, exists_and_right]
  rfl

end Context

/-- Dispatch of any opcode with as many operand words as it takes: a register fault is raised
exactly if some register slot names no register, and it reports the first such source, or the
destination if all sources exist; the only other fault is that of a call on a full call stack. -/
theorem register_faults_exact {op : Opcode} {ws : List Word} (hlength : ws.length = op.payload) :
    ∃ i, Instr.decode? op ws = some i ∧
      ∀ (c : Context) (s : Shared), c.stack.maxDepth = maxCallDepth →
        ((∃ index max pc,
            (c.dispatch i s).1 = .stop (.faulted (.registerOutOfRange index max) pc)) ↔
          ∃ w ∈ op.registerOperands ws, 4096 ≤ w.toNat) ∧
        (∀ index max pc,
          (c.dispatch i s).1 = .stop (.faulted (.registerOutOfRange index max) pc) →
            max = 4095 ∧ pc = c.pc ∧
              ((op.sourceOperands ws).find? (fun w => 4096 ≤ w.toNat) = some ⟨index⟩ ∨
                (∀ w ∈ op.sourceOperands ws, w.toNat < 4096) ∧ op.hasDestination = true ∧
                  ws[0]? = some ⟨index⟩)) ∧
        (∀ cause pc, (c.dispatch i s).1 = .stop (.faulted cause pc) →
          (∃ index max, cause = .registerOutOfRange index max) ∨
            ∃ max, cause = .stackOverflow max) ∧
        ∀ max pc, (c.dispatch i s).1 = .stop (.faulted (.stackOverflow max) pc) ↔
          op = .call ∧ c.stack.depth = 256 ∧ max = 256 ∧ pc = c.pc := by
  obtain ⟨i, hi⟩ := Instr.exists_decode? hlength
  obtain rfl := Instr.opcode_of_decode? hi
  obtain rfl := Instr.operands_of_decode? hi
  refine ⟨i, hi, ?_⟩
  intro c s hmax
  have hfault {cause : RuntimeFault} {pc : Nat}
      (h : (c.dispatch i s).1 = .stop (.faulted cause pc)) := Context.dispatch_eq_faulted_iff.1 h
  have hmember : (∃ w ∈ i.opcode.registerOperands i.operands, 4096 ≤ w.toNat) ↔
      ∃ w, firstBad? i.accesses = some w := by
    rw [exists_firstBad?_iff, i.registerOperands_eq, Instr.accesses]
    simp only [List.mem_append, or_comm]
  refine ⟨?_, ?_, ?_, ?_⟩
  · rw [hmember]
    constructor
    · rintro ⟨index, max, pc, h⟩
      rcases (hfault h).2 with ⟨w, hw, _⟩ | ⟨_, _, hcause⟩
      · exact ⟨w, hw⟩
      · cases hcause
    · rintro ⟨w, hw⟩
      exact ⟨w.bits, 4095, c.pc,
        Context.dispatch_eq_faulted_iff.2 ⟨rfl, .inl ⟨w, hw, rfl⟩⟩⟩
  · intro index max pc h
    obtain ⟨hpc, ⟨w, hw, hcause⟩ | ⟨_, _, hcause⟩⟩ := hfault h
    · cases hcause
      refine ⟨rfl, hpc, ?_⟩
      rw [i.sourceOperands_eq]
      rcases Instr.firstBad?_accesses hw with hsource | ⟨hsources, hdestination⟩
      · exact .inl hsource
      · exact .inr ⟨hsources, Instr.first_of_destination? hdestination⟩
    · cases hcause
  · intro cause pc h
    rcases (hfault h).2 with ⟨w, _, hcause⟩ | ⟨_, _, hcause⟩
    · exact .inl ⟨w.bits, 4095, hcause⟩
    · exact .inr ⟨c.stack.maxDepth, hcause⟩
  · intro max pc
    rw [Context.dispatch_eq_faulted_iff, CallStack.overflow, hmax]
    constructor
    · rintro ⟨hpc, ⟨w, _, hcause⟩ | ⟨hop, hdepth, hcause⟩⟩
      · cases hcause
      · cases hcause
        exact ⟨hop, hdepth, rfl, hpc⟩
    · rintro ⟨hop, hdepth, rfl, rfl⟩
      exact ⟨rfl, .inr ⟨hop, hdepth, rfl⟩⟩

/-- Operands of an addition whose right source and destination are both bad. -/
def badOperands : List Word := [⟨5000⟩, ⟨0⟩, ⟨4096⟩]

theorem badOperands_report_source :
    ∃ i, Instr.decode? (.binary (.arithmetic .int .add)) badOperands = some i ∧
      (Context.dispatch (.start .main 7 42 none) i {}).1 =
        .stop (.faulted (.registerOutOfRange 4096 4095) 7) := by
  have hlength : badOperands.length = (Opcode.binary (.arithmetic .int .add)).payload := rfl
  obtain ⟨i, hi, hall⟩ := register_faults_exact hlength
  obtain ⟨hiff, hreport, _⟩ := hall (.start .main 7 42 none) {} rfl
  obtain ⟨index, max, pc, hfault⟩ := hiff.2 ⟨⟨4096⟩, by decide, by decide⟩
  obtain ⟨rfl, rfl, hsource | ⟨hgood, _⟩⟩ := hreport index max pc hfault
  · cases hsource
    exact ⟨i, hi, hfault⟩
  · exact absurd (hgood ⟨4096⟩ (by decide)) (by decide)

end RegisterMachine
