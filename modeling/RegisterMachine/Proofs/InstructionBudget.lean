import RegisterMachine.Proofs.Accounting
import RegisterMachine.Proofs.FaultedSteps

/-!
# Instruction limits

A limit ends every run, and does nothing else: up to the point where a limit strikes, a run with it
is the run with a higher one or with none. The limit is tested once an instruction has been found,
so a context that halts without needing one more instruction halts under the limit it has used up.
-/

namespace RegisterMachine

namespace Context

variable {p : Program} {c c' : Context} {s s' t : Shared} {i : Instr} {limit : Option Nat}
  {n : Nat}

def withLimit (c : Context) (limit : Option Nat) : Context := { c with limit := limit }

/-! ### One step under two limits -/

theorem exhausted?_eq_none (h : ∀ l ∈ c.limit, c.instructions < l) : c.exhausted? = none := by
  unfold exhausted?
  rw [Option.filter_eq_none_iff]
  intro l hl hle
  have hlt := h l hl
  simp only [decide_eq_true_eq] at hle
  omega

theorem lt_of_current? (hi : c.current? p = some i) (hlimit : c.limit = some n) :
    c.instructions < n := by
  have hfree := (current?_eq_some_iff.1 hi).2
  rw [exhausted?, hlimit, Option.filter_eq_none_iff] at hfree
  have hnot := hfree n rfl
  simp only [decide_eq_true_eq] at hnot
  omega

theorem current?_withLimit (hi : c.current? p = some i) (h : ∀ l ∈ limit, c.instructions < l) :
    (c.withLimit limit).current? p = some i :=
  current?_eq_some_iff.2 ⟨(current?_eq_some_iff.1 hi).1, exhausted?_eq_none h⟩

theorem transfer_withLimit (c : Context) (limit : Option Nat) (pc : Nat) (flow : Flow) :
    (c.withLimit limit).transfer pc flow =
      ((c.transfer pc flow).1, (c.transfer pc flow).2.withLimit limit) := by
  cases flow with
  | call target =>
    simp only [transfer, withLimit]
    cases c.stack.push? c.pc <;> rfl
  | ret =>
    simp only [transfer, withLimit]
    cases c.stack.pop? <;> rfl
  | _ => rfl

theorem limit_transfer (c : Context) (pc : Nat) (flow : Flow) :
    (c.transfer pc flow).2.limit = c.limit := by
  unfold transfer
  split <;> first | rfl | (split <;> rfl)

theorem counted_step {σ : Type} [World σ] {s s' : σ} {signal : Signal}
    (h : c.step p s = (signal, c', s')) :
    c'.limit = c.limit ∧
      c'.instructions = c.instructions + if (c.current? p).isSome then 1 else 0 := by
  cases hcurrent : c.current? p with
  | none =>
    obtain ⟨status, hstop⟩ := step_of_current?_none hcurrent
    rw [hstop] at h
    cases h
    exact ⟨rfl, rfl⟩
  | some i =>
    rw [step_execute hcurrent] at h
    cases h
    exact ⟨limit_transfer _ _ _, (kept_by_transfer _ _ _).2⟩

theorem instructions_le_limit {σ : Type} [World σ] {s s' : σ} {signal : Signal}
    (h : c.step p s = (signal, c', s')) (hlimit : c.limit = some n) (hle : c.instructions ≤ n) :
    c'.instructions ≤ n := by
  have hcount := (counted_step h).2
  cases hcurrent : c.current? p with
  | none =>
    rw [hcurrent] at hcount
    exact hcount ▸ hle
  | some i =>
    have hlt := lt_of_current? hcurrent hlimit
    rw [hcurrent] at hcount
    simp only [Option.isSome_some, if_true] at hcount
    omega

/-- A step that is not cut off is the same under every limit that covers the instructions it
ends with. -/
theorem step_withLimit (limit : Option Nat) {signal : Signal}
    (h : c.step p s = (signal, c', s'))
    (hcut : ∀ l pc, signal ≠ .stop (.faulted (.instructionLimitExceeded l) pc))
    (hroom : ∀ l ∈ limit, c'.instructions ≤ l) :
    (c.withLimit limit).step p s = (signal, c'.withLimit limit, s') := by
  have hpc : (c.withLimit limit).pc = c.pc := rfl
  cases hcurrent : c.current? p with
  | some i =>
    have hcount := (counted_step h).2
    rw [hcurrent] at hcount
    have hlater : (c.withLimit limit).current? p = some i := by
      apply current?_withLimit hcurrent
      intro l hl
      have hle := hroom l hl
      simp only [Option.isSome_some, if_true] at hcount
      omega
    have hpass : (c.withLimit limit).pass i = (c.pass i).withLimit limit := rfl
    have heffect : i.effect (c.withLimit limit).id (c.withLimit limit).random s =
        i.effect c.id c.random s := rfl
    obtain ⟨htransfer, hshared⟩ := transfer_of_step hcurrent h
    rw [step_of_current? hlater, hpass, hpc, heffect, transfer_withLimit, htransfer, hshared]
  | none =>
    unfold step at h ⊢
    rw [hpc]
    cases hfetch : p.fetch? c.pc with
    | none =>
      rw [hfetch] at h
      cases h
      rfl
    | some f =>
      rw [hfetch] at h
      cases f with
      | unknown word =>
        cases h
        rfl
      | truncated op available =>
        cases h
        rfl
      | instr i =>
        cases hlimit : c.exhausted? with
        | none =>
          rw [current?_eq_some_iff.2 ⟨hfetch, hlimit⟩] at hcurrent
          cases hcurrent
        | some l =>
          rw [hlimit] at h
          cases h
          exact absurd rfl (hcut l c.pc)

theorem limit_of_cut {l pc : Nat}
    (h : c.step p s = (.stop (.faulted (.instructionLimitExceeded l) pc), c', s')) :
    c.limit = some l ∧ l ≤ c.instructions := by
  unfold step at h
  split at h
  case h_1 => cases h
  case h_2 => cases h
  case h_3 => cases h
  case h_4 i hfetch =>
    split at h
    case h_1 l' hlimit =>
      cases h
      obtain ⟨hsome, hle⟩ := Option.filter_eq_some_iff.1 hlimit
      exact ⟨hsome, of_decide_eq_true hle⟩
    case h_2 =>
      have hraised := (transfer_faulted (Prod.ext (congrArg (·.1) h) rfl)).2.2.1
      cases hraised

/-! ### Runs -/

theorem instructions_le_run {fuel : Nat} {report : ContextReport}
    (h : run p fuel c s = some (report, t)) : c.instructions ≤ report.instructions := by
  induction fuel generalizing c s with
  | zero => cases h
  | succ fuel ih =>
    simp only [run] at h
    cases hstep : c.step p s with
    | mk signal outcome =>
      obtain ⟨c', s'⟩ := outcome
      have hle : c.instructions ≤ c'.instructions := by
        rw [(counted_step hstep).2]
        exact Nat.le_add_right _ _
      rw [hstep] at h
      cases signal with
      | proceed => exact Nat.le_trans hle (ih h)
      | stop status =>
        cases h
        exact hle

theorem instructions_le_of_run {σ : Type} [World σ] {s t : σ} {fuel : Nat}
    {report : ContextReport} (h : run p fuel c s = some (report, t)) (hlimit : c.limit = some n)
    (hle : c.instructions ≤ n) : report.instructions ≤ n := by
  induction fuel generalizing c s with
  | zero => cases h
  | succ fuel ih =>
    simp only [run] at h
    cases hstep : c.step p s with
    | mk signal outcome =>
      obtain ⟨c', s'⟩ := outcome
      have hle' := instructions_le_limit hstep hlimit hle
      rw [hstep] at h
      cases signal with
      | proceed => exact ih h ((counted_step hstep).1.trans hlimit) hle'
      | stop status =>
        cases h
        exact hle'

/-- With `k` instructions left a run ends within `k + 1` steps. -/
theorem run_ends {k : Nat} (hlimit : c.limit = some n) (hleft : c.instructions + k = n) :
    ∃ report t, run p (k + 1) c s = some (report, t) ∧ report.instructions ≤ n := by
  induction k generalizing c s with
  | zero =>
    have hnone : c.current? p = none := by
      cases hcurrent : c.current? p with
      | none => rfl
      | some i =>
        have hlt := lt_of_current? hcurrent hlimit
        omega
    obtain ⟨status, hstep⟩ := step_of_current?_none hnone
    refine ⟨c.report status, s, by simp only [run, hstep], ?_⟩
    exact Nat.le_of_eq hleft
  | succ k ih =>
    cases hstep : c.step p s with
    | mk signal outcome =>
      obtain ⟨c', s'⟩ := outcome
      cases signal with
      | stop status =>
        refine ⟨c'.report status, s', by simp only [run, hstep], ?_⟩
        exact instructions_le_limit hstep hlimit (by omega)
      | proceed =>
        obtain ⟨i, hi⟩ := current?_of_proceed hstep
        obtain ⟨hlimit', hcount⟩ := counted_step hstep
        simp only [hi, Option.isSome_some, if_true] at hcount
        obtain ⟨report, t, hrun, hle⟩ := ih (hlimit'.trans hlimit) (by omega)
        exact ⟨report, t, by simp only [run, hstep]; exact hrun, hle⟩

/-- A run that is not cut off is the same under every limit that covers its instructions. -/
theorem run_withLimit (limit : Option Nat) {fuel : Nat} {report : ContextReport}
    (h : run p fuel c s = some (report, t))
    (hcut : ∀ l pc, report.status ≠ .faulted (.instructionLimitExceeded l) pc)
    (hroom : ∀ l ∈ limit, report.instructions ≤ l) :
    run p fuel (c.withLimit limit) s = some (report, t) := by
  induction fuel generalizing c s with
  | zero => cases h
  | succ fuel ih =>
    simp only [run] at h ⊢
    cases hstep : c.step p s with
    | mk signal outcome =>
      obtain ⟨c', s'⟩ := outcome
      rw [hstep] at h
      cases signal with
      | proceed =>
        have hle := instructions_le_run h
        have hsame := step_withLimit limit hstep (fun _ _ => Signal.noConfusion)
          fun l hl => Nat.le_trans hle (hroom l hl)
        rw [hsame]
        exact ih h
      | stop status =>
        cases h
        have hsame := step_withLimit limit hstep
          (fun l pc heq => hcut l pc (Signal.stop.inj heq)) hroom
        rw [hsame]
        rfl

theorem Performs.withLimit {done : List Instr} (h : Performs p c s done c' t)
    (hroom : ∀ l ∈ limit, c.instructions + done.length ≤ l) :
    Performs p (c.withLimit limit) s done (c'.withLimit limit) t := by
  induction h with
  | refl c s => exact .refl _ s
  | @step c c₁ c' s s₁ t i rest hi hstep _ ih =>
    have hcount := (proceed_eq hi hstep).2.2.2
    simp only [List.length_cons] at hroom
    refine .step (current?_withLimit hi ?_) (step_withLimit _ hstep (fun _ _ => Signal.noConfusion) ?_)
      (ih ?_)
    · intro l hl
      have hle := hroom l hl
      omega
    · intro l hl
      have hle := hroom l hl
      omega
    · intro l hl
      have hle := hroom l hl
      omega

theorem Performs.limit_eq {done : List Instr} (h : Performs p c s done c' t) :
    c'.limit = c.limit := by
  induction h with
  | refl => rfl
  | step _ hstep _ ih => exact ih.trans (counted_step hstep).1

/-- A run that is cut off has executed as many instructions as its limit says. -/
theorem performs_of_cut {fuel l pc : Nat} {report : ContextReport}
    (h : run p fuel c s = some (report, t))
    (hcut : report.status = .faulted (.instructionLimitExceeded l) pc) :
    ∃ done c', Performs p c s done c' t ∧ c'.pc = pc ∧ c.limit = some l ∧
      l ≤ c.instructions + done.length ∧ report.instructions = c.instructions + done.length := by
  obtain ⟨done, c', c'', hperforms, hfails, hreport⟩ := performs_of_run h hcut
  obtain ⟨hlimit, hle⟩ := limit_of_cut hfails
  have hleft := leftByFault_of_step hfails
  have hcount := hperforms.produced_eq.2
  refine ⟨done, c', hperforms, hleft.pc.symm, ?_, ?_, ?_⟩
  · rw [← hperforms.limit_eq, hlimit]
  · rw [← hcount]
    exact hle
  · rw [hreport, hleft.instructions, hcount]
    rfl

end Context

/-- Under a limit no context counts past the sixty-four bits that the limit has. -/
theorem Machine.instructions_lt_of_limit {m m' : Machine} {pool : Pool} {p : Program} {fuel : Nat}
    {report : RunReport} {limit : UInt64} (hlimit : m.config.maxInstructions = some limit)
    (h : m.run pool fuel p = some (report, m')) :
    ∀ r ∈ report.contexts, r.instructions < 18446744073709551616 := by
  have hsome : m.config.limit = some limit.toNat := by rw [Config.limit, hlimit]; rfl
  have hrun {σ : Type} [World σ] {c : Context} {s t : σ} {r : ContextReport}
      (hrun : Context.run p fuel c s = some (r, t)) (hfresh : c.Fresh m.config) :
      r.instructions < 18446744073709551616 := by
    have hle : r.instructions ≤ limit.toNat :=
      Context.instructions_le_of_run hrun (hfresh.limit.trans hsome) (by simp [hfresh.instructions])
    exact Nat.lt_of_le_of_lt hle limit.toNat_lt
  obtain ⟨⟨main, s⟩, hmain, h⟩ := Option.bind_eq_some_iff.1 h
  obtain ⟨⟨rest, left⟩, hrest, h⟩ := Option.map_eq_some_iff.1 h
  cases h
  refine List.forall_mem_cons.2 ⟨hrun hmain (m.fresh_start .main 0), ?_⟩
  have hreports := Pool.forall₂_reports hrun hrest
  intro r hr
  obtain ⟨i, rfl⟩ := List.get_of_mem hr
  have hi : i < (m.followers p main).length := Nat.lt_of_lt_of_eq i.isLt hreports.length_eq.symm
  exact hreports.get hi i.isLt (fresh_of_mem_followers (List.get_mem _ ⟨i, hi⟩))

/-- A run with limit `n` ends after at most `n` instructions. If the limit did not strike, the run
with any limit from `n` on, or with none, has the same report and leaves the same state; if it did,
exactly `n` instructions were executed, and the state is the one the other run has after its first
`n` instructions. A run that halts does so under the very limit of the instructions it took. -/
theorem limit_only_truncates (p : Program) (id : ContextId) (entry : Nat) (seed : UInt64)
    (s : Shared) {n : Nat} {m : Option Nat} (hle : ∀ k ∈ m, n ≤ k) :
    (∃ fuel report t, Context.run p fuel (.start id entry seed (some n)) s = some (report, t) ∧
      report.instructions ≤ n ∧
      ((∀ limit pc, report.status ≠ .faulted (.instructionLimitExceeded limit) pc) →
        ∃ fuel', Context.run p fuel' (.start id entry seed m) s = some (report, t)) ∧
      ∀ limit pc, report.status = .faulted (.instructionLimitExceeded limit) pc →
        limit = n ∧ report.instructions = n ∧
          ∃ done c, done.length = n ∧
            Context.Performs p (.start id entry seed m) s done c t ∧ c.pc = pc) ∧
    ∀ fuel report t, Context.run p fuel (.start id entry seed m) s = some (report, t) →
      report.status = .halted →
        ∃ fuel', Context.run p fuel' (.start id entry seed (some report.instructions)) s =
          some (report, t) := by
  constructor
  · obtain ⟨report, t, hrun, hbound⟩ : ∃ report t,
        Context.run p (n + 1) (.start id entry seed (some n)) s = some (report, t) ∧
          report.instructions ≤ n := Context.run_ends rfl (Nat.zero_add n)
    refine ⟨n + 1, report, t, hrun, hbound, ?_, ?_⟩
    · intro hcut
      exact ⟨n + 1, Context.run_withLimit m hrun hcut fun k hk => Nat.le_trans hbound (hle k hk)⟩
    · intro limit pc hcut
      obtain ⟨done, c, hperforms, hpc, hlimit, hmin, hcount⟩ := Context.performs_of_cut hrun hcut
      have hstart : (Context.start id entry seed (some n)).instructions = 0 := rfl
      obtain rfl : n = limit := Option.some.inj hlimit
      have hlength : done.length = n := by omega
      refine ⟨rfl, by omega, done, c.withLimit m, hlength, ?_, hpc⟩
      apply hperforms.withLimit
      intro k hk
      have hk' := hle k hk
      omega
  · intro fuel report t hrun hhalted
    refine ⟨fuel, Context.run_withLimit (some report.instructions) hrun ?_ ?_⟩
    · intro l pc hcut
      rw [hhalted] at hcut
      cases hcut
    · intro l hl
      cases hl
      exact Nat.le_refl _

def spinning : Program where
  words := (Instr.encode (.jump ⟨0⟩)).toArray

theorem spinning_is_truncated :
    (∀ k ∈ some 5, 3 ≤ k) ∧
      ∃ fuel report t,
        Context.run spinning fuel (.start .main 0 42 (some 3)) ({} : Shared) = some (report, t) ∧
          report.status = .faulted (.instructionLimitExceeded 3) 0 ∧ report.instructions = 3 ∧
          ∃ done c, done.length = 3 ∧
            Context.Performs spinning (.start .main 0 42 (some 5)) {} done c t ∧ c.pc = 0 := by
  have hle : ∀ k ∈ some 5, 3 ≤ k := by decide
  obtain ⟨⟨fuel, report, t, hrun, _, _, hcut⟩, _⟩ :=
    limit_only_truncates spinning .main 0 42 {} hle
  obtain ⟨report', t', hrun', hstatus⟩ : ∃ report' t',
      Context.run spinning 4 (.start .main 0 42 (some 3)) ({} : Shared) = some (report', t') ∧
        report'.status = .faulted (.instructionLimitExceeded 3) 0 := ⟨_, _, rfl, rfl⟩
  have hmore := Context.run_of_le (Nat.le_max_left fuel 4) hrun
  rw [Context.run_of_le (Nat.le_max_right fuel 4) hrun'] at hmore
  cases hmore
  exact ⟨hle, fuel, report, t, hrun, hstatus, (hcut 3 0 hstatus).2⟩

end RegisterMachine
