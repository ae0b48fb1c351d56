import RegisterMachine.Context
import RegisterMachine.Proofs.Footprint

/-!
# Executions

What one step can do, which states a context passes through, and what a run is without fuel: the
entries emitted on the way, the report and the state that is left. A run that ends with some fuel
ends so with more.
-/

namespace RegisterMachine

namespace Context

variable {p : Program} {c c' : Context} {s s' t : Shared}

/-- The instruction a step executes; `none` if the step only ends the context. -/
def current? (p : Program) (c : Context) : Option Instr :=
  match p.fetch? c.pc with
  | some (.instr i) => if c.exhausted?.isSome then none else some i
  | _ => none

def emission (p : Program) (c : Context) (s : Shared) : List Entry :=
  ((c.current? p).bind fun i => i.emits? c.id s).toList

theorem current?_eq_some_iff {i : Instr} :
    c.current? p = some i ↔ p.fetch? c.pc = some (.instr i) ∧ c.exhausted? = none := by
  unfold current?
  split
  case h_1 j hj =>
    cases c.exhausted? with
    | none => simp [hj]
    | some limit => simp
  case h_2 hother =>
    simp only [reduceCtorEq, false_iff, not_and]
    intro hfetch
    exact absurd hfetch (hother i)

theorem step_execute {σ : Type} [World σ] {i : Instr} (h : c.current? p = some i) (s : σ) :
    c.step p s =
      (((c.pass i).transfer c.pc (i.execute c.id c.random s).1).1,
        ((c.pass i).transfer c.pc (i.execute c.id c.random s).1).2,
        (i.execute c.id c.random s).2) := by
  obtain ⟨hfetch, hfree⟩ := current?_eq_some_iff.1 h
  simp only [step, hfetch, hfree]

/-- A step that executes an instruction does what the instruction does. -/
theorem step_of_current? {i : Instr} (h : c.current? p = some i) (s : Shared) :
    c.step p s =
      (((c.pass i).transfer c.pc (i.effect c.id c.random s).1).1,
        ((c.pass i).transfer c.pc (i.effect c.id c.random s).1).2,
        (i.effect c.id c.random s).2) := by
  rw [step_execute h, i.execute_eq_effect]

theorem transfer_of_step {i : Instr} {signal : Signal} (hi : c.current? p = some i)
    (h : c.step p s = (signal, c', s')) :
    (c.pass i).transfer c.pc (i.effect c.id c.random s).1 = (signal, c') ∧
      (i.effect c.id c.random s).2 = s' := by
  rw [step_of_current? hi] at h
  obtain ⟨hsignal, hrest⟩ := Prod.mk.inj h
  obtain ⟨hcontext, hshared⟩ := Prod.mk.inj hrest
  exact ⟨Prod.ext hsignal hcontext, hshared⟩

/-- A step that executes none ends the context and changes nothing. -/
theorem step_of_current?_none (h : c.current? p = none) :
    ∃ status, ∀ {σ : Type} [World σ] (s : σ), c.step p s = (.stop status, c, s) := by
  unfold step
  cases hfetch : p.fetch? c.pc with
  | none => exact ⟨.halted, fun s => rfl⟩
  | some f =>
    cases f with
    | unknown word => exact ⟨.faulted (.unknownOpcode word) c.pc, fun s => rfl⟩
    | truncated op available =>
      exact ⟨.faulted (.truncatedInstruction op op.width available) c.pc, fun s => rfl⟩
    | instr i =>
      cases hlimit : c.exhausted? with
      | none =>
        rw [current?_eq_some_iff.2 ⟨hfetch, hlimit⟩] at h
        cases h
      | some limit => exact ⟨.faulted (.instructionLimitExceeded limit) c.pc, fun s => rfl⟩

theorem id_transfer (c : Context) (pc : Nat) (flow : Flow) : (c.transfer pc flow).2.id = c.id := by
  unfold transfer
  split <;> first | rfl | (split <;> rfl)

theorem id_step {σ : Type} [World σ] (p : Program) (c : Context) (s : σ) :
    (c.step p s).2.1.id = c.id := by
  cases h : c.current? p with
  | none =>
    obtain ⟨status, hstep⟩ := step_of_current?_none h
    rw [hstep]
  | some i =>
    rw [step_execute h]
    exact id_transfer _ _ _

theorem entries_step (p : Program) (c : Context) (s : Shared) :
    (c.step p s).2.2.output.entries.toList =
      s.output.entries.toList ++ c.emission p s := by
  cases h : c.current? p with
  | none =>
    obtain ⟨status, hstep⟩ := step_of_current?_none h
    simp [hstep, emission, h]
  | some i =>
    rw [step_of_current? h, emission, h]
    exact i.entries_effect c.id c.random s

theorem context_of_mem_emission {e : Entry} (h : e ∈ c.emission p s) : e.context = c.id := by
  unfold emission at h
  obtain ⟨i, _, he⟩ := Option.bind_eq_some_iff.1 (Option.mem_toList.1 h)
  cases i <;> simp only [Instr.emits?, reduceCtorEq, Option.map_eq_some_iff] at he
  all_goals
    obtain ⟨_, _, rfl⟩ := he
    rfl

/-- A context with a shared state gets to a context with a shared state. -/
inductive Reaches (p : Program) : Context → Shared → Context → Shared → Prop
  | refl (c : Context) (s : Shared) : Reaches p c s c s
  | step {c c' c'' : Context} {s s' s'' : Shared} : c.step p s = (.proceed, c', s') →
      Reaches p c' s' c'' s'' → Reaches p c s c'' s''

/-- A context runs to its end: entries emitted, report and state left. -/
inductive Runs (p : Program) : Context → Shared → List Entry → ContextReport → Shared → Prop
  | stop {c c' : Context} {s s' : Shared} {status : Status} :
      c.step p s = (.stop status, c', s') → Runs p c s (c.emission p s) (c'.report status) s'
  | proceed {c c' : Context} {s s' t : Shared} {entries : List Entry} {report : ContextReport} :
      c.step p s = (.proceed, c', s') → Runs p c' s' entries report t →
      Runs p c s (c.emission p s ++ entries) report t

/-- Contexts run one after another, each on the state the one before it left. -/
inductive RunsAll (p : Program) :
    List Context → Shared → List (ContextReport × List Entry) → Shared → Prop
  | nil (s : Shared) : RunsAll p [] s [] s
  | cons {c : Context} {rest : List Context} {s s' t : Shared} {entries : List Entry}
      {report : ContextReport} {outcomes : List (ContextReport × List Entry)} :
      Runs p c s entries report s' → RunsAll p rest s' outcomes t →
      RunsAll p (c :: rest) s ((report, entries) :: outcomes) t

theorem run_of_le {σ : Type} [World σ] {s : σ} {fuel fuel' : Nat} (hle : fuel ≤ fuel')
    {r : ContextReport × σ} (h : run p fuel c s = some r) : run p fuel' c s = some r := by
  induction fuel generalizing fuel' c s with
  | zero => cases h
  | succ fuel ih =>
    cases fuel' with
    | zero => omega
    | succ fuel' =>
      simp only [run] at h ⊢
      generalize c.step p s = outcome at h ⊢
      obtain ⟨signal, c', s'⟩ := outcome
      cases signal with
      | proceed => exact ih (by omega) h
      | stop status => exact h

theorem context_of_run {σ : Type} [World σ] {s : σ} {fuel : Nat} {r : ContextReport × σ}
    (h : run p fuel c s = some r) : r.1.context = c.id := by
  induction fuel generalizing c s with
  | zero => cases h
  | succ fuel ih =>
    have hid := id_step p c s
    simp only [run] at h
    generalize c.step p s = outcome at h hid
    obtain ⟨signal, c', s'⟩ := outcome
    cases signal with
    | proceed => exact (ih h).trans hid
    | stop status =>
      cases h
      exact hid

theorem exists_runs_of_run {fuel : Nat} {report : ContextReport}
    (h : run p fuel c s = some (report, t)) : ∃ entries, Runs p c s entries report t := by
  induction fuel generalizing c s with
  | zero => cases h
  | succ fuel ih =>
    simp only [run] at h
    cases hstep : c.step p s with
    | mk signal outcome =>
      obtain ⟨c', s'⟩ := outcome
      rw [hstep] at h
      cases signal with
      | proceed =>
        obtain ⟨entries, hruns⟩ := ih h
        exact ⟨_, .proceed hstep hruns⟩
      | stop status =>
        cases h
        exact ⟨_, .stop hstep⟩

theorem Runs.exists_run {entries : List Entry} {report : ContextReport}
    (h : Runs p c s entries report t) : ∃ fuel, run p fuel c s = some (report, t) := by
  induction h with
  | stop hstep => exact ⟨1, by simp only [run, hstep]⟩
  | proceed hstep _ ih =>
    obtain ⟨fuel, hrun⟩ := ih
    exact ⟨fuel + 1, by simp only [run, hstep, hrun]⟩

theorem Runs.entries_eq {entries : List Entry} {report : ContextReport}
    (h : Runs p c s entries report t) :
    t.output.entries.toList = s.output.entries.toList ++ entries := by
  induction h with
  | @stop c c' s s' status hstep =>
    have hentries := entries_step p c s
    rwa [hstep] at hentries
  | @proceed c c' s s' t entries report hstep _ ih =>
    have hentries := entries_step p c s
    rw [hstep] at hentries
    rw [ih, hentries, List.append_assoc]

theorem Runs.context_eq {entries : List Entry} {report : ContextReport}
    (h : Runs p c s entries report t) :
    report.context = c.id ∧ ∀ e ∈ entries, e.context = c.id := by
  induction h with
  | @stop c c' s s' status hstep =>
    have hid := id_step p c s
    rw [hstep] at hid
    exact ⟨hid, fun e he => context_of_mem_emission he⟩
  | @proceed c c' s s' t entries report hstep _ ih =>
    have hid := id_step p c s
    rw [hstep] at hid
    obtain ⟨hreport, hentries⟩ := ih
    refine ⟨hreport.trans hid, fun e he => ?_⟩
    rcases List.mem_append.1 he with he | he
    · exact context_of_mem_emission he
    · exact (hentries e he).trans hid

theorem runAll_of_le {fuel fuel' : Nat} (hle : fuel ≤ fuel') {cs : List Context}
    {r : List ContextReport × Shared} (h : runAll p fuel cs s = some r) :
    runAll p fuel' cs s = some r := by
  induction cs generalizing s r with
  | nil => exact h
  | cons c cs ih =>
    obtain ⟨⟨report, s'⟩, hrun, hrest⟩ := Option.bind_eq_some_iff.1 h
    obtain ⟨r', hall, rfl⟩ := Option.map_eq_some_iff.1 hrest
    simp only [runAll, run_of_le hle hrun, Option.bind_some, ih hall, Option.map_some]

theorem RunsAll.exists_runAll {cs : List Context} {outcomes : List (ContextReport × List Entry)}
    (h : RunsAll p cs s outcomes t) :
    ∃ fuel, runAll p fuel cs s = some (outcomes.map (·.1), t) := by
  induction h with
  | nil s => exact ⟨0, rfl⟩
  | cons hruns _ ih =>
    obtain ⟨fuel, hrun⟩ := hruns.exists_run
    obtain ⟨fuel', hall⟩ := ih
    refine ⟨max fuel fuel', ?_⟩
    simp only [runAll, run_of_le (Nat.le_max_left _ _) hrun, Option.bind_some,
      runAll_of_le (Nat.le_max_right fuel fuel') hall, Option.map_some, List.map_cons]

theorem RunsAll.entries_eq {cs : List Context} {outcomes : List (ContextReport × List Entry)}
    (h : RunsAll p cs s outcomes t) :
    t.output.entries.toList = s.output.entries.toList ++ outcomes.flatMap (·.2) := by
  induction h with
  | nil s => simp
  | cons hruns _ ih => rw [ih, hruns.entries_eq, List.flatMap_cons, List.append_assoc]

end Context

end RegisterMachine
