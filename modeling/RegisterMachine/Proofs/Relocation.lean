import RegisterMachine.Machine
import RegisterMachine.Proofs.Workers
import RegisterMachine.Proofs.Padding
import RegisterMachine.Proofs.Simulation

/-!
# Relocation

Inserting no-ops moves every address of a program, each by its own distance. Nothing else changes:
without a limit on instructions, contexts end alike, for the same cause and with the same state,
and so do whole runs. No-ops ask nothing of the world, so this is true of contexts that run at the
same time as well.

The argument is a simulation of the programs as they are written. Contexts beside each other
stand at corresponding places and return to corresponding places. Either both execute the same
instruction and are beside each other again, or the one in the padded program executes a no-op
and comes closer to the instruction of the other.
-/

namespace RegisterMachine

def Status.cause? : Status → Option RuntimeFault
  | .halted => none
  | .faulted cause _ => some cause

theorem Status.cause?_eq_none_iff {status : Status} : status.cause? = none ↔ status = .halted := by
  cases status <;> simp [cause?]

/-- Which context ended, and by which fault if by one. -/
abbrev Ending := ContextId × Option RuntimeFault

def ContextReport.ending (r : ContextReport) : Ending := (r.context, r.status.cause?)

def Context.Ends {σ : Type} [World σ] (p : Program) (c : Context) (s : σ) (ending : Ending)
    (t : σ) : Prop :=
  ∃ fuel report, run p fuel c s = some (report, t) ∧ report.ending = ending

/-- Lists of corresponding places. -/
inductive Returns (p p' : List SymbolicInstr) : List Nat → List Nat → Prop
  | nil : Returns p p' [] []
  | cons {i j : Nat} {is js : List Nat} : Beyond p p' i j → Returns p p' is js →
      Returns p p' (i :: is) (j :: js)

/-- Stacks that return to corresponding places. -/
structure Returning (p p' : List SymbolicInstr) (stack stack' : CallStack) : Prop where
  maxDepth : stack'.maxDepth = stack.maxDepth
  frames : Returns p p' stack.frames stack'.frames

section Stacks

variable {p p' : List SymbolicInstr} {stack stack' : CallStack}

theorem Returns.length_eq {is js : List Nat} (h : Returns p p' is js) : js.length = is.length := by
  induction h with
  | nil => rfl
  | cons _ _ ih => rw [List.length_cons, List.length_cons, ih]

theorem Returning.push? (h : Returning p p' stack stack') {i j : Nat} (hplace : Beyond p p' i j) :
    (∃ a b, stack.push? i = some a ∧ stack'.push? j = some b ∧ Returning p p' a b) ∨
      (stack.push? i = none ∧ stack'.push? j = none) := by
  have hlength := h.frames.length_eq
  have hdepth := h.maxDepth
  unfold CallStack.push?
  by_cases hroom : stack.frames.length < stack.maxDepth
  · have hroom' : stack'.frames.length < stack'.maxDepth := by omega
    rw [dif_pos hroom, dif_pos hroom']
    exact .inl ⟨_, _, rfl, rfl, hdepth, .cons hplace h.frames⟩
  · have hroom' : ¬ stack'.frames.length < stack'.maxDepth := by omega
    rw [dif_neg hroom, dif_neg hroom']
    exact .inr ⟨rfl, rfl⟩

theorem Returning.pop? (h : Returning p p' stack stack') :
    (∃ i j a b, stack.pop? = some (i, a) ∧ stack'.pop? = some (j, b) ∧ Beyond p p' i j ∧
        Returning p p' a b) ∨
      (stack.pop? = none ∧ stack'.pop? = none) := by
  obtain ⟨frames, maxDepth, hle⟩ := stack
  obtain ⟨frames', maxDepth', hle'⟩ := stack'
  obtain ⟨hdepth, hframes⟩ := h
  cases hframes with
  | nil => exact .inr ⟨rfl, rfl⟩
  | cons hplace hrest => exact .inl ⟨_, _, _, _, rfl, rfl, hplace, hdepth, hrest⟩

end Stacks

/-! ### Contexts beside each other -/

namespace SymbolicContext

/-- Two contexts without limits, at corresponding places of two programs. -/
structure Beside (p p' : List SymbolicInstr) (w w' : SymbolicContext) : Prop where
  id : w'.id = w.id
  random : w'.random = w.random
  free : w.limit = none
  free' : w'.limit = none
  stack : Returning p p' w.stack w'.stack
  phase : w'.phase = w.phase
  place : Beyond p p' w.index w'.index
  /-- In the middle of a preload, both are at that preload. -/
  busy : w.phase ≠ 0 → ∃ x, Facing p p' w.index w'.index x ∧ x.op = .listPreload

/-- Outcomes of a step that differ in places and counts only. -/
inductive Alike {σ : Type} (p p' : List SymbolicInstr) :
    Signal × SymbolicContext × σ → Signal × SymbolicContext × σ → Prop
  | proceed {w w' : SymbolicContext} (s : σ) : Beside p p' w w' →
      Alike p p' (.proceed, w, s) (.proceed, w', s)
  | stop {w w' : SymbolicContext} {status status' : Status} (s : σ) : w'.id = w.id →
      status'.cause? = status.cause? → Alike p p' (.stop status, w, s) (.stop status', w', s)

variable {σ : Type} {p p' : List SymbolicInstr} {w w' : SymbolicContext} {x : SymbolicInstr}

theorem exhausted?_of_free (h : w.limit = none) : w.exhausted? = none := by
  rw [exhausted?, h]
  rfl

theorem Beside.phase_eq_zero (h : Beside p p' w w') (hx : p'[w'.index]? = some x)
    (hop : x.op ≠ .listPreload) : w.phase = 0 := by
  apply Decidable.byContradiction
  intro hphase
  obtain ⟨y, hfacing, hy⟩ := h.busy hphase
  obtain rfl : x = y := Option.some.inj (hx.symm.trans hfacing.right)
  exact hop hy

theorem Beside.rest (h : Beside p p' w w') (hx : Facing p p' w.index w'.index x)
    (hop : x.op = .listPreload) : Beside p p' w.rest w'.rest := by
  unfold SymbolicContext.rest
  rw [h.phase]
  split
  case isTrue =>
    exact ⟨h.id, h.random, h.free, h.free', h.stack, rfl, h.place, fun _ => ⟨x, hx, hop⟩⟩
  case isFalse =>
    exact ⟨h.id, h.random, h.free, h.free', h.stack, rfl, hx.next, fun hne => absurd rfl hne⟩

theorem Beside.pass (h : Beside p p' w w') (hphase : w.phase = 0)
    (hnext : Beyond p p' (w.index + 1) (w'.index + 1)) (i : Instr) :
    Beside p p' (w.pass i) (w'.pass i) where
  id := h.id
  random := congrArg i.advanceStream h.random
  free := h.free
  free' := h.free'
  stack := h.stack
  phase := h.phase
  place := hnext
  busy hne := absurd hphase hne

theorem Beside.transfer (h : Beside p p' w w') (hphase : w.phase = 0) {branch branch' : Nat}
    (hbranch : Beyond p p' branch branch') (pc pc' : Nat) (flow : Flow) (s : σ) :
    Alike p p' ((w.transfer branch pc flow).1, (w.transfer branch pc flow).2, s)
      ((w'.transfer branch' pc' flow).1, (w'.transfer branch' pc' flow).2, s) := by
  have hmoved {stack stack' : CallStack} {i j : Nat} (hstack : Returning p p' stack stack')
      (hplace : Beyond p p' i j) :
      Beside p p' { w with index := i, stack := stack } { w' with index := j, stack := stack' } :=
    ⟨h.id, h.random, h.free, h.free', hstack, h.phase, hplace, fun hne => absurd hphase hne⟩
  cases flow with
  | next => exact .proceed s h
  | jump target => exact .proceed s (hmoved h.stack hbranch)
  | call target =>
    unfold SymbolicContext.transfer
    rcases h.stack.push? h.place with ⟨a, b, ha, hb, hstack⟩ | ⟨ha, hb⟩
    · simp only [ha, hb]
      exact .proceed s (hmoved hstack hbranch)
    · simp only [ha, hb]
      exact .stop s h.id (by rw [CallStack.overflow, h.stack.maxDepth]; rfl)
  | ret =>
    unfold SymbolicContext.transfer
    rcases h.stack.pop? with ⟨i, j, a, b, ha, hb, hplace, hstack⟩ | ⟨ha, hb⟩
    · simp only [ha, hb]
      exact .proceed s (hmoved hstack hplace)
    · simp only [ha, hb]
      exact .stop s h.id rfl
  | halt => exact .stop s h.id rfl
  | badRegister index => exact .stop s h.id rfl

section Step

variable [World σ] (hpad : Padded p p') (hp : WellFormed p) (s : σ)

theorem Beside.step_end (h : Beside p p' w w') (hx : p[w.index]? = none)
    (hx' : p'[w'.index]? = none) : Alike p p' (w.step p s) (w'.step p' s) := by
  simp only [SymbolicContext.step, hx, hx']
  exact .stop s h.id rfl

include hpad hp in
theorem Beside.step_facing (h : Beside p p' w w') (hx : Facing p p' w.index w'.index x) :
    Alike p p' (w.step p s) (w'.step p' s) := by
  simp only [SymbolicContext.step, hx.left, hx.right, exhausted?_of_free h.free,
    exhausted?_of_free h.free']
  by_cases hop : x.op = .listPreload
  · simp only [if_pos hop]
    exact .proceed s (h.rest hx hop)
  · simp only [if_neg hop]
    cases hview : x.view? with
    | none => exact .stop s h.id rfl
    | some i =>
      have hphase := h.phase_eq_zero hx.right hop
      simp only [h.id, h.random]
      exact (h.pass hphase hx.next i).transfer hphase (hx.branchIndex hpad hp hview) _ _ _ _

theorem Beside.step_nop (h : Beside p p' w w') (hx : p'[w'.index]? = some .nop)
    (hnext : Beyond p p' w.index (w'.index + 1)) :
    w'.step p' s = (.proceed, w'.pass .nop, s) ∧ Beside p p' w (w'.pass .nop) := by
  constructor
  · simp only [SymbolicContext.step, hx, exhausted?_of_free h.free']
    rfl
  · have hphase := h.phase_eq_zero hx (by decide)
    exact ⟨h.id, h.random, h.free, h.free', h.stack, h.phase, hnext, fun hne => absurd hphase hne⟩

include hpad hp in
theorem Beside.step (h : Beside p p' w w') :
    Alike p p' (w.step p s) (w'.step p' s) ∨
      ∃ w'', w'.step p' s = (.proceed, w'', s) ∧ Beside p p' w w'' ∧
        p'.length - w''.index < p'.length - w'.index := by
  rcases h.place.split with ⟨hx, hx'⟩ | ⟨x, hx⟩ | ⟨hx', hnext⟩
  · exact .inl (h.step_end s hx hx')
  · exact .inl (h.step_facing hpad hp s hx)
  · obtain ⟨hstep, hbeside⟩ := h.step_nop s hx' hnext
    have hlt : w'.index < p'.length := (List.getElem?_eq_some_iff.1 hx').1
    have hindex : (w'.pass .nop).index = w'.index + 1 := rfl
    exact .inr ⟨_, hstep, hbeside, by omega⟩

end Step

/-! ### Runs -/

def Ends [World σ] (p : List SymbolicInstr) (w : SymbolicContext) (s : σ) (ending : Ending)
    (t : σ) : Prop :=
  ∃ fuel report, run p fuel w s = some (report, t) ∧ report.ending = ending

section Run

variable [World σ] {s t : σ} {ending : Ending}

theorem ends_of_proceed {w₁ : SymbolicContext} {s₁ : σ}
    (hstep : w.step p s = (.proceed, w₁, s₁)) (h : Ends p w₁ s₁ ending t) :
    Ends p w s ending t := by
  obtain ⟨fuel, report, hrun, hending⟩ := h
  exact ⟨fuel + 1, report, by simp only [run, hstep, hrun], hending⟩

theorem ends_of_stop {w₁ : SymbolicContext} {status : Status}
    (hstep : w.step p s = (.stop status, w₁, t)) : Ends p w s (w₁.report status).ending t :=
  ⟨1, w₁.report status, by simp only [run, hstep], rfl⟩

variable (hpad : Padded p p') (hp : WellFormed p)
include hpad hp

theorem Beside.ends (h : Beside p p' w w') (hends : Ends p w s ending t) :
    Ends p' w' s ending t := by
  obtain ⟨fuel, report, hrun, hending⟩ := hends
  induction fuel generalizing w w' s with
  | zero => cases hrun
  | succ fuel ih =>
    -- within one step of the program, the distance to its instruction shrinks
    generalize hrank : p'.length - w'.index = rank
    induction rank using Nat.strongRecOn generalizing w' with
    | _ rank ihRank =>
      rcases h.step hpad hp s with halike | ⟨w'', hstep', hbeside, hcloser⟩
      · generalize hstep : w.step p s = outcome at halike
        generalize hstep' : w'.step p' s = outcome' at halike
        simp only [run, hstep] at hrun
        cases halike with
        | proceed s₁ hbeside => exact ends_of_proceed hstep' (ih hbeside hrun)
        | @stop w₁ w₁' status status' s₁ hid hcause =>
          cases hrun
          have hsame : (w₁'.report status').ending = (w₁.report status).ending :=
            Prod.ext hid hcause
          rw [← hending, ← hsame]
          exact ends_of_stop hstep'
      · exact ends_of_proceed hstep' (ihRank _ (hrank ▸ hcloser) hbeside rfl)

theorem Beside.ends_back (h : Beside p p' w w') (hends : Ends p' w' s ending t) :
    Ends p w s ending t := by
  obtain ⟨fuel, report, hrun, hending⟩ := hends
  -- an extra no-op uses up fuel here, so the fuel alone carries the induction
  induction fuel generalizing w w' s with
  | zero => cases hrun
  | succ fuel ih =>
    rcases h.step hpad hp s with halike | ⟨w'', hstep', hbeside, _⟩
    · generalize hstep : w.step p s = outcome at halike
      generalize hstep' : w'.step p' s = outcome' at halike
      simp only [run, hstep'] at hrun
      cases halike with
      | proceed s₁ hbeside => exact ends_of_proceed hstep (ih hbeside hrun)
      | @stop w₁ w₁' status status' s₁ hid hcause =>
        cases hrun
        have hsame : (w₁'.report status').ending = (w₁.report status).ending :=
          Prod.ext hid hcause
        rw [← hending, hsame]
        exact ends_of_stop hstep
    · simp only [run, hstep'] at hrun
      exact ih hbeside hrun

end Run

end SymbolicContext

section Assembled

variable {σ : Type} [World σ] {p p' : List SymbolicInstr} (hpad : Padded p p')
  (hcheck : check p = []) (hwidth : encodedWidth p' < 4294967296)

theorem ends_locate (hcheck : check p = []) (hwidth : encodedWidth p < 4294967296) (who : ContextId)
    (index : Nat) (seed : UInt64) {s t : σ} {ending : Ending} :
    Context.Ends (link p).program (.start who (address p index) seed none) s ending t ↔
      SymbolicContext.Ends p (.start who index seed none) s ending t := by
  have hsteady : (SymbolicContext.start who index seed none).Steady p := .inl rfl
  simp only [Context.Ends, SymbolicContext.Ends, ← SymbolicContext.locate_start,
    run_locate (linked_of_check hcheck) hwidth _ hsteady]

include hpad hcheck hwidth

/-- Contexts that start at corresponding places have the same endings. -/
theorem ends_iff_of_padded {i j : Nat} (hplace : Beyond p p' i j) (who : ContextId)
    (seed : UInt64) (s : σ) (ending : Ending) (t : σ) :
    Context.Ends (link p).program (.start who (address p i) seed none) s ending t ↔
      Context.Ends (link p').program (.start who (address p' j) seed none) s ending t := by
  have hwidth₀ : encodedWidth p < 4294967296 := Nat.lt_of_le_of_lt hpad.encodedWidth_le hwidth
  have hp := wellFormed_of_check hcheck
  have hbeside : SymbolicContext.Beside p p' (.start who i seed none) (.start who j seed none) :=
    ⟨rfl, rfl, rfl, rfl, ⟨rfl, .nil⟩, rfl, hplace, fun hne => absurd rfl hne⟩
  rw [ends_locate hcheck hwidth₀, ends_locate (hpad.check_eq_nil hcheck) hwidth]
  exact ⟨hbeside.ends hpad hp, hbeside.ends_back hpad hp⟩

end Assembled

/-! ### Several contexts -/

namespace Context

/-- Contexts of two programs with the same name that have the same endings on every world. -/
structure Interchangeable (p p' : Program) (c c' : Context) : Prop where
  id : c'.id = c.id
  ends : ∀ {σ : Type} [World σ] (s : σ) (ending : Ending) (t : σ),
    Ends p c s ending t ↔ Ends p' c' s ending t

/-- Contexts end one after another with endings and leave a state. -/
def EndsAll (p : Program) (cs : List Context) (s : Shared)
    (endings : List Ending) (t : Shared) : Prop :=
  ∃ fuel reports, runAll p fuel cs s = some (reports, t) ∧
    reports.map (·.ending) = endings

def ConversesAll (p : Program) (replies : ContextId → Replies) (cs : List Context)
    (parts : List (Ending × List Event)) : Prop :=
  ∃ fuel talks, converseAll p fuel replies cs = some talks ∧
    (talks.map fun talk => (talk.1.ending, talk.2)) = parts

variable {p p' : Program} {c : Context} {cs cs' : List Context} {s t : Shared}
  {endings : List Ending} {replies : ContextId → Replies} {parts : List (Ending × List Event)}

theorem endsAll_cons_iff :
    EndsAll p (c :: cs) s endings t ↔ ∃ ending rest s',
      endings = ending :: rest ∧ Ends p c s ending s' ∧ EndsAll p cs s' rest t := by
  constructor
  · rintro ⟨fuel, reports, hall, rfl⟩
    obtain ⟨⟨report, s'⟩, hrun, hrest⟩ := Option.bind_eq_some_iff.1 hall
    obtain ⟨⟨reports', t'⟩, hall', heq⟩ := Option.map_eq_some_iff.1 hrest
    cases heq
    exact ⟨_, _, s', rfl, ⟨fuel, report, hrun, rfl⟩, ⟨fuel, reports', hall', rfl⟩⟩
  · rintro ⟨ending, rest, s', rfl, ⟨fuel, report, hrun, rfl⟩, ⟨fuel', reports, hall, rfl⟩⟩
    refine ⟨max fuel fuel', report :: reports, ?_, rfl⟩
    simp only [runAll, run_of_le (Nat.le_max_left _ _) hrun, Option.bind_some,
      runAll_of_le (Nat.le_max_right fuel fuel') hall, Option.map_some]

theorem conversesAll_cons_iff :
    ConversesAll p replies (c :: cs) parts ↔ ∃ ending talk rest,
      parts = (ending, talk.events) :: rest ∧
      Ends p c (Conversation.mk (replies c.id) []) ending talk ∧
      ConversesAll p replies cs rest := by
  constructor
  · rintro ⟨fuel, talks, hall, rfl⟩
    obtain ⟨⟨report, talk⟩, hrun, hrest⟩ := Option.bind_eq_some_iff.1 hall
    obtain ⟨talks', hall', rfl⟩ := Option.map_eq_some_iff.1 hrest
    exact ⟨_, talk, _, rfl, ⟨fuel, report, hrun, rfl⟩, ⟨fuel, talks', hall', rfl⟩⟩
  · rintro ⟨ending, talk, rest, rfl, ⟨fuel, report, hrun, rfl⟩, ⟨fuel', talks, hall, rfl⟩⟩
    refine ⟨max fuel fuel', (report, talk.events) :: talks, ?_, rfl⟩
    simp only [converseAll, run_of_le (Nat.le_max_left _ _) hrun, Option.bind_some,
      converseAll_of_le (Nat.le_max_right fuel fuel') hall, Option.map_some]

theorem endsAll_iff (h : List.Forall₂ (Interchangeable p p') cs cs') :
    EndsAll p cs s endings t ↔ EndsAll p' cs' s endings t := by
  induction h generalizing s endings with
  | nil => exact Iff.rfl
  | cons hfirst _ ih => simp only [endsAll_cons_iff, hfirst.ends, ih]

theorem conversesAll_iff (h : List.Forall₂ (Interchangeable p p') cs cs') :
    ConversesAll p replies cs parts ↔ ConversesAll p' replies cs' parts := by
  induction h generalizing parts with
  | nil => exact Iff.rfl
  | cons hfirst _ ih => simp only [conversesAll_cons_iff, hfirst.id, hfirst.ends, ih]

end Context

namespace Pool

def EndsAll (pool : Pool) (p : Program) (cs : List Context) (s : Shared) (endings : List Ending)
    (t : Shared) : Prop :=
  ∃ fuel reports, pool.runAll p fuel cs s = some (reports, t) ∧ reports.map (·.ending) = endings

variable {p p' : Program} {cs cs' : List Context} {s t : Shared} {endings : List Ending}

theorem endsAll_several_iff {memory : Memory} {execution : Execution} :
    EndsAll (.several memory execution) p cs s endings t ↔
      ∃ parts, Context.ConversesAll p execution.replies cs parts ∧ parts.map (·.1) = endings ∧
        memory.settle s (interleave execution.order
          (parts.map fun part => (part.1.1, part.2))) = some t := by
  constructor
  · rintro ⟨fuel, reports, hrun, rfl⟩
    obtain ⟨talks, hall, hsettle⟩ := Option.bind_eq_some_iff.1 hrun
    obtain ⟨t, hsettle, heq⟩ := Option.map_eq_some_iff.1 hsettle
    cases heq
    refine ⟨_, ⟨fuel, talks, hall, rfl⟩, ?_, ?_⟩
    · rw [List.map_map, List.map_map]
      rfl
    · rw [List.map_map]
      exact hsettle
  · rintro ⟨_, ⟨fuel, talks, hall, rfl⟩, rfl, hsettle⟩
    rw [List.map_map] at hsettle
    have hlog : memory.settle s (execution.log talks) = some t := hsettle
    refine ⟨fuel, talks.map (·.1), ?_, ?_⟩
    · simp only [runAll, Context.runTogether, hall, hlog, Option.bind_some, Option.map_some]
    · rw [List.map_map, List.map_map]
      rfl

theorem endsAll_iff {pool : Pool} (h : List.Forall₂ (Context.Interchangeable p p') cs cs') :
    pool.EndsAll p cs s endings t ↔ pool.EndsAll p' cs' s endings t := by
  cases pool with
  | single => exact Context.endsAll_iff h
  | several memory execution => simp only [endsAll_several_iff, Context.conversesAll_iff h]

end Pool

/-! ### Runs of a machine -/

namespace Machine

def Ends (m : Machine) (pool : Pool) (p : Program) (endings : List Ending)
    (outputs : List Entry) (m' : Machine) : Prop :=
  ∃ fuel report, m.run pool fuel p = some (report, m') ∧
    report.contexts.map (·.ending) = endings ∧ report.outputs = outputs

def followersAfter (m : Machine) (p : Program) (ending : Ending) :
    List Context :=
  if m.config.mode = .fanOut ∧ ending.2 = none then
    p.functions.entries.map fun (id, entry) => m.start (.function id) entry
  else []

variable {m m' : Machine} {pool : Pool} {outputs : List Entry}
  {endings : List Ending}

theorem followers_eq (m : Machine) (p : Program) (main : ContextReport) :
    m.followers p main = m.followersAfter p main.ending := by
  simp only [followers, followersAfter, ContextReport.ending, Status.cause?_eq_none_iff]

theorem ends_iff_contexts {p : Program} :
    m.Ends pool p endings outputs m' ↔ ∃ ending rest s t, endings = ending :: rest ∧
      Context.Ends p (m.start .main 0) m.shared ending s ∧
      (m.config.workers pool).EndsAll p (m.followersAfter p ending) s rest t ∧
      outputs = groupById t.output.entries.toList ∧
      m' = { m with shared := { t with output := .empty } } := by
  constructor
  · rintro ⟨fuel, report, hrun, rfl, rfl⟩
    obtain ⟨⟨main, s⟩, hmain, hrun⟩ := Option.bind_eq_some_iff.1 hrun
    obtain ⟨⟨reports, t⟩, hall, heq⟩ := Option.map_eq_some_iff.1 hrun
    cases heq
    rw [followers_eq] at hall
    exact ⟨_, _, s, t, rfl, ⟨fuel, main, hmain, rfl⟩, ⟨fuel, reports, hall, rfl⟩, rfl, rfl⟩
  · rintro ⟨ending, rest, s, t, rfl, hmain, hrest, rfl, rfl⟩
    obtain ⟨fuel, main, hmain, rfl⟩ := hmain
    obtain ⟨fuel', reports, hall, rfl⟩ := hrest
    rw [← followers_eq] at hall
    refine ⟨max fuel fuel', ⟨main :: reports, groupById t.output.entries.toList⟩, ?_, rfl, rfl⟩
    simp only [run, Context.run_of_le (Nat.le_max_left _ _) hmain, Option.bind_some,
      Pool.runAll_of_le (Nat.le_max_right fuel fuel') hall, Option.map_some]
    rfl

theorem run_of_le {p : Program} {fuel fuel' : Nat} (hle : fuel ≤ fuel') {r : RunReport × Machine}
    (h : m.run pool fuel p = some r) : m.run pool fuel' p = some r := by
  obtain ⟨⟨main, s⟩, hmain, h⟩ := Option.bind_eq_some_iff.1 h
  obtain ⟨⟨reports, t⟩, hall, rfl⟩ := Option.map_eq_some_iff.1 h
  simp only [run, Context.run_of_le hle hmain, Option.bind_some, Pool.runAll_of_le hle hall,
    Option.map_some]

section Padded

variable {p p' : List SymbolicInstr} (hpad : Padded p p') (hcheck : check p = [])
  (hwidth : encodedWidth p' < 4294967296) (hlimit : m.config.maxInstructions = none)
include hpad hcheck hwidth hlimit

theorem interchangeable_start {i j : Nat} (hplace : Beyond p p' i j) (who : ContextId) :
    Context.Interchangeable (link p).program (link p').program (m.start who (address p i))
      (m.start who (address p' j)) where
  id := rfl
  ends s ending t := by
    have hnone : m.config.limit = none := by rw [Config.limit, hlimit]; rfl
    simp only [start, hnone]
    exact ends_iff_of_padded hpad hcheck hwidth hplace who _ s ending t

theorem interchangeable_main :
    Context.Interchangeable (link p).program (link p').program (m.start .main 0)
      (m.start .main 0) :=
  interchangeable_start (i := 0) (j := 0) hpad hcheck hwidth hlimit hpad .main

theorem interchangeable_function {id : UInt32} (hmem : .function id ∈ p) :
    Context.Interchangeable (link p).program (link p').program
      (m.start (.function id) (functionEntry p id))
      (m.start (.function id) (functionEntry p' id)) := by
  have hplace : Beyond p p' (p.idxOf (SymbolKind.function.marker id) + 1)
      (p'.idxOf (SymbolKind.function.marker id) + 1) := hpad.beyond_marker hmem
  exact interchangeable_start hpad hcheck hwidth hlimit hplace _

theorem interchangeable_followers (ending : Ending) :
    List.Forall₂ (Context.Interchangeable (link p).program (link p').program)
      (m.followersAfter (link p).program ending) (m.followersAfter (link p').program ending) := by
  unfold followersAfter
  split
  case isTrue =>
    rw [entries_functions hcheck, entries_functions (hpad.check_eq_nil hcheck),
      hpad.keys_functions hcheck, List.map_map, List.map_map, List.forall₂_map_left_iff,
      List.forall₂_map_right_iff, List.forall₂_same]
    intro id hid
    exact interchangeable_function hpad hcheck hwidth hlimit ((mem_keys_functions hcheck).1 hid)
  case isFalse => exact .nil

theorem ends_iff_of_padded :
    m.Ends pool (link p).program endings outputs m' ↔
      m.Ends pool (link p').program endings outputs m' := by
  have hmain := interchangeable_main hpad hcheck hwidth hlimit
  have hfollowers := interchangeable_followers hpad hcheck hwidth hlimit
  simp only [ends_iff_contexts, hmain.ends, Pool.endsAll_iff (hfollowers _)]

end Padded

end Machine

end RegisterMachine
