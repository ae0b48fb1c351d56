import RegisterMachine.Proofs.Dispatch
import RegisterMachine.Proofs.FaultedSteps

/-!
# Calls and returns

Nothing but calls and returns moves the call stack, and each by one frame. So whatever a called
function does, with any jumps and further calls in words nobody has checked, the frames below it
stay as they are until the return that takes its own frame, and that return leads behind the call.
-/

namespace RegisterMachine

def Instr.isCall : Instr → Bool
  | .call _ => true
  | _ => false

namespace Context

variable {p : Program} {c c' x : Context} {s s' t u : Shared} {i : Instr} {target : Word}

/-- What an instruction after which control goes on does to the call stack. -/
inductive Moves (c c' : Context) : Instr → Prop
  | enter {target : Word} : c'.stack.frames = (c.pc + 2) :: c.stack.frames →
      Moves c c' (.call target)
  | leave : c.stack.frames = c'.pc :: c'.stack.frames → Moves c c' .ret
  | stay {i : Instr} : i.isCall = false → i ≠ .ret → c'.stack.frames = c.stack.frames →
      Moves c c' i

theorem moves_of_transfer {pc : Nat}
    (h : (c.pass i).transfer pc (i.effect c.id c.random s).1 = (.proceed, c')) : Moves c c' i := by
  cases hcall : i.isCall with
  | true =>
    cases i with
    | call target =>
      simp only [Instr.effect, transfer] at h
      split at h
      case h_1 stack hpush =>
        cases h
        exact .enter (CallStack.frames_of_push? hpush).1
      case h_2 => cases h
    | _ => cases hcall
  | false =>
    by_cases hret : i = .ret
    · subst hret
      simp only [Instr.effect, transfer] at h
      split at h
      case h_1 returnPc stack hpop =>
        cases h
        exact .leave (CallStack.frames_of_pop? hpop).1
      case h_2 => cases h
    · have hnocall : ∀ target, (i.effect c.id c.random s).1 ≠ .call target := by
        intro target hflow
        rw [Instr.eq_call_of_effect hflow] at hcall
        cases hcall
      have hnoret : (i.effect c.id c.random s).1 ≠ .ret := fun hflow =>
        hret (Instr.eq_ret_of_effect hflow)
      have hstack := (c.pass i).stack_transfer pc hnocall hnoret
      rw [h] at hstack
      exact .stay hcall hret (congrArg CallStack.frames hstack)

theorem moves_of_proceed (hi : c.current? p = some i) (h : c.step p s = (.proceed, c', s')) :
    Moves c c' i :=
  moves_of_transfer (transfer_of_step hi h).1

theorem maxDepth_of_proceed (h : c.step p s = (.proceed, c', s')) :
    c'.stack.maxDepth = c.stack.maxDepth := by
  obtain ⟨i, hi⟩ := current?_of_proceed h
  have hmax := maxDepth_transfer (c.pass i) c.pc (i.effect c.id c.random s).1
  rw [(transfer_of_step hi h).1] at hmax
  exact hmax

theorem eq_of_transfer_stop {pc : Nat} {flow : Flow} {status : Status}
    (h : c.transfer pc flow = (.stop status, c')) : c' = c := by
  cases flow with
  | next => cases h
  | jump target => cases h
  | call target =>
    simp only [transfer] at h
    split at h <;> cases h
    rfl
  | ret =>
    simp only [transfer] at h
    split at h <;> cases h
    rfl
  | halt =>
    cases h
    rfl
  | badRegister index =>
    cases h
    rfl

theorem stack_of_stop {status : Status} (h : c.step p s = (.stop status, c', s')) :
    c'.stack = c.stack := by
  cases hcurrent : c.current? p with
  | none =>
    obtain ⟨other, hstop⟩ := step_of_current?_none hcurrent
    rw [hstop] at h
    cases h
    rfl
  | some i =>
    rw [eq_of_transfer_stop (transfer_of_step hcurrent h).1]
    rfl

theorem proceed_of_call (hi : c.current? p = some (.call target))
    (hroom : c.stack.depth < c.stack.maxDepth) (s : Shared) :
    ∃ c', c.step p s = (.proceed, c', s) := by
  rw [step_eq_dispatch hi]
  cases hpush : c.stack.push? (c.pc + 2) with
  | none =>
    have hfull := (c.stack.push?_eq_none_iff (c.pc + 2)).1 hpush
    omega
  | some stack =>
    have hpass : (c.pass (.call target)).stack.push? (c.pass (.call target)).pc = some stack := hpush
    simp only [dispatch, Instr.effect, transfer, hpass]
    exact ⟨_, rfl⟩

theorem overflow_of_call (hi : c.current? p = some (.call target))
    (hfull : c.stack.depth = c.stack.maxDepth) (s : Shared) :
    (c.step p s).1 = .stop (.faulted (.stackOverflow c.stack.maxDepth) c.pc) := by
  rw [step_eq_dispatch hi, signal_dispatch, transfer_eq_faulted_iff]
  exact ⟨rfl, .inr ⟨target, rfl, hfull, rfl⟩⟩

theorem halted_of_ret (hi : c.current? p = some .ret) (hempty : c.stack.depth = 0) (s : Shared) :
    (c.step p s).1 = .stop .halted := by
  have hpop : (c.pass .ret).stack.pop? = none := c.stack.pop?_eq_none_iff.2 hempty
  rw [step_eq_dispatch hi, signal_dispatch]
  simp only [Instr.effect, transfer, hpop]

/-! ### From a call to its return -/

/-- A state on the way through some instructions, before the last of them. -/
def Passes (p : Program) (c : Context) (s : Shared) (done : List Instr) (x : Context)
    (u : Shared) : Prop :=
  ∃ part rest, done = part ++ rest ∧ rest ≠ [] ∧ Performs p c s part x u

theorem Passes.start {done : List Instr} (h : done ≠ []) : Passes p c s done c s :=
  ⟨[], done, rfl, h, .refl c s⟩

theorem not_passes_nil : ¬ Passes p c s [] x u := by
  rintro ⟨part, rest, heq, hrest, _⟩
  exact hrest (List.append_eq_nil_iff.1 heq.symm).2

theorem Passes.later {rest : List Instr} (hi : c.current? p = some i)
    (hstep : c.step p s = (.proceed, c', s')) (h : Passes p c' s' rest x u) :
    Passes p c s (i :: rest) x u := by
  obtain ⟨part, after, rfl, hafter, hperforms⟩ := h
  exact ⟨i :: part, after, rfl, hafter, .step hi hstep hperforms⟩

theorem Passes.of_part {part rest : List Instr} (h : Passes p c s part x u) :
    Passes p c s (part ++ rest) x u := by
  obtain ⟨start, after, rfl, hafter, hperforms⟩ := h
  refine ⟨start, after ++ rest, List.append_assoc .., ?_, hperforms⟩
  intro hnil
  exact hafter (List.append_eq_nil_iff.1 hnil).1

theorem Passes.cases_step {rest : List Instr} (hstep : c.step p s = (.proceed, c', s'))
    (h : Passes p c s (i :: rest) x u) : x = c ∨ Passes p c' s' rest x u := by
  obtain ⟨part, after, heq, hafter, hperforms⟩ := h
  cases hperforms with
  | refl => exact .inl rfl
  | step hj hstep' hrest =>
    rw [hstep] at hstep'
    cases hstep'
    exact .inr ⟨_, after, (List.cons.inj heq).2, hafter, hrest⟩

/-- The frames of a call and of all calls around it are at the bottom of the stack. -/
def Above (c : Context) (returnPc : Nat) (base : List Nat) : Prop :=
  ∃ inner, c.stack.frames = inner ++ returnPc :: base

theorem Above.lt_depth {returnPc : Nat} {base : List Nat} (h : c.Above returnPc base) :
    base.length < c.stack.depth := by
  obtain ⟨inner, hframes⟩ := h
  rw [CallStack.depth, hframes, List.length_append, List.length_cons]
  omega

/-- From above a frame, one step stays above it or is the return that takes it. -/
theorem Moves.above {returnPc : Nat} {base : List Nat} (h : Moves c c' i)
    (habove : c.Above returnPc base) :
    c'.Above returnPc base ∨ i = .ret ∧ c'.stack.frames = base ∧ c'.pc = returnPc := by
  obtain ⟨inner, hframes⟩ := habove
  cases h with
  | enter hpush => exact .inl ⟨(c.pc + 2) :: inner, by rw [hpush, hframes]; rfl⟩
  | stay _ _ hsame => exact .inl ⟨inner, by rw [hsame, hframes]⟩
  | leave hpop =>
    rw [hframes] at hpop
    cases inner with
    | nil =>
      obtain ⟨hpc, hbase⟩ := List.cons.inj hpop
      exact .inr ⟨rfl, hbase.symm, hpc.symm⟩
    | cons top inner => exact .inl ⟨inner, (List.cons.inj hpop).2.symm⟩

/-- As long as the depth of the frames around a call is not reached again, they and the frame of
the call stay; what reaches it is a return, and takes that frame. -/
theorem bracketed {returnPc : Nat} {base : List Nat} {done : List Instr}
    (h : Performs p c s done c' t) (habove : c.Above returnPc base)
    (hfirst : ∀ x u, Passes p c s done x u → x.stack.depth ≠ base.length) :
    c'.Above returnPc base ∨
      (∃ body, done = body ++ [.ret]) ∧ c'.stack.frames = base ∧ c'.pc = returnPc := by
  induction h with
  | refl c s => exact .inl habove
  | @step c c₁ c' s s₁ t i rest hi hstep hperforms ih =>
    have hlater : ∀ x u, Passes p c₁ s₁ rest x u → x.stack.depth ≠ base.length :=
      fun x u hx => hfirst x u (hx.later hi hstep)
    rcases (moves_of_proceed hi hstep).above habove with habove₁ | ⟨rfl, hframes, hpc⟩
    · rcases ih habove₁ hlater with habove' | ⟨⟨body, hbody⟩, hstack⟩
      · exact .inl habove'
      · exact .inr ⟨⟨i :: body, by rw [hbody]; rfl⟩, hstack⟩
    · -- the depth is reached here, so this is the last instruction
      have hdepth : c₁.stack.depth = base.length := congrArg List.length hframes
      have hrest : rest = [] := by
        apply Decidable.byContradiction
        intro hne
        exact hlater c₁ s₁ (.start hne) hdepth
      subst hrest
      cases hperforms with
      | refl => exact .inr ⟨⟨[], rfl⟩, hframes, hpc⟩

theorem above_of_depth_ne {returnPc : Nat} {base : List Nat} {done : List Instr}
    (h : Performs p c s done c' t) (habove : c.Above returnPc base)
    (hfirst : ∀ x u, Passes p c s done x u → x.stack.depth ≠ base.length)
    (hdepth : c'.stack.depth ≠ base.length) : c'.Above returnPc base := by
  rcases bracketed h habove hfirst with habove' | ⟨_, hframes, _⟩
  · exact habove'
  · exact absurd (congrArg List.length hframes) hdepth

/-! ### Whole runs -/

theorem Performs.maxDepth_eq {done : List Instr} (h : Performs p c s done c' t) :
    c'.stack.maxDepth = c.stack.maxDepth := by
  induction h with
  | refl => rfl
  | step _ hstep _ ih => exact ih.trans (maxDepth_of_proceed hstep)

theorem Performs.depth_of_no_return {done : List Instr} (h : Performs p c s done c' t)
    (hret : .ret ∉ done) : c'.stack.depth = c.stack.depth + done.countP Instr.isCall := by
  induction h with
  | refl => rfl
  | @step c c₁ c' s s₁ t i rest hi hstep _ ih =>
    simp only [List.mem_cons, not_or] at hret
    obtain ⟨hne, hrest⟩ := hret
    rw [ih hrest, List.countP_cons]
    cases moves_of_proceed hi hstep with
    | enter hpush =>
      simp only [CallStack.depth, hpush, List.length_cons, Instr.isCall, if_true]
      omega
    | leave => exact absurd rfl hne
    | stay hcall _ hsame =>
      simp only [CallStack.depth, hsame, hcall, Bool.false_eq_true, if_false]
      omega

end Context

/-- At any point of any run. After a call at a depth below 256, the first state that has the depth
of the call again, if there is one, is reached by a return, behind the call and with the call
stack it was made with, which until then stays at the bottom. A call at depth 256 fails, which
without returns is the 257th; a return outside all calls halts; the step that ends the run leaves
the call stack as it is. -/
theorem calls_are_well_bracketed {p : Program} {id : ContextId} {entry : Nat} {seed : UInt64}
    {limit : Option Nat} {s₀ s : Shared} {before : List Instr} {c : Context}
    (hrun : Context.Performs p (.start id entry seed limit) s₀ before c s) :
    (∀ target, c.current? p = some (.call target) →
      (c.stack.depth < 256 → ∃ c₁ s₁, c.step p s = (.proceed, c₁, s₁) ∧
        ∀ done c' s', Context.Performs p c₁ s₁ done c' s' →
          (∀ x u, Context.Passes p c₁ s₁ done x u → x.stack.depth ≠ c.stack.depth) →
            (c'.stack.depth = c.stack.depth →
              (∃ body, done = body ++ [.ret]) ∧ c'.stack = c.stack ∧ c'.pc = c.pc + 2) ∧
            (c'.stack.depth ≠ c.stack.depth →
              ∃ inner, c'.stack.frames = inner ++ (c.pc + 2) :: c.stack.frames) ∧
            ∀ x u, Context.Passes p c₁ s₁ done x u →
              ∃ inner, x.stack.frames = inner ++ (c.pc + 2) :: c.stack.frames) ∧
      (c.stack.depth = 256 → (c.step p s).1 = .stop (.faulted (.stackOverflow 256) c.pc)) ∧
      (.ret ∉ before → before.countP Instr.isCall ≤ 256 ∧
        ((c.step p s).1 = .stop (.faulted (.stackOverflow 256) c.pc) ↔
          before.countP Instr.isCall = 256))) ∧
    (c.current? p = some .ret → c.stack.depth = 0 → (c.step p s).1 = .stop .halted) ∧
    ∀ status c' s', c.step p s = (.stop status, c', s') → c'.stack = c.stack := by
  have hmax : c.stack.maxDepth = 256 := hrun.maxDepth_eq
  have hle : c.stack.depth ≤ 256 := hmax ▸ c.stack.depth_le
  refine ⟨?_, fun hi hempty => Context.halted_of_ret hi hempty s,
    fun status c' s' hstop => Context.stack_of_stop hstop⟩
  intro target hi
  have hfull (hdepth : c.stack.depth = 256) :
      (c.step p s).1 = .stop (.faulted (.stackOverflow 256) c.pc) := by
    have hstop := Context.overflow_of_call hi (hdepth.trans hmax.symm) s
    rwa [hmax] at hstop
  refine ⟨?_, hfull, ?_⟩
  · intro hroom
    obtain ⟨c₁, hstep⟩ := Context.proceed_of_call hi (hmax.symm ▸ hroom) s
    refine ⟨c₁, s, hstep, ?_⟩
    intro done c' s' hperforms hfirst
    have habove : c₁.Above (c.pc + 2) c.stack.frames := by
      cases Context.moves_of_proceed hi hstep with
      | enter hpush => exact ⟨[], hpush⟩
      | stay hcall => cases hcall
    refine ⟨?_, Context.above_of_depth_ne hperforms habove hfirst, ?_⟩
    · intro hdepth
      rcases Context.bracketed hperforms habove hfirst with habove' | ⟨hbody, hframes, hpc⟩
      · have hlt := habove'.lt_depth
        exact absurd hdepth (Nat.ne_of_gt hlt)
      · have hkept : c'.stack.maxDepth = c.stack.maxDepth :=
          hperforms.maxDepth_eq.trans (Context.maxDepth_of_proceed hstep)
        exact ⟨hbody, CallStack.eq_of_frames hframes hkept, hpc⟩
    · intro x u hx
      have hdepth := hfirst x u hx
      obtain ⟨part, rest, rfl, _, hpart⟩ := hx
      exact Context.above_of_depth_ne hpart habove (fun y v hy => hfirst y v hy.of_part) hdepth
  · intro hret
    have hdepth := hrun.depth_of_no_return hret
    have hstart : (Context.start id entry seed limit).stack.depth = 0 := rfl
    have hcalls : before.countP Instr.isCall = c.stack.depth := by omega
    rw [hcalls]
    refine ⟨hle, ?_, hfull⟩
    intro hstop
    apply Decidable.byContradiction
    intro hne
    obtain ⟨c₁, hstep⟩ := Context.proceed_of_call hi (by omega) s
    rw [hstep] at hstop
    cases hstop

/-- Calls a function that calls another one, which returns at once. -/
def nestedCalls : Program where
  words := (Instr.encode (.call ⟨3⟩) ++ Instr.encode .halt ++ Instr.encode (.call ⟨6⟩) ++
    Instr.encode .ret ++ Instr.encode .ret).toArray

theorem nestedCalls_are_well_bracketed :
    Context.Performs nestedCalls (.start .main 0 42 none) {} [] (.start .main 0 42 none) {} ∧
      ∃ c₁ c' : Context,
        (Context.start .main 0 42 none).step nestedCalls ({} : Shared) = (.proceed, c₁, {}) ∧
          Context.Performs nestedCalls c₁ {} [.call ⟨6⟩, .ret, .ret] c' {} ∧
            c'.stack = .empty ∧ c'.pc = 2 := by
  have hstart : Context.Performs nestedCalls (.start .main 0 42 none) {} []
    (.start .main 0 42 none) {} := .refl _ _
  obtain ⟨c₁, s₁, hstep, hback⟩ :=
    ((calls_are_well_bracketed hstart).1 ⟨3⟩ rfl).1 (by decide)
  cases hstep
  have hinner := hback [.call ⟨6⟩, .ret, .ret] _ _
    (.step rfl rfl (.step rfl rfl (.step rfl rfl (.refl _ _)))) ?_
  · exact ⟨hstart, _, _, rfl, .step rfl rfl (.step rfl rfl (.step rfl rfl (.refl _ _))),
      (hinner.1 rfl).2⟩
  · intro x u hx
    rcases hx.cases_step rfl with rfl | hx
    · decide
    rcases hx.cases_step rfl with rfl | hx
    · decide
    rcases hx.cases_step rfl with rfl | hx
    · decide
    · exact absurd hx Context.not_passes_nil

end RegisterMachine
