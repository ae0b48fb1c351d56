import RegisterMachine.Proofs.Targets

/-!
# Simulation

Executing the words of an accepted program and executing the program as it is written go in step.
Every context of the program is located in the words: at the address of its index, with the
addresses of its return indices on the stack, and the same otherwise. One step of the located
context is the step of the context, located.
-/

namespace RegisterMachine

def CallStack.map (f : Nat → Nat) (s : CallStack) : CallStack where
  frames := s.frames.map f
  maxDepth := s.maxDepth
  depth_le := by simpa using s.depth_le

theorem CallStack.push?_map (f : Nat → Nat) (s : CallStack) (place : Nat) :
    (s.map f).push? (f place) = (s.push? place).map (CallStack.map f) := by
  by_cases h : s.frames.length < s.maxDepth
  · simp [push?, map, h]
  · simp [push?, map, h]

theorem CallStack.pop?_map (f : Nat → Nat) (s : CallStack) :
    (s.map f).pop? = s.pop?.map fun top => (f top.1, top.2.map f) := by
  obtain ⟨frames, maxDepth, hdepth⟩ := s
  cases frames with
  | nil => rfl
  | cons place rest => rfl

namespace SymbolicContext

def locate (p : List SymbolicInstr) (w : SymbolicContext) : Context where
  id := w.id
  pc := w.pc p
  stack := w.stack.map (address p)
  random := w.random
  instructions := w.instructions
  limit := w.limit

def located {σ : Type} (p : List SymbolicInstr) (outcome : Signal × SymbolicContext × σ) :
    Signal × Context × σ :=
  (outcome.1, outcome.2.1.locate p, outcome.2.2)

/-- Only a preload is executed in several steps. -/
def Steady (p : List SymbolicInstr) (w : SymbolicContext) : Prop :=
  w.phase = 0 ∨ ∃ x, p[w.index]? = some x ∧ x.op = .listPreload ∧
    w.phase < Opcode.listPreload.width

variable {p : List SymbolicInstr} {w : SymbolicContext} {x : SymbolicInstr}

theorem exhausted?_locate (p : List SymbolicInstr) (w : SymbolicContext) :
    (w.locate p).exhausted? = w.exhausted? := rfl

theorem Steady.phase_eq_zero (h : w.Steady p) (hx : p[w.index]? = some x)
    (hop : x.op ≠ .listPreload) : w.phase = 0 := by
  rcases h with hphase | ⟨y, hy, hpre, _⟩
  · exact hphase
  · rw [hx] at hy
    obtain rfl := Option.some.inj hy
    exact absurd hpre hop

theorem Steady.phase_lt (h : w.Steady p) : w.phase < Opcode.listPreload.width := by
  rcases h with hphase | ⟨_, _, _, hlt⟩
  · rw [hphase]
    exact Nat.succ_pos _
  · exact hlt

theorem rest_locate (h : w.Steady p) (hx : p[w.index]? = some x) (hop : x.op = .listPreload) :
    w.rest.locate p = (w.locate p).pass .nop := by
  have hphase := h.phase_lt
  have hnext : address p (w.index + 1) = address p w.index + Opcode.listPreload.width := by
    rw [address_succ hx, SymbolicInstr.width, hop]
  have hpc : w.rest.pc p = w.pc p + Instr.nop.width := by
    have hone : Instr.nop.width = 1 := rfl
    unfold rest pc
    split
    case isTrue => rw [hone, Nat.add_assoc]
    case isFalse hlast =>
      simp only [hnext, hone]
      omega
  have hrest : w.rest.id = w.id ∧ w.rest.stack = w.stack ∧ w.rest.random = w.random ∧
      w.rest.instructions = w.instructions + 1 ∧ w.rest.limit = w.limit := by
    unfold rest
    split <;> exact ⟨rfl, rfl, rfl, rfl, rfl⟩
  obtain ⟨hid, hstack, hrandom, hinstructions, hlimit⟩ := hrest
  simp only [locate, Context.pass, hpc, hid, hstack, hrandom, hinstructions, hlimit]
  rfl

theorem pass_locate {i : Instr} (t : Word) (hphase : w.phase = 0) (hx : p[w.index]? = some x)
    (hop : i.opcode = x.op) : (w.pass i).locate p = (w.locate p).pass (i.withTarget t) := by
  have hpc : (w.pass i).pc p = w.pc p + (i.withTarget t).width := by
    simp only [pc, pass, hphase, address_succ hx, Instr.width, Instr.opcode_withTarget, hop,
      SymbolicInstr.width, Nat.add_zero]
  simp only [locate, Context.pass, hpc, Instr.advanceStream_withTarget]
  rfl

/-- A branch to an address goes where the branch to the index with that address goes. -/
theorem transfer_locate (hphase : w.phase = 0) {branch : Nat} {t : Word}
    (ht : t.toNat = address p branch) (pc : Nat) (flow : Flow) :
    (w.locate p).transfer pc (flow.redirect t) =
      ((w.transfer branch pc flow).1, (w.transfer branch pc flow).2.locate p) := by
  have hpc : (w.locate p).pc = address p w.index := by
    simp only [locate, SymbolicContext.pc, hphase, Nat.add_zero]
  cases flow with
  | next => rfl
  | halt => rfl
  | badRegister index => rfl
  | jump target =>
    simp only [Flow.redirect, Context.transfer, transfer, locate, SymbolicContext.pc, hphase, ht,
      Nat.add_zero]
  | call target =>
    have hpush := CallStack.push?_map (address p) w.stack w.index
    simp only [Flow.redirect, Context.transfer, transfer, hpc]
    simp only [locate, hpush]
    cases w.stack.push? w.index with
    | none => rfl
    | some stack => simp only [Option.map_some, SymbolicContext.pc, hphase, ht, Nat.add_zero]
  | ret =>
    have hpop := CallStack.pop?_map (address p) w.stack
    simp only [Flow.redirect, Context.transfer, transfer]
    simp only [locate, hpop]
    cases w.stack.pop? with
    | none => rfl
    | some top => simp only [Option.map_some, SymbolicContext.pc, hphase, Nat.add_zero]

theorem phase_transfer (w : SymbolicContext) (branch pc : Nat) (flow : Flow) :
    (w.transfer branch pc flow).2.phase = w.phase := by
  cases flow with
  | call target =>
    unfold transfer
    cases w.stack.push? w.index <;> rfl
  | ret =>
    unfold transfer
    cases w.stack.pop? <;> rfl
  | _ => rfl

/-! ### One step -/

section Step

variable {σ : Type} [World σ] (h : Linked p (scan (place p)).layout) (s : σ)
include h

theorem fetch?_of_preload {i phase : Nat} (hx : p[i]? = some x) (hop : x.op = .listPreload)
    (hphase : phase < Opcode.listPreload.width) :
    (link p).program.fetch? (address p i + phase) = some (.instr .nop) := by
  have hcode := h.hasCode hx
  have hsplit : (scan (place p)).layout.encode (placedAt p i x) =
      List.replicate phase (.ofNat Opcode.nop.id) ++ (Instr.nop.encode ++
        List.replicate (Opcode.listPreload.width - (phase + 1)) (.ofNat Opcode.nop.id)) := by
    have hinstr : (placedAt p i x).instr.op = .listPreload := hop
    have hone : Instr.nop.encode = List.replicate 1 (.ofNat Opcode.nop.id) := rfl
    have hwidth : phase + (1 + (Opcode.listPreload.width - (phase + 1))) =
        Opcode.listPreload.width := by omega
    rw [hone, List.replicate_append_replicate, List.replicate_append_replicate, hwidth]
    simp only [Layout.encode, SymbolicInstr.width, hinstr]
  rw [hsplit] at hcode
  have hnop := hcode.right.left
  rw [List.length_replicate] at hnop
  exact Program.fetch?_of_hasCode hnop

theorem step_locate_end (hw : w.Steady p) (hx : p[w.index]? = none) :
    (w.locate p).step (link p).program s = located p (w.step p s) := by
  have hphase : w.phase = 0 := by
    rcases hw with hphase | ⟨y, hy, _⟩
    · exact hphase
    · rw [hx] at hy
      cases hy
  have hpc : (w.locate p).pc = encodedWidth p := by
    simp only [locate, pc, hphase, Nat.add_zero]
    exact address_of_length_le (List.getElem?_eq_none_iff.1 hx)
  have hfetch : (link p).program.fetch? (w.locate p).pc = none := by
    apply Program.fetch?_of_size_le
    exact Nat.le_of_eq (h.size_words.trans hpc.symm)
  simp only [Context.step, hfetch, step, hx, located]

theorem step_locate_preload (hw : w.Steady p) (hx : p[w.index]? = some x)
    (hop : x.op = .listPreload) :
    (w.locate p).step (link p).program s = located p (w.step p s) := by
  have hfetch : (link p).program.fetch? (w.locate p).pc = some (.instr .nop) :=
    fetch?_of_preload h hx hop hw.phase_lt
  have hrest := rest_locate hw hx hop
  simp only [Context.step, hfetch, step, hx, exhausted?_locate]
  cases w.exhausted? with
  | some limit => rfl
  | none =>
    simp only [hop, if_true, located, hrest]
    rfl

theorem step_locate_instr (hwidth : encodedWidth p < 4294967296) (hw : w.Steady p)
    (hx : p[w.index]? = some x) (hop : x.op ≠ .listPreload) :
    (w.locate p).step (link p).program s = located p (w.step p s) := by
  have hphase := hw.phase_eq_zero hx hop
  obtain ⟨i, hview, hencode⟩ := h.encode_eq hx hop
  have htarget : (Word.ofNat (address p (branchIndex p w.index i))).toNat =
      address p (branchIndex p w.index i) := by
    apply Word.toNat_ofNat_of_lt
    have := address_le p (branchIndex p w.index i)
    omega
  generalize Word.ofNat (address p (branchIndex p w.index i)) = t at hencode htarget
  have hpc : (w.locate p).pc = address p w.index := by
    simp only [locate, pc, hphase, Nat.add_zero]
  have hfetch : (link p).program.fetch? (w.locate p).pc = some (.instr (i.withTarget t)) := by
    rw [hpc]
    apply Program.fetch?_of_hasCode
    rw [← hencode]
    exact h.hasCode hx
  have hpass := pass_locate t hphase hx (Instr.opcode_of_decode? hview)
  simp only [Context.step, hfetch, step, hx, exhausted?_locate]
  cases w.exhausted? with
  | some limit => rfl
  | none =>
    have hpassed : (w.pass i).phase = 0 := hphase
    simp only [if_neg hop, hview, Instr.execute_withTarget, ← hpass, Flow.redirected,
      transfer_locate hpassed htarget]
    rfl

/-- One step of the words is one step of the program. -/
theorem step_locate (hwidth : encodedWidth p < 4294967296) (hw : w.Steady p) :
    (w.locate p).step (link p).program s = located p (w.step p s) := by
  cases hx : p[w.index]? with
  | none => exact step_locate_end h s hw hx
  | some x =>
    by_cases hop : x.op = .listPreload
    · exact step_locate_preload h s hw hx hop
    · exact step_locate_instr h s hwidth hw hx hop

end Step

theorem steady_rest (hx : p[w.index]? = some x) (hop : x.op = .listPreload) :
    w.rest.Steady p := by
  unfold rest
  split
  case isTrue hlt => exact .inr ⟨x, hx, hop, hlt⟩
  case isFalse => exact .inl rfl

theorem Steady.step {σ : Type} [World σ] (hw : w.Steady p) (s : σ) : (w.step p s).2.1.Steady p := by
  unfold SymbolicContext.step
  split
  case h_1 => exact hw
  case h_2 x hx =>
    split
    case h_1 => exact hw
    case h_2 =>
      split
      case isTrue hop => exact steady_rest hx hop
      case isFalse hop =>
        split
        case h_1 => exact hw
        case h_2 i _ =>
          left
          simp only [phase_transfer]
          exact hw.phase_eq_zero hx hop

end SymbolicContext

/-! ### Runs -/

/-- Where some number of steps leads; a context that has stopped stays as it is. -/
def iterate {γ σ : Type} (step : γ → σ → Signal × γ × σ) : Nat → γ → σ → Signal × γ × σ
  | 0, c, s => (.proceed, c, s)
  | n + 1, c, s =>
    match step c s with
    | (.proceed, c, s) => iterate step n c s
    | (.stop status, c, s) => (.stop status, c, s)

section Run

variable {σ : Type} [World σ] {p : List SymbolicInstr} (h : Linked p (scan (place p)).layout)
  (hwidth : encodedWidth p < 4294967296)
include h hwidth

-- both inductions carry steadiness along, the one fact a step needs of the context
theorem iterate_locate (n : Nat) {w : SymbolicContext} (hw : w.Steady p) (s : σ) :
    iterate (Context.step (link p).program) n (w.locate p) s =
      SymbolicContext.located p (iterate (SymbolicContext.step p) n w s) := by
  induction n generalizing w s with
  | zero => rfl
  | succ n ih =>
    have hsteady := hw.step s
    simp only [iterate, SymbolicContext.step_locate h s hwidth hw]
    generalize w.step p s = outcome at hsteady ⊢
    obtain ⟨signal, w', s'⟩ := outcome
    cases signal with
    | proceed => exact ih hsteady s'
    | stop status => rfl

theorem run_locate (fuel : Nat) {w : SymbolicContext} (hw : w.Steady p) (s : σ) :
    Context.run (link p).program fuel (w.locate p) s = SymbolicContext.run p fuel w s := by
  induction fuel generalizing w s with
  | zero => rfl
  | succ fuel ih =>
    have hsteady := hw.step s
    simp only [Context.run, SymbolicContext.run, SymbolicContext.step_locate h s hwidth hw]
    generalize w.step p s = outcome at hsteady ⊢
    obtain ⟨signal, w', s'⟩ := outcome
    cases signal with
    | proceed => exact ih hsteady s'
    | stop status => rfl

end Run

/-- Where a context may start. -/
inductive EntryPoint where
  | top
  | function (id : UInt32)

namespace EntryPoint

/-- The index of the first instruction; `none` for a function that is not declared. -/
def index? (p : List SymbolicInstr) : EntryPoint → Option Nat
  | .top => some 0
  | .function id =>
    if .function id ∈ p then some (p.idxOf (SymbolicInstr.function id) + 1) else none

def pc? (p : Program) : EntryPoint → Option Nat
  | .top => some 0
  | .function id => p.functions.find? id

theorem pc?_link {p : List SymbolicInstr} (h : Linked p (scan (place p)).layout)
    {entry : EntryPoint} {index : Nat} (hentry : entry.index? p = some index) :
    entry.pc? (link p).program = some (address p index) := by
  cases entry with
  | top =>
    obtain rfl : 0 = index := Option.some.inj hentry
    rw [address_zero]
    rfl
  | function id =>
    by_cases hmem : .function id ∈ p
    · simp only [index?, if_pos hmem, Option.some.injEq] at hentry
      rw [← hentry]
      exact h.target .function id hmem
    · simp only [index?, if_neg hmem] at hentry
      cases hentry

end EntryPoint

theorem SymbolicContext.locate_start (p : List SymbolicInstr) (who : ContextId) (index : Nat)
    (seed : UInt64) (limit : Option Nat) :
    (SymbolicContext.start who index seed limit).locate p =
      Context.start who (address p index) seed limit := rfl

/-- From every entry point, the words of an accepted program do step by step what the program
says, and end with the same report and the same shared state, if they end. -/
theorem assembled_executes_as_written {p : List SymbolicInstr} {a : Assembly}
    (hassemble : assemble p = .ok a) (hwidth : encodedWidth p < 4294967296) {entry : EntryPoint}
    {index : Nat} (hentry : entry.index? p = some index) (who : ContextId) (seed : UInt64)
    (limit : Option Nat) (s : Shared) :
    ∃ pc, entry.pc? a.program = some pc ∧
      (∀ n, iterate (Context.step a.program) n (.start who pc seed limit) s =
        SymbolicContext.located p
          (iterate (SymbolicContext.step p) n (.start who index seed limit) s)) ∧
      ∀ fuel, Context.run a.program fuel (.start who pc seed limit) s =
        SymbolicContext.run p fuel (.start who index seed limit) s := by
  obtain ⟨hcheck, rfl⟩ := assemble_eq_ok_iff.1 hassemble
  have hlinked := linked_of_check hcheck
  have hsteady : (SymbolicContext.start who index seed limit).Steady p := .inl rfl
  refine ⟨address p index, EntryPoint.pc?_link hlinked hentry, ?_, ?_⟩
  · intro n
    rw [← SymbolicContext.locate_start]
    exact iterate_locate hlinked hwidth n hsteady s
  · intro fuel
    rw [← SymbolicContext.locate_start]
    exact run_locate hlinked hwidth fuel hsteady s

/-- A function that asks for a preload and chooses, called from the top. -/
def choosingFunction : List SymbolicInstr :=
  [.call 3, .halt, .function 3, .listPreload 0 0, .ifNonzero 0, .loadInt 1 5, .orElse,
    .loadInt 1 7, .endIf, .outputInt 0 1, .ret]

theorem choosingFunction_executes_as_written :
    ∃ pc, EntryPoint.pc? (link choosingFunction).program (.function 3) = some pc ∧
      (∀ n, iterate (Context.step (link choosingFunction).program) n
          (.start (.function 3) pc 42 (some 100)) ({} : Shared) =
        SymbolicContext.located choosingFunction
          (iterate (SymbolicContext.step choosingFunction) n
            (.start (.function 3) 3 42 (some 100)) {})) ∧
      ∀ fuel, Context.run (link choosingFunction).program fuel
          (.start (.function 3) pc 42 (some 100)) ({} : Shared) =
        SymbolicContext.run choosingFunction fuel (.start (.function 3) 3 42 (some 100)) {} :=
  assembled_executes_as_written (assemble_eq_ok_iff.2 ⟨by decide, rfl⟩) (by decide) (by decide)
    (.function 3) 42 (some 100) {}

end RegisterMachine
