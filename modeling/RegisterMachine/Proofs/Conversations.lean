import RegisterMachine.Pool
import RegisterMachine.Proofs.Executions

/-!
# Conversations

What a context does in a conversation it does on a shared state that gives the same answers, and the
other way round. So a context on the shared state is one that is answered at once, by nobody else.
-/

namespace RegisterMachine

/-- The state after events, if it gives the answers that they have. -/
def Shared.follow? : Shared → List Event → Option Shared
  | s, [] => some s
  | s, .exchange q reply :: events =>
    if (s.answer q).1 = reply then (s.answer q).2.follow? events else none
  | s, .emission entry :: events =>
    follow? { s with output := s.output.append entry } events

theorem Shared.follow?_append (s : Shared) (before after : List Event) :
    s.follow? (before ++ after) = (s.follow? before).bind fun t => t.follow? after := by
  induction before generalizing s with
  | nil => rfl
  | cons event before ih =>
    cases event with
    | exchange q reply =>
      simp only [List.cons_append, follow?, ih]
      split <;> rfl
    | emission entry => simp only [List.cons_append, follow?, ih]

namespace Conversation

/-- The replies to come are the answers in some events. -/
def Foresees (talk : Conversation) (events : List Event) : Prop :=
  ∀ i q reply, events[i]? = some (.exchange q reply) →
    talk.replies (talk.events.length + i) q = reply

theorem foresees_append {talk : Conversation} (before : List Event) {after : List Event}
    (h : talk.Foresees (before ++ after)) :
    talk.Foresees before ∧ Foresees { talk with events := talk.events ++ before } after := by
  constructor
  · intro i q reply hi
    have hlt := (List.getElem?_eq_some_iff.1 hi).1
    exact h i q reply (by rw [List.getElem?_append_left hlt, hi])
  · intro i q reply hi
    have hreply := h (before.length + i) q reply (by rw [List.getElem?_append_right (by omega),
      Nat.add_sub_cancel_left, hi])
    rw [List.length_append, Nat.add_assoc]
    exact hreply

instance (q : Request) : Inhabited q.Answer :=
  match q with
  | .load _ | .item _ _ => ⟨.zero⟩
  | .length _ | .snapshot _ => ⟨none⟩
  | .store _ _ | .declare _ | .append _ _ | .remove _ _ | .edit _ _ _ => ⟨()⟩

/-- The replies that some events have, and any others elsewhere. -/
def scripted (events : List Event) : Replies := fun n q =>
  match events[n]? with
  | some (.exchange q' reply) => if h : q' = q then h ▸ reply else default
  | _ => default

theorem foresees_scripted (events : List Event) : Foresees ⟨scripted events, []⟩ events := by
  intro i q reply hi
  simp only [scripted, List.length_nil, Nat.zero_add, hi, dite_true]

end Conversation

/-- What a context does in a conversation and on a shared state. In a conversation it adds events,
and its entries bear its name; a shared state that gives the same answers makes it do the same. On a
shared state it meets answers that, foreseen in a conversation, make it do the same. -/
structure Mirrors (who : ContextId) (f : Conversation → Flow × Conversation)
    (g : Shared → Flow × Shared) : Prop where
  forth : ∀ talk, ∃ events, (f talk).2 = { talk with events := talk.events ++ events } ∧
    (∀ entry ∈ events.filterMap Event.emitted?, entry.context = who) ∧
    ∀ s t, s.follow? events = some t → g s = ((f talk).1, t)
  back : ∀ s, ∃ events, s.follow? events = some (g s).2 ∧
    ∀ talk, talk.Foresees events → f talk = ((g s).1, { talk with events := talk.events ++ events })

namespace Mirrors

theorem done {who : ContextId} (flow : Flow) :
    Mirrors who (fun talk => (flow, talk)) fun s => (flow, s) where
  forth talk := by
    refine ⟨[], by rw [List.append_nil], by simp, ?_⟩
    intro s t hfollow
    cases hfollow
    rfl
  back s := ⟨[], rfl, fun talk _ => by rw [List.append_nil]⟩

theorem asking {who : ContextId} {q : Request} {k : q.Answer → Conversation → Flow × Conversation}
    {k' : q.Answer → Shared → Flow × Shared} (h : ∀ reply, Mirrors who (k reply) (k' reply)) :
    Mirrors who (fun talk => World.asking talk who q k) fun s => World.asking s who q k' where
  forth talk := by
    obtain ⟨events, htalk, hentries, hfollow⟩ :=
      (h (talk.replies talk.events.length q)).forth (World.answer who q talk).2
    refine ⟨.exchange q (talk.replies talk.events.length q) :: events, ?_, hentries, ?_⟩
    · simp only [World.asking]
      refine htalk.trans ?_
      simp [World.answer]
    · intro s t hstate
      rw [Shared.follow?] at hstate
      split at hstate
      case isFalse => cases hstate
      case isTrue hreply =>
        have hshared := hfollow _ t hstate
        calc World.asking s who q k' = k' (s.answer q).1 (s.answer q).2 := rfl
          _ = _ := by rw [hreply, hshared]; rfl
  back s := by
    obtain ⟨events, hfollow, hforeseen⟩ := (h (s.answer q).1).back (s.answer q).2
    refine ⟨.exchange q (s.answer q).1 :: events, ?_, ?_⟩
    · rw [Shared.follow?, if_pos rfl]
      exact hfollow
    · intro talk htalk
      have hreply : talk.replies talk.events.length q = (s.answer q).1 := htalk 0 q _ rfl
      have hanswer : World.answer who q talk = ((s.answer q).1,
          { talk with events := talk.events ++ [.exchange q (s.answer q).1] }) := by
        rw [← hreply]
        rfl
      have hrest := (Conversation.foresees_append [_] htalk).2
      simp only [World.asking, hanswer]
      refine (hforeseen _ hrest).trans ?_
      simp [World.answer]

theorem loading {who : ContextId} {reg : Word} {k : Word → Conversation → Flow × Conversation}
    {k' : Word → Shared → Flow × Shared} (h : ∀ w, Mirrors who (k w) (k' w)) :
    Mirrors who (fun talk => World.loading talk who reg k) fun s => World.loading s who reg k' := by
  unfold World.loading
  cases Registers.slot? reg.bits with
  | none => exact done _
  | some i => exact asking h

theorem storing (who : ContextId) (reg value : Word) :
    Mirrors who (fun talk => World.storing talk who reg value)
      fun s => World.storing s who reg value := by
  unfold World.storing
  cases Registers.slot? reg.bits with
  | none => exact done _
  | some i => exact asking fun _ => done .next

theorem emitting (out : Word) (payload : Payload) (who : ContextId) :
    Mirrors who (fun talk => World.emitting talk out payload who)
      fun s => World.emitting s out payload who := by
  constructor
  · intro talk
    refine ⟨[.emission ⟨out.bits, payload, who⟩], rfl, by simp [Event.emitted?], ?_⟩
    intro s t hfollow
    cases hfollow
    rfl
  · intro s
    exact ⟨[.emission ⟨out.bits, payload, who⟩], rfl, fun talk _ => rfl⟩

theorem execute (i : Instr) (who : ContextId) (r : RandomStream) :
    Mirrors who (i.execute who r) (i.execute who r) := by
  cases i with
  | nop | label | function | endIf | listPreload | halt | jump | call | ret | orElse => exact done _
  | loadInt dst value | loadFloat dst value => exact storing who dst value
  | clear dst => exact storing who dst .zero
  | random dst => exact storing who dst r.drawFloat
  | unary op dst src => exact loading fun a => storing who dst (op.eval a)
  | binary op dst left right =>
    exact loading fun a => loading fun b => storing who dst (op.eval a b)
  | jumpIfZero | jumpIfNotZero | ifNonzero => exact loading fun w => done _
  | listDeclare => exact asking fun _ => done .next
  | listAppend => exact loading fun w => asking fun _ => done .next
  | listRead dst => exact loading fun i => asking fun w => storing who dst w
  | listRemove => exact loading fun i => asking fun _ => done .next
  | listEdit => exact loading fun i => loading fun w => asking fun _ => done .next
  | listLength dst list =>
    exact asking (q := .length list.bits) fun n => storing who dst (.ofNat (n.getD 0))
  | outputInt out => exact loading fun w => emitting out (.int w.toInt32) who
  | outputFloat out => exact loading fun w => emitting out (.float w) who
  | outputList out list =>
    unfold Instr.execute
    refine asking fun items? => ?_
    cases items? with
    | none => exact done .next
    | some items => exact emitting out (.list items) who

end Mirrors

namespace Context

variable {p : Program} {c : Context}

theorem step_mirrors (p : Program) (c : Context) (talk : Conversation) :
    ∃ events, (c.step p talk).2.2 = { talk with events := talk.events ++ events } ∧
      (∀ entry ∈ events.filterMap Event.emitted?, entry.context = c.id) ∧
      ∀ s t : Shared, s.follow? events = some t →
        c.step p s = ((c.step p talk).1, (c.step p talk).2.1, t) := by
  cases hcurrent : c.current? p with
  | none =>
    obtain ⟨status, hstep⟩ := step_of_current?_none hcurrent
    refine ⟨[], by rw [hstep, List.append_nil], by simp, ?_⟩
    intro s t hfollow
    cases hfollow
    rw [hstep, hstep]
  | some i =>
    obtain ⟨events, htalk, hentries, hshared⟩ := (Mirrors.execute i c.id c.random).forth talk
    rw [step_execute hcurrent]
    refine ⟨events, htalk, hentries, ?_⟩
    intro s t hfollow
    rw [step_execute hcurrent, hshared s t hfollow]

theorem run_mirrors {fuel : Nat} {talk talk' : Conversation} {report : ContextReport}
    (h : run p fuel c talk = some (report, talk')) :
    ∃ events, talk'.events = talk.events ++ events ∧
      (∀ entry ∈ events.filterMap Event.emitted?, entry.context = c.id) ∧
      ∀ s t : Shared, s.follow? events = some t → run p fuel c s = some (report, t) := by
  induction fuel generalizing c talk with
  | zero => cases h
  | succ fuel ih =>
    obtain ⟨events, htalk, hentries, hstep⟩ := step_mirrors p c talk
    have hid := id_step p c talk
    simp only [run] at h ⊢
    generalize c.step p talk = outcome at h htalk hstep hid
    obtain ⟨signal, c', talk₁⟩ := outcome
    obtain rfl : talk₁ = _ := htalk
    obtain hid : c'.id = c.id := hid
    cases signal with
    | stop status =>
      cases h
      exact ⟨events, rfl, hentries, fun s t hfollow => by rw [hstep s t hfollow]⟩
    | proceed =>
      obtain ⟨rest, htalk', hentries', hrun⟩ := ih h
      refine ⟨events ++ rest, by rw [htalk', List.append_assoc], ?_, ?_⟩
      · rw [List.filterMap_append]
        rw [hid] at hentries'
        exact List.forall_mem_append.2 ⟨hentries, hentries'⟩
      · intro s t hfollow
        rw [Shared.follow?_append] at hfollow
        obtain ⟨s', hs', ht⟩ := Option.bind_eq_some_iff.1 hfollow
        rw [hstep s s' hs']
        exact hrun s' t ht

theorem step_foreseen (p : Program) (c : Context) (s : Shared) :
    ∃ events, s.follow? events = some (c.step p s).2.2 ∧
      ∀ talk : Conversation, talk.Foresees events →
        c.step p talk = ((c.step p s).1, (c.step p s).2.1,
          { talk with events := talk.events ++ events }) := by
  cases hcurrent : c.current? p with
  | none =>
    obtain ⟨status, hstep⟩ := step_of_current?_none hcurrent
    refine ⟨[], by rw [hstep]; rfl, ?_⟩
    intro talk _
    rw [hstep, hstep, List.append_nil]
  | some i =>
    obtain ⟨events, hfollow, hforeseen⟩ := (Mirrors.execute i c.id c.random).back s
    rw [step_execute hcurrent]
    refine ⟨events, hfollow, ?_⟩
    intro talk htalk
    rw [step_execute hcurrent, hforeseen talk htalk]

theorem run_foreseen {fuel : Nat} {s t : Shared} {report : ContextReport}
    (h : run p fuel c s = some (report, t)) :
    ∃ events, s.follow? events = some t ∧
      ∀ talk : Conversation, talk.Foresees events →
        run p fuel c talk = some (report, { talk with events := talk.events ++ events }) := by
  induction fuel generalizing c s with
  | zero => cases h
  | succ fuel ih =>
    obtain ⟨events, hfollow, hstep⟩ := step_foreseen p c s
    simp only [run] at h ⊢
    generalize c.step p s = outcome at h hfollow hstep
    obtain ⟨signal, c', s'⟩ := outcome
    cases signal with
    | stop status =>
      cases h
      refine ⟨events, hfollow, ?_⟩
      intro talk htalk
      rw [hstep talk htalk]
    | proceed =>
      obtain ⟨rest, hfollow', hrun⟩ := ih h
      refine ⟨events ++ rest, ?_, ?_⟩
      · rw [Shared.follow?_append, hfollow]
        exact hfollow'
      · intro talk htalk
        obtain ⟨hnow, hlater⟩ := Conversation.foresees_append events htalk
        rw [hstep talk hnow, ← List.append_assoc]
        exact hrun _ hlater

end Context

end RegisterMachine
