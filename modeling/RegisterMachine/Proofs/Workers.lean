import Mathlib.Data.List.Forall2
import Mathlib.Data.List.Nodup
import RegisterMachine.Proofs.Conversations

/-!
# Workers

What is known of contexts that several workers executed, whatever the memory: each of them did what
the answers it got made it do, and the log has all their events, those of each context in their
order. With the plain memory, contexts that do not overlap are contexts that run in turn.
-/

namespace RegisterMachine

def tagged (queue : ContextId × List Event) : Log := queue.2.map (queue.1, ·)

variable {queues : List (ContextId × List Event)} {who : ContextId} {events : List Event}

section Keys

variable {κ α : Type} [DecidableEq κ] {key : α → κ} {k : κ} {l : List α}

end Keys

namespace Context

variable {p : Program}

theorem converseAll_of_le {fuel fuel' : Nat} (hle : fuel ≤ fuel') {replies : ContextId → Replies}
    {cs : List Context} {talks : List (ContextReport × List Event)}
    (h : converseAll p fuel replies cs = some talks) :
    converseAll p fuel' replies cs = some talks := by
  induction cs generalizing talks with
  | nil => exact h
  | cons c cs ih =>
    obtain ⟨⟨report, talk⟩, hrun, hrest⟩ := Option.bind_eq_some_iff.1 h
    obtain ⟨talks', hall, rfl⟩ := Option.map_eq_some_iff.1 hrest
    simp only [converseAll, run_of_le hle hrun, Option.bind_some, ih hall, Option.map_some]

theorem runTogether_of_le {fuel fuel' : Nat} (hle : fuel ≤ fuel') {memory : Memory}
    {execution : Execution} {cs : List Context} {s : Shared} {r : List ContextReport × Shared}
    (h : runTogether p fuel memory execution cs s = some r) :
    runTogether p fuel' memory execution cs s = some r := by
  obtain ⟨talks, hall, hreplay⟩ := Option.bind_eq_some_iff.1 h
  rw [runTogether, converseAll_of_le hle hall]
  exact hreplay

theorem forall₂_converseAll {P : Context → ContextReport × List Event → Prop} {fuel : Nat}
    {replies : ContextId → Replies} {cs : List Context}
    {talks : List (ContextReport × List Event)}
    (hrun : ∀ {c report talk},
      run p fuel c (Conversation.mk (replies c.id) []) = some (report, talk) →
        P c (report, talk.events))
    (h : converseAll p fuel replies cs = some talks) : List.Forall₂ P cs talks := by
  induction cs generalizing talks with
  | nil =>
    cases h
    exact .nil
  | cons c cs ih =>
    obtain ⟨⟨report, talk⟩, hfirst, hrest⟩ := Option.bind_eq_some_iff.1 h
    obtain ⟨talks', hall, rfl⟩ := Option.map_eq_some_iff.1 hrest
    exact .cons (hrun hfirst) (ih hall)

/-- A context runs to its end against some answers. -/
def Converses (p : Program) (c : Context) (talk : ContextReport × List Event) : Prop :=
  ∃ fuel replies left, run p fuel c (Conversation.mk replies []) = some (talk.1, left) ∧
    left.events = talk.2

theorem context_of_converses {cs : List Context} {talks : List (ContextReport × List Event)}
    (h : List.Forall₂ (Converses p) cs talks) : talks.map (·.1.context) = cs.map (·.id) := by
  induction h with
  | nil => rfl
  | cons htalk _ ih =>
    obtain ⟨fuel, replies, left, hrun, _⟩ := htalk
    rw [List.map_cons, List.map_cons, ih, context_of_run hrun]

end Context

/-- Contexts that ran at the same time on a memory, each with its report and its events, and the
log of all they did. -/
structure Context.Together (p : Program) (memory : Memory) (cs : List Context) (s : Shared)
    (talks : List (ContextReport × List Event)) (log : Log) (t : Shared) : Prop where
  converses : List.Forall₂ (Converses p) cs talks
  complete : log.Perm (talks.flatMap fun talk => tagged (talk.1.context, talk.2))
  /-- The events of each context are in the order in which it went through them. -/
  ordered : (cs.map (·.id)).Nodup → ∀ talk ∈ talks,
    log.filter (fun e => e.1 == talk.1.context) = tagged (talk.1.context, talk.2)
  /-- Each request is answered on what all before it left, beginning with the state they found. -/
  answered : ∀ before who q reply after, log = before ++ (who, .exchange q reply) :: after →
    ∃ state, memory.replay (memory.enter s.registers s.lists) before = some state ∧
      (memory.answer who q state).1 = reply
  left : ∃ state, memory.replay (memory.enter s.registers s.lists) log = some state ∧
    memory.leave state = (t.registers, t.lists)
  output : t.output.entries.toList = s.output.entries.toList ++ log.entries

namespace Context

variable {p : Program} {cs : List Context} {s t : Shared} {fuel : Nat} {memory : Memory}
  {execution : Execution} {reports : List ContextReport}

end Context

/-! ### Contexts that do not overlap -/

theorem Shared.answer_output (s : Shared) (output : Collector) (q : Request) :
    Shared.answer q { s with output := output } =
      ((s.answer q).1, { (s.answer q).2 with output := output }) := by
  cases q <;> rfl

theorem Shared.follow?_of_replay (state : Shared) (output : Collector) (log : Log) :
    follow? { state with output := output } (log.map (·.2)) =
      (Memory.plain.replay state log).map fun left =>
        { left with output := log.entries.foldl Collector.append output } := by
  induction log generalizing state output with
  | nil => rfl
  | cons event log ih =>
    obtain ⟨who, event⟩ := event
    cases event with
    | exchange q reply =>
      have hanswer : Memory.plain.answer who q state = state.answer q := rfl
      simp only [List.map_cons, follow?, answer_output, Memory.replay, hanswer]
      split
      case isTrue => exact ih (state.answer q).2 output
      case isFalse => rfl
    | emission entry => exact ih state (output.append entry)

theorem Memory.settle_plain (s : Shared) (log : Log) :
    plain.settle s log = s.follow? (log.map (·.2)) :=
  (Shared.follow?_of_replay (plain.enter s.registers s.lists) s.output log).symm

theorem Execution.events_log (replies : ContextId → Replies)
    (talks : List (ContextReport × List Event)) :
    (Execution.log ⟨replies, []⟩ talks).map (·.2) = talks.flatMap (·.2) := by
  simp only [Execution.log, interleave, List.flatMap_map, List.map_flatMap, List.map_map,
    Function.comp_def, List.map_id']

namespace Context

variable {p : Program} {fuel : Nat} {cs : List Context} {s t : Shared}

theorem runAll_of_follow? {replies : ContextId → Replies}
    {talks : List (ContextReport × List Event)} (hall : converseAll p fuel replies cs = some talks)
    (hfollow : s.follow? (talks.flatMap (·.2)) = some t) :
    runAll p fuel cs s = some (talks.map (·.1), t) := by
  induction cs generalizing talks s with
  | nil =>
    cases hall
    cases hfollow
    rfl
  | cons c cs ih =>
    obtain ⟨⟨report, talk⟩, hrun, hrest⟩ := Option.bind_eq_some_iff.1 hall
    obtain ⟨talks, hothers, rfl⟩ := Option.map_eq_some_iff.1 hrest
    obtain ⟨events, htalk, _, hshared⟩ := run_mirrors hrun
    rw [List.flatMap_cons, htalk, List.nil_append, Shared.follow?_append] at hfollow
    obtain ⟨s', hs', ht⟩ := Option.bind_eq_some_iff.1 hfollow
    simp only [runAll, hshared s s' hs', Option.bind_some, ih hothers ht, Option.map_some,
      List.map_cons]

theorem converseAll_congr {replies replies' : ContextId → Replies}
    (h : ∀ c ∈ cs, replies c.id = replies' c.id) :
    converseAll p fuel replies cs = converseAll p fuel replies' cs := by
  induction cs with
  | nil => rfl
  | cons c cs ih =>
    obtain ⟨hfirst, hrest⟩ := List.forall_mem_cons.1 h
    simp only [converseAll, hfirst, ih hrest]

theorem exists_converseAll_of_runAll {reports : List ContextReport}
    (h : runAll p fuel cs s = some (reports, t)) (hids : (cs.map (·.id)).Nodup) :
    ∃ replies talks, converseAll p fuel replies cs = some talks ∧ talks.map (·.1) = reports ∧
      s.follow? (talks.flatMap (·.2)) = some t := by
  induction cs generalizing s reports with
  | nil =>
    cases h
    exact ⟨fun _ => Conversation.scripted [], [], rfl, rfl, rfl⟩
  | cons c cs ih =>
    obtain ⟨⟨report, s'⟩, hrun, h⟩ := Option.bind_eq_some_iff.1 h
    obtain ⟨⟨rest, t'⟩, hall, h⟩ := Option.map_eq_some_iff.1 h
    cases h
    obtain ⟨hnew, hids⟩ := List.nodup_cons.1 hids
    obtain ⟨events, hfollow, hforeseen⟩ := run_foreseen hrun
    obtain ⟨replies, talks, hothers, hreports, hrest⟩ := ih hall hids
    let replies' : ContextId → Replies := fun who =>
      if who = c.id then Conversation.scripted events else replies who
    have hfirst : replies' c.id = Conversation.scripted events := if_pos rfl
    have hsame : ∀ other ∈ cs, replies' other.id = replies other.id := by
      intro other hother
      refine if_neg fun heq => hnew ?_
      exact List.mem_map.2 ⟨other, hother, heq⟩
    refine ⟨replies', (report, events) :: talks, ?_, by rw [List.map_cons, hreports], ?_⟩
    · simp only [converseAll, hfirst, hforeseen _ (Conversation.foresees_scripted events),
        Option.bind_some, converseAll_congr hsame, hothers, Option.map_some, List.nil_append]
    · rw [List.flatMap_cons, Shared.follow?_append, hfollow]
      exact hrest

theorem runAll_of_runTogether {replies : ContextId → Replies} {r : List ContextReport × Shared}
    (h : runTogether p fuel .plain ⟨replies, []⟩ cs s = some r) : runAll p fuel cs s = some r := by
  obtain ⟨talks, hall, h⟩ := Option.bind_eq_some_iff.1 h
  obtain ⟨t, hsettle, rfl⟩ := Option.map_eq_some_iff.1 h
  rw [Memory.settle_plain, Execution.events_log] at hsettle
  exact runAll_of_follow? hall hsettle

/-- What a single worker can do is what several can on the plain memory if the events of contexts do
not overlap. -/
theorem runAll_iff_runTogether {r : List ContextReport × Shared} (hids : (cs.map (·.id)).Nodup) :
    runAll p fuel cs s = some r ↔
      ∃ replies, runTogether p fuel .plain ⟨replies, []⟩ cs s = some r := by
  constructor
  · intro h
    obtain ⟨replies, talks, hall, hreports, hfollow⟩ := exists_converseAll_of_runAll h hids
    refine ⟨replies, ?_⟩
    simp only [runTogether, hall, Option.bind_some, Memory.settle_plain, Execution.events_log,
      hfollow, Option.map_some, hreports]
  · rintro ⟨replies, h⟩
    exact runAll_of_runTogether h

theorem runTogether_nil (p : Program) (fuel : Nat) (memory : Memory) (execution : Execution)
    (s : Shared) : runTogether p fuel memory execution [] s = some ([], s) := by
  have hlog : ∀ order, interleave order [] = [] := by
    intro order
    induction order with
    | nil => rfl
    | cons i order ih => exact ih
  simp only [runTogether, converseAll, Option.bind_some, Execution.log, List.map_nil, hlog,
    Memory.settle, Memory.replay, Option.map_some, memory.leave_enter]
  rfl

end Context

/-- Whether contexts under workers come one after another: there is one worker, or no context, or
their events do not overlap on the plain memory. -/
def Pool.InTurn (pool : Pool) (cs : List Context) : Prop :=
  pool = .single ∨ cs = [] ∨ ∃ replies, pool = .several .plain ⟨replies, []⟩

theorem Pool.InTurn.runAll {pool : Pool} {cs : List Context} (hturn : pool.InTurn cs) {p : Program}
    {fuel : Nat} {s : Shared} {r : List ContextReport × Shared}
    (h : pool.runAll p fuel cs s = some r) : Context.runAll p fuel cs s = some r := by
  cases pool with
  | single => exact h
  | several memory execution =>
    rcases hturn with hsingle | rfl | ⟨replies, hplain⟩
    · cases hsingle
    · exact (Context.runTogether_nil p fuel memory execution s).symm.trans h
    · cases hplain
      exact Context.runAll_of_runTogether h

/-! ### What workers do -/

/-- What a context did as far as it is reported. -/
def outcome (talk : ContextReport × List Event) : ContextReport × List Entry :=
  (talk.1, talk.2.filterMap Event.emitted?)

namespace Context

variable {p : Program} {cs : List Context} {s t : Shared} {memory : Memory}
  {talks : List (ContextReport × List Event)} {log : Log}

namespace Together

theorem perm_entries (h : Together p memory cs s talks log t) :
    log.entries.Perm (talks.flatMap fun talk => (outcome talk).2) := by
  refine (h.complete.filterMap _).trans ?_
  simp only [List.filterMap_flatMap, tagged, List.filterMap_map]
  exact .refl _

end Together

/-- A context runs, and others after it under workers: each on the state the one before it left or,
where they do not come one after another, all at the same time on the state the first one left. What
they emitted is in order of emission. -/
inductive RunsUnder (p : Program) : Pool → List Context → Shared →
    List (ContextReport × List Entry) → List Entry → Shared → Prop
  | inTurn {pool : Pool} {first : Context} {cs : List Context} {s t : Shared}
      {outcomes : List (ContextReport × List Entry)} : pool.InTurn cs →
      RunsAll p (first :: cs) s outcomes t →
      RunsUnder p pool (first :: cs) s outcomes (outcomes.flatMap (·.2)) t
  | atOnce {memory : Memory} {execution : Execution} {first : Context} {cs : List Context}
      {s s' t : Shared} {entries : List Entry} {report : ContextReport}
      {talks : List (ContextReport × List Event)} {log : Log} :
      ¬ Pool.InTurn (.several memory execution) cs →
      Runs p first s entries report s' → Together p memory cs s' talks log t →
      RunsUnder p (.several memory execution) (first :: cs) s
        ((report, entries) :: talks.map outcome) (entries ++ log.entries) t

theorem RunsAll.context_eq {outcomes : List (ContextReport × List Entry)}
    (h : RunsAll p cs s outcomes t) :
    outcomes.map (·.1.context) = cs.map (·.id) ∧
      ∀ o ∈ outcomes, ∀ e ∈ o.2, e.context = o.1.context := by
  induction h with
  | nil => exact ⟨rfl, fun o ho => absurd ho List.not_mem_nil⟩
  | cons hruns _ ih =>
    obtain ⟨hreport, hentries⟩ := hruns.context_eq
    refine ⟨by rw [List.map_cons, List.map_cons, ih.1, hreport], ?_⟩
    refine List.forall_mem_cons.2 ⟨?_, ih.2⟩
    intro e he
    rw [hentries e he, hreport]

namespace RunsUnder

variable {pool : Pool} {outcomes : List (ContextReport × List Entry)} {emitted : List Entry}

theorem context_eq (h : RunsUnder p pool cs s outcomes emitted t) :
    outcomes.map (·.1.context) = cs.map (·.id) := by
  cases h with
  | inTurn _ hruns => exact hruns.context_eq.1
  | atOnce _ hfirst hrest =>
    rw [List.map_cons, List.map_cons, hfirst.context_eq.1, List.map_map,
      ← context_of_converses hrest.converses]
    rfl

theorem entries_eq (h : RunsUnder p pool cs s outcomes emitted t) :
    t.output.entries.toList = s.output.entries.toList ++ emitted := by
  cases h with
  | inTurn _ hruns => exact hruns.entries_eq
  | atOnce _ hfirst hrest => rw [hrest.output, hfirst.entries_eq, List.append_assoc]

theorem perm (h : RunsUnder p pool cs s outcomes emitted t) :
    emitted.Perm (outcomes.flatMap (·.2)) := by
  cases h with
  | inTurn _ _ => exact .refl _
  | atOnce _ _ hrest =>
    rw [List.flatMap_cons, List.flatMap_map]
    exact hrest.perm_entries.append_left _

end RunsUnder

end Context

theorem Context.forall₂_runAll {P : Context → ContextReport → Prop} {p : Program} {fuel : Nat}
    (hrun : ∀ {c : Context} {s t : Shared} {report : ContextReport},
      run p fuel c s = some (report, t) → P c report)
    {cs : List Context} {s t : Shared} {reports : List ContextReport}
    (h : runAll p fuel cs s = some (reports, t)) : List.Forall₂ P cs reports := by
  induction cs generalizing s reports with
  | nil =>
    cases h
    exact .nil
  | cons c cs ih =>
    obtain ⟨⟨report, s'⟩, hfirst, h⟩ := Option.bind_eq_some_iff.1 h
    obtain ⟨⟨rest, t'⟩, hrest, h⟩ := Option.map_eq_some_iff.1 h
    cases h
    exact .cons (hrun hfirst) (ih hrest)

/-- What holds of every run of a context, on whatever world, holds of contexts under workers. -/
theorem Pool.forall₂_reports {P : Context → ContextReport → Prop} {p : Program} {fuel : Nat}
    (hrun : ∀ {σ : Type} [World σ] {c : Context} {s t : σ} {report : ContextReport},
      Context.run p fuel c s = some (report, t) → P c report)
    {pool : Pool} {cs : List Context} {s t : Shared} {reports : List ContextReport}
    (h : pool.runAll p fuel cs s = some (reports, t)) : List.Forall₂ P cs reports := by
  cases pool with
  | single => exact Context.forall₂_runAll hrun h
  | several memory execution =>
    obtain ⟨talks, hall, h⟩ := Option.bind_eq_some_iff.1 h
    obtain ⟨t', _, h⟩ := Option.map_eq_some_iff.1 h
    cases h
    exact List.forall₂_map_right_iff.2 (Context.forall₂_converseAll hrun hall)

theorem Pool.runAll_of_le {pool : Pool} {p : Program} {fuel fuel' : Nat} (hle : fuel ≤ fuel')
    {cs : List Context} {s : Shared} {r : List ContextReport × Shared}
    (h : pool.runAll p fuel cs s = some r) : pool.runAll p fuel' cs s = some r := by
  cases pool with
  | single => exact Context.runAll_of_le hle h
  | several memory execution => exact Context.runTogether_of_le hle h

end RegisterMachine
