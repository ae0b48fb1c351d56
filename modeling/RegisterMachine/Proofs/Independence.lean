import RegisterMachine.Proofs.Executions

/-!
# Independent contexts

Contexts that share registers and lists may disturb each other. They do not if none alters a
place that another uses when each runs alone: then every context does in any company, and in any
order, what it does alone, and the state left in the end is the same for every order.

The argument: a run depends only on the places it uses, so it can be moved to any state that
agrees with its own there; the rest of that state it leaves alone.
-/

namespace RegisterMachine

namespace Context

/-- A context executes an instruction on its way, at a shared state. -/
def Executes (p : Program) (c : Context) (s : Shared) (i : Instr) (t : Shared) : Prop :=
  ∃ c', Reaches p c s c' t ∧ c'.current? p = some i

/-- A context reads or writes a register, or touches a list, during its run. -/
def Uses (p : Program) (c : Context) (s : Shared) (x : Place) : Prop :=
  ∃ i t, Executes p c s i t ∧ i.Uses x

/-- A context writes a register or changes a list during its run. -/
def Alters (p : Program) (c : Context) (s : Shared) (x : Place) : Prop :=
  ∃ i t, Executes p c s i t ∧ i.Alters t x

/-- Run alone from a state, neither context alters what the other uses. -/
def Independent (p : Program) (s : Shared) (c d : Context) : Prop :=
  ∀ x, (Alters p c s x → ¬ Uses p d s x) ∧ (Alters p d s x → ¬ Uses p c s x)

variable {p : Program} {c c' d : Context} {s s' t t' : Shared} {i : Instr} {x : Place}

theorem Independent.symm (h : Independent p s c d) : Independent p s d c :=
  fun x => (h x).symm

theorem Alters.uses (h : Alters p c s x) : Uses p c s x := by
  obtain ⟨i, t, hexec, halters⟩ := h
  exact ⟨i, t, hexec, halters.uses⟩

theorem executes_current (h : c.current? p = some i) : Executes p c s i s :=
  ⟨c, .refl c s, h⟩

theorem Executes.after (hstep : c.step p s = (.proceed, c', s')) (h : Executes p c' s' i t) :
    Executes p c s i t := by
  obtain ⟨c'', hreaches, hcurrent⟩ := h
  exact ⟨c'', .step hstep hreaches, hcurrent⟩

theorem Uses.after (hstep : c.step p s = (.proceed, c', s')) (h : Uses p c' s' x) :
    Uses p c s x := by
  obtain ⟨i, t, hexec, huses⟩ := h
  exact ⟨i, t, hexec.after hstep, huses⟩

theorem Alters.after (hstep : c.step p s = (.proceed, c', s')) (h : Alters p c' s' x) :
    Alters p c s x := by
  obtain ⟨i, t, hexec, halters⟩ := h
  exact ⟨i, t, hexec.after hstep, halters⟩

/-! ### One step in two states -/

theorem agree_step (p : Program) (c : Context) (s : Shared) :
    Shared.Agree (fun x => ¬ Alters p c s x) s (c.step p s).2.2 := by
  cases h : c.current? p with
  | none =>
    obtain ⟨status, hstep⟩ := step_of_current?_none h
    rw [hstep]
    exact ⟨fun _ _ => rfl, fun _ _ => rfl⟩
  | some i =>
    rw [step_of_current? h]
    refine (i.agree_effect c.id c.random s).mono fun x hx halters => hx ?_
    exact ⟨i, s, executes_current h, halters⟩

/-- A step can be moved to a state that agrees on what the context uses, and leaves the rest of
that state as it is. -/
theorem step_moved {P : Place → Prop} {signal : Signal} (hstep : c.step p s = (signal, c', s'))
    (huses : ∀ x, Uses p c s x → P x) (h : Shared.Agree P s t) :
    ∃ t', c.step p t = (signal, c', t') ∧ c.emission p t = c.emission p s ∧
      Shared.Agree P s' t' ∧ Shared.Agree (fun x => ¬ P x) t t' := by
  cases hcurrent : c.current? p with
  | none =>
    obtain ⟨status, hstop⟩ := step_of_current?_none hcurrent
    rw [hstop] at hstep
    cases hstep
    refine ⟨t, hstop t, ?_, h, ⟨fun _ _ => rfl, fun _ _ => rfl⟩⟩
    simp only [emission, hcurrent, Option.bind_none]
  | some i =>
    have hplace : ∀ x, i.Uses x → P x := fun x hx => huses x ⟨i, s, executes_current hcurrent, hx⟩
    have hreads : ∀ r ∈ i.reads, P (.register r) := fun r hr => hplace (.register r) (.inl hr)
    have htouched : ∀ id, i.touched? = some id → P (.list id) := fun id hid => hplace (.list id) hid
    have halike := Instr.alike_effect c.id c.random hreads htouched h
    rw [step_of_current? hcurrent] at hstep
    cases hstep
    refine ⟨(i.effect c.id c.random t).2, ?_, ?_, halike.shared, ?_⟩
    · rw [step_of_current? hcurrent, halike.flow]
    · simp only [emission, hcurrent, Option.bind_some,
        Instr.emits?_eq_of_agree c.id hreads htouched h]
    · -- whatever the instruction alters in the other state it also uses in this one
      exact (i.agree_effect c.id c.random t).mono fun x hx halters => hx (hplace x halters.uses)

theorem Runs.agree {entries : List Entry} {report : ContextReport}
    (h : Runs p c s entries report t) : Shared.Agree (fun x => ¬ Alters p c s x) s t := by
  induction h with
  | @stop c c' s s' status hstep =>
    have hagree := agree_step p c s
    rwa [hstep] at hagree
  | @proceed c c' s s' t entries report hstep _ ih =>
    have hagree := agree_step p c s
    rw [hstep] at hagree
    exact hagree.trans (ih.mono fun x hx halters => hx (halters.after hstep))

/-- A run can be moved to a state that agrees on what it uses, and leaves the rest of that state
as it is. -/
theorem Runs.moved {P : Place → Prop} {entries : List Entry} {report : ContextReport}
    (h : Runs p c s entries report s') (huses : ∀ x, Uses p c s x → P x)
    (hagree : Shared.Agree P s t) :
    ∃ t', Runs p c t entries report t' ∧ Shared.Agree P s' t' ∧
      Shared.Agree (fun x => ¬ P x) t t' := by
  induction h generalizing t with
  | stop hstep =>
    obtain ⟨t', hstep', hemission, hfinal, hkept⟩ := step_moved hstep huses hagree
    rw [← hemission]
    exact ⟨t', .stop hstep', hfinal, hkept⟩
  | proceed hstep _ ih =>
    obtain ⟨t₁, hstep', hemission, hshared, hkept⟩ := step_moved hstep huses hagree
    obtain ⟨t', hruns, hfinal, hkept'⟩ := ih (fun x hx => huses x (hx.after hstep)) hshared
    rw [← hemission]
    exact ⟨t', .proceed hstep' hruns, hfinal, hkept.trans hkept'⟩

/-! ### Contexts one after another -/

/-- What contexts leave that each did what it does alone: where one of them alters anything, what
it leaves alone, and elsewhere what was there at the start. -/
structure Combined (p : Program) (s : Shared) (solo : Context → ContextReport × Shared)
    (done : List Context) (t : Shared) : Prop where
  altered : ∀ c ∈ done, Shared.Agree (Alters p c s) (solo c).2 t
  kept : Shared.Agree (fun x => ∀ c ∈ done, ¬ Alters p c s x) s t

variable {solo : Context → ContextReport × Shared} {done : List Context}

theorem Combined.start (p : Program) (s : Shared) (solo : Context → ContextReport × Shared) :
    Combined p s solo [] s where
  altered _ hc := absurd hc List.not_mem_nil
  kept := ⟨fun _ _ => rfl, fun _ _ => rfl⟩

/-- One more context that is independent of those before it does what it does alone. -/
theorem Combined.next (h : Combined p s solo done t) {entries : List Entry}
    (hsolo : Runs p c s entries (solo c).1 (solo c).2)
    (hind : ∀ d ∈ done, Independent p s d c) :
    ∃ t', Runs p c t entries (solo c).1 t' ∧ Combined p s solo (c :: done) t' := by
  have hagree : Shared.Agree (Uses p c s) s t :=
    h.kept.mono fun x hx d hd halters => (hind d hd x).1 halters hx
  obtain ⟨t', hruns, hused, hrest⟩ := hsolo.moved (fun _ hx => hx) hagree
  refine ⟨t', hruns, ?_, ?_⟩
  · intro d hd
    rcases List.mem_cons.1 hd with rfl | hd
    · exact hused.mono fun x hx => hx.uses
    · have hkept := hrest.mono fun x hx => (hind d hd x).1 hx
      exact (h.altered d hd).trans hkept
  · -- a place the context uses is as it left it alone, any other as it found it
    have hleft : Shared.Agree (fun x => Uses p c s x ∧ ¬ Alters p c s x) s t' :=
      (hsolo.agree.mono fun x hx => hx.2).trans (hused.mono fun x hx => hx.1)
    have hfound : Shared.Agree (fun x => ¬ Uses p c s x ∧ ∀ d ∈ done, ¬ Alters p d s x) s t' :=
      (h.kept.mono fun x hx => hx.2).trans (hrest.mono fun x hx => hx.1)
    refine (hleft.split hfound).mono fun x hx => ?_
    have hnot : ¬ Alters p c s x := hx c List.mem_cons_self
    by_cases huses : Uses p c s x
    · exact .inl ⟨huses, hnot⟩
    · exact .inr ⟨huses, fun d hd => hx d (List.mem_cons_of_mem c hd)⟩

theorem Combined.runsAll {emitted : Context → List Entry} {todo : List Context}
    (h : Combined p s solo done t)
    (hsolo : ∀ c ∈ todo, Runs p c s (emitted c) (solo c).1 (solo c).2)
    (hdone : ∀ d ∈ done, ∀ c ∈ todo, Independent p s d c)
    (htodo : todo.Pairwise (Independent p s)) :
    ∃ t', RunsAll p todo t (todo.map fun c => ((solo c).1, emitted c)) t' ∧
      Combined p s solo (todo.reverse ++ done) t' := by
  induction todo generalizing done t with
  | nil => exact ⟨t, .nil t, h⟩
  | cons c todo ih =>
    obtain ⟨hfirst, hrest⟩ := List.pairwise_cons.1 htodo
    obtain ⟨t₁, hruns, hcombined⟩ := h.next (hsolo c List.mem_cons_self)
      fun d hd => hdone d hd c List.mem_cons_self
    have hdone' : ∀ d ∈ c :: done, ∀ e ∈ todo, Independent p s d e := by
      intro d hd e he
      rcases List.mem_cons.1 hd with rfl | hd
      · exact hfirst e he
      · exact hdone d hd e (List.mem_cons_of_mem c he)
    obtain ⟨t', hall, hfinal⟩ := ih hcombined
      (fun d hd => hsolo d (List.mem_cons_of_mem c hd)) hdone' hrest
    refine ⟨t', .cons hruns hall, ?_⟩
    simpa using hfinal

/-- What is left does not depend on the order. -/
theorem Combined.unique {done' : List Context} (h : Combined p s solo done t)
    (h' : Combined p s solo done' t') (hsame : ∀ c, c ∈ done ↔ c ∈ done') :
    t.registers = t'.registers ∧ t.lists = t'.lists := by
  have haltered : Shared.Agree (fun x => ∃ c ∈ done, Alters p c s x) t t' := by
    have hone (c : Context) (hc : c ∈ done) : Shared.Agree (Alters p c s) t t' :=
      (h.altered c hc).symm.trans (h'.altered c ((hsame c).1 hc))
    exact ⟨fun r ⟨c, hc, hr⟩ => (hone c hc).registers r hr,
      fun id ⟨c, hc, hid⟩ => (hone c hc).lists id hid⟩
  have hkept : Shared.Agree (fun x => ∀ c ∈ done, ¬ Alters p c s x) t t' :=
    h.kept.symm.trans (h'.kept.mono fun x hx c hc => hx c ((hsame c).2 hc))
  have hall : Shared.Agree (fun _ => True) t t' := by
    refine (haltered.split hkept).mono fun x _ => ?_
    by_cases hx : ∃ c ∈ done, Alters p c s x
    · exact .inl hx
    · exact .inr fun c hc hc' => hx ⟨c, hc, hc'⟩
  exact ⟨hall.registers_eq, hall.lists_eq⟩

theorem filter_flatMap_context {order : List Context} {emitted : Context → List Entry}
    (htag : ∀ c ∈ order, ∀ e ∈ emitted c, e.context = c.id) (hids : (order.map (·.id)).Nodup)
    (hc : c ∈ order) : (order.flatMap emitted).filter (fun e => e.context == c.id) = emitted c := by
  induction order with
  | nil => cases hc
  | cons d order ih =>
    obtain ⟨hd, hids⟩ := List.nodup_cons.1 hids
    have htag' : ∀ c ∈ order, ∀ e ∈ emitted c, e.context = c.id :=
      fun c hc => htag c (List.mem_cons_of_mem d hc)
    rw [List.flatMap_cons, List.filter_append]
    rcases List.mem_cons.1 hc with rfl | hc
    · have hown : (emitted c).filter (fun e => e.context == c.id) = emitted c :=
        List.filter_eq_self.2 fun e he => beq_iff_eq.2 (htag c List.mem_cons_self e he)
      have hother : (order.flatMap emitted).filter (fun e => e.context == c.id) = [] := by
        refine List.filter_eq_nil_iff.2 fun e he heq => hd ?_
        obtain ⟨d, hmem, he⟩ := List.mem_flatMap.1 he
        exact List.mem_map.2 ⟨d, hmem, (htag' d hmem e he).symm.trans (beq_iff_eq.1 heq)⟩
      rw [hown, hother, List.append_nil]
    · have hother : (emitted d).filter (fun e => e.context == c.id) = [] := by
        refine List.filter_eq_nil_iff.2 fun e he heq => hd ?_
        have hid : c.id = d.id := (beq_iff_eq.1 heq).symm.trans (htag d List.mem_cons_self e he)
        exact List.mem_map.2 ⟨c, hc, hid⟩
      rw [hother, ih htag' hids hc, List.nil_append]

end Context

/-- The entries a later state has beyond those of an earlier one. -/
def Shared.newEntries (s t : Shared) : List Entry := t.output.entries.toList.drop s.output.length

theorem Shared.newEntries_eq {s t : Shared} {entries : List Entry}
    (h : t.output.entries.toList = s.output.entries.toList ++ entries) :
    s.newEntries t = entries := by
  rw [newEntries, h]
  exact List.drop_left

/-- Contexts with ids of their own that end and are independent when run alone can be run one
after another in any order: each ends with the report and the entries of its run alone, and the
registers and lists left in the end are the same for every order. -/
theorem independent_contexts_commute {p : Program} {s : Shared} {contexts : List Context}
    {solo : Context → ContextReport × Shared} (hids : (contexts.map (·.id)).Nodup)
    (hends : ∀ c ∈ contexts, ∃ fuel, Context.run p fuel c s = some (solo c))
    (hind : contexts.Pairwise (Context.Independent p s)) :
    ∃ registers lists, ∀ order : List Context, order.Perm contexts →
      ∃ fuel t, Context.runAll p fuel order s = some (order.map fun c => (solo c).1, t) ∧
        t.registers = registers ∧ t.lists = lists ∧
        ∀ c ∈ order, (s.newEntries t).filter (fun e => e.context == c.id) =
          s.newEntries (solo c).2 := by
  have hsolo : ∀ c ∈ contexts,
      Context.Runs p c s (s.newEntries (solo c).2) (solo c).1 (solo c).2 := by
    intro c hc
    obtain ⟨fuel, hrun⟩ := hends c hc
    obtain ⟨entries, hruns⟩ := Context.exists_runs_of_run hrun
    rwa [Shared.newEntries_eq hruns.entries_eq]
  have hall : ∀ order : List Context, order.Perm contexts → ∃ t,
      Context.RunsAll p order s (order.map fun c => ((solo c).1, s.newEntries (solo c).2)) t ∧
        Context.Combined p s solo (order.reverse ++ []) t := by
    intro order hperm
    exact (Context.Combined.start p s solo).runsAll (fun c hc => hsolo c (hperm.mem_iff.1 hc))
      (fun d hd => absurd hd List.not_mem_nil)
      ((hperm.pairwise_iff fun h => h.symm).2 hind)
  obtain ⟨t₀, _, hcombined₀⟩ := hall contexts (List.Perm.refl _)
  refine ⟨t₀.registers, t₀.lists, ?_⟩
  intro order hperm
  obtain ⟨t, hruns, hcombined⟩ := hall order hperm
  obtain ⟨fuel, hrun⟩ := hruns.exists_runAll
  have hsame : ∀ c, c ∈ order.reverse ++ [] ↔ c ∈ contexts.reverse ++ [] := by
    intro c
    simp [hperm.mem_iff]
  obtain ⟨hregisters, hlists⟩ := hcombined.unique hcombined₀ hsame
  rw [List.map_map] at hrun
  refine ⟨fuel, t, hrun, hregisters, hlists, ?_⟩
  intro c hc
  have hentries := hruns.entries_eq
  rw [List.flatMap_map] at hentries
  rw [Shared.newEntries_eq hentries]
  refine Context.filter_flatMap_context ?_ ((hperm.map _).nodup_iff.2 hids) hc
  intro d hd
  exact (hsolo d (hperm.mem_iff.1 hd)).context_eq.2

def Instr.places (i : Instr) : List Place :=
  (i.reads ++ i.written?.toList).map .register ++ i.touched?.toList.map .list

theorem Instr.Uses.mem_places {i : Instr} {x : Place} (h : i.Uses x) : x ∈ i.places := by
  cases x with
  | register r => simpa [places, Uses] using h
  | list id => simpa [places, Uses] using h

namespace Context

variable {p : Program} {c d : Context} {s : Shared}

def executed (p : Program) : Nat → Context → Shared → List Instr
  | 0, _, _ => []
  | fuel + 1, c, s =>
    (c.current? p).toList ++
      match c.step p s with
      | (.proceed, c, s) => executed p fuel c s
      | (.stop _, _, _) => []

theorem Executes.mem_executed {fuel : Nat} {i : Instr} {t : Shared} (h : Executes p c s i t)
    (hrun : (run p fuel c s).isSome = true) : i ∈ executed p fuel c s := by
  obtain ⟨c', hreaches, hcurrent⟩ := h
  induction hreaches generalizing fuel with
  | refl c s =>
    cases fuel with
    | zero => cases hrun
    | succ fuel => simp [executed, hcurrent]
  | step hstep _ ih =>
    cases fuel with
    | zero => cases hrun
    | succ fuel =>
      simp only [run, hstep] at hrun
      simp only [executed, hstep]
      exact List.mem_append_right _ (ih hrun hcurrent)

theorem independent_of_executed {fuel : Nat} (hc : (run p fuel c s).isSome = true)
    (hd : (run p fuel d s).isSome = true)
    (h : ∀ i ∈ executed p fuel c s, ∀ j ∈ executed p fuel d s, ∀ x ∈ i.places, x ∉ j.places) :
    Independent p s c d := by
  have hapart : ∀ x, Uses p c s x → ¬ Uses p d s x := by
    rintro x ⟨i, t, hi, hx⟩ ⟨j, u, hj, hx'⟩
    exact h i (hi.mem_executed hc) j (hj.mem_executed hd) x hx.mem_places hx'.mem_places
  intro x
  exact ⟨fun halters => hapart x halters.uses, fun halters huses => hapart x huses halters.uses⟩

end Context

/-- One function fills a list, the other ends by a fault after its first result. -/
def fillerAndFaulter : Program where
  words := ([Instr.loadInt ⟨0⟩ ⟨5⟩, .listDeclare ⟨3⟩, .listAppend ⟨3⟩ ⟨0⟩, .outputList ⟨7⟩ ⟨3⟩,
    .ret, .loadInt ⟨1⟩ ⟨6⟩, .outputInt ⟨7⟩ ⟨1⟩, .outputInt ⟨7⟩ ⟨9000⟩].flatMap
      Instr.encode).toArray
  functions := Table.ofList [(1, 0), (2, 12)]

def fillerAndFaulterContexts : List Context :=
  [.start (.function 1) 0 42 (some 100), .start (.function 2) 12 42 (some 100)]

def fillerAndFaulterSolo (c : Context) : ContextReport × Shared :=
  (Context.run fillerAndFaulter 10 c {}).getD (⟨c.id, .halted, 0⟩, {})

theorem fillerAndFaulter_commute :
    ∃ registers lists, ∀ order : List Context, order.Perm fillerAndFaulterContexts →
      ∃ fuel t, Context.runAll fillerAndFaulter fuel order {} =
          some (order.map fun c => (fillerAndFaulterSolo c).1, t) ∧
        t.registers = registers ∧ t.lists = lists ∧
        ∀ c ∈ order, (Shared.newEntries {} t).filter (fun e => e.context == c.id) =
          Shared.newEntries {} (fillerAndFaulterSolo c).2 := by
  have hends : ∀ c ∈ fillerAndFaulterContexts,
      (Context.run fillerAndFaulter 10 c ({} : Shared)).isSome = true := by decide
  refine independent_contexts_commute (by decide) ?_ ?_
  · intro c hc
    obtain ⟨r, hr⟩ := Option.isSome_iff_exists.1 (hends c hc)
    exact ⟨10, by rw [fillerAndFaulterSolo, hr, Option.getD_some]⟩
  · refine List.pairwise_pair.2 ?_
    exact Context.independent_of_executed (hends _ (by decide)) (hends _ (by decide)) (by decide)

end RegisterMachine
