import RegisterMachine.Machine
import RegisterMachine.Proofs.Workers

/-!
# What runs report

A machine is called again and again: preloads, runs and resets in any order. Each run reports
every context it started, whether or not one before it faulted, and hands out the entries these
emitted and no others: the collector is empty whenever a run begins. This is so whether the
contexts of functions follow each other or several workers execute them at the same time.
-/

namespace RegisterMachine

theorem nodup_eraseDups {α : Type} [BEq α] [LawfulBEq α] (l : List α) : l.eraseDups.Nodup := by
  generalize hn : l.length = n
  induction n using Nat.strongRecOn generalizing l with
  | _ n ih =>
    cases l with
    | nil => simp
    | cons a rest =>
      rw [List.eraseDups_cons, List.nodup_cons]
      have hlen : (rest.filter fun b => !b == a).length < n := by
        have hle := List.length_filter_le (fun b => !b == a) rest
        rw [List.length_cons] at hn
        omega
      refine ⟨?_, ih _ hlen _ rfl⟩
      simp [List.mem_eraseDups, List.mem_filter]

theorem flatMap_filter_of_nodup {ids : List UInt32} (hids : ids.Nodup) (entries : List Entry)
    (id : UInt32) :
    (ids.flatMap fun k => (entries.filter fun e => e.id == k).filter fun e => e.id == id) =
      if id ∈ ids then entries.filter fun e => e.id == id else [] := by
  induction ids with
  | nil => rfl
  | cons k ids ih =>
    obtain ⟨hk, hids⟩ := List.nodup_cons.1 hids
    rw [List.flatMap_cons, ih hids]
    by_cases hkid : k = id
    · subst hkid
      simp [List.filter_filter, hk]
    · have hnone : (entries.filter fun e => e.id == k).filter (fun e => e.id == id) = [] := by
        refine List.filter_eq_nil_iff.2 fun e he heq => hkid ?_
        exact (beq_iff_eq.1 (List.mem_filter.1 he).2).symm.trans (beq_iff_eq.1 heq)
      simp [hnone, Ne.symm hkid]

theorem filter_groupById (entries : List Entry) (id : UInt32) :
    (groupById entries).filter (fun e => e.id == id) = entries.filter fun e => e.id == id := by
  rw [groupById, List.filter_flatMap, flatMap_filter_of_nodup (nodup_eraseDups _)]
  split
  case isTrue => rfl
  case isFalse hid =>
    refine (List.filter_eq_nil_iff.2 fun e he heq => hid ?_).symm
    exact List.mem_eraseDups.2 (List.mem_map.2 ⟨e, he, beq_iff_eq.1 heq⟩)

/-- Grouping neither drops an entry nor adds one. -/
theorem perm_groupById (entries : List Entry) : (groupById entries).Perm entries := by
  refine List.perm_iff_count.2 fun e => ?_
  have hown (l : List Entry) : (l.filter fun e' => e'.id == e.id).count e = l.count e :=
    List.count_filter (beq_self_eq_true _)
  rw [← hown (groupById entries), filter_groupById, hown entries]

/-! ### Histories -/

/-- One use of a machine. A run comes with the workers that are there for it. -/
inductive Call where
  | preload (bindings : List PreloadBinding) (source : Preload.Source)
  | run (p : Program) (pool : Pool)
  | reset

/-- A run in the course of a history: the state it found, what it reported, the state it left. -/
structure RunRecord where
  program : Program
  pool : Pool
  before : Shared
  report : RunReport
  after : Shared

namespace Machine

/-- Carries out a call, with the record of a run; `none` if the run does not end in time. -/
def perform (fuel : Nat) (m : Machine) : Call → Option (Option RunRecord × Machine)
  | .preload bindings source => some (none, (m.preload bindings source).1)
  | .run p pool => (m.run pool fuel p).map fun (report, m') =>
      (some ⟨p, pool, m.shared, report, m'.shared⟩, m')
  | .reset => some (none, m.reset)

def performAll (fuel : Nat) : List Call → Machine → Option (List RunRecord × Machine)
  | [], m => some ([], m)
  | call :: calls, m =>
    (m.perform fuel call).bind fun (record?, m) =>
      (performAll fuel calls m).map fun (records, m) => (record?.toList ++ records, m)

end Machine

/-- A context that has done nothing yet and draws from the stream of its id. -/
structure Context.Fresh (config : Config) (c : Context) : Prop where
  stack : c.stack = .empty
  instructions : c.instructions = 0
  random : c.random = .forContext config.seed c.id.ordinal
  limit : c.limit = config.limit

namespace Machine

variable {m m' : Machine} {p : Program} {pool : Pool} {fuel : Nat} {report : RunReport}

theorem fresh_start (m : Machine) (id : ContextId) (entry : Nat) :
    (m.start id entry).Fresh m.config :=
  ⟨rfl, rfl, rfl, rfl⟩

theorem fresh_of_mem_followers {main : ContextReport} {c : Context}
    (h : c ∈ m.followers p main) : c.Fresh m.config := by
  unfold followers at h
  split at h
  · obtain ⟨⟨id, entry⟩, _, rfl⟩ := List.mem_map.1 h
    exact m.fresh_start _ _
  · cases h

end Machine

end RegisterMachine
