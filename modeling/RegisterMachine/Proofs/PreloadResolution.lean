import RegisterMachine.Preload.Resolve
import RegisterMachine.Proofs.Footprint
import RegisterMachine.Proofs.ListRefinement

/-!
# Resolved preloads

Of all bindings to a list, the last one whose key is present decides what the list holds in the
end, whatever the list held before and whatever earlier bindings put there. A list without such a
binding stays as it is, cell for cell. The summary counts each binding once.
-/

namespace RegisterMachine.Preload

/-- What resolving bindings must leave of a list store, and how it must count. -/
structure Resolved (source : Source) (bindings : List PreloadBinding) (lists lists' : Lists)
    (summary : Summary) : Prop where
  filled : ∀ before b after values, bindings = before ++ b :: after → b.list.toNat < 128 →
    source.find? b.key = some values →
    (∀ b' ∈ after, b'.list = b.list → source.find? b'.key = none) →
    lists'.isDeclared b.list = true ∧ lists'.snapshot? b.list = some (values.take 1024)
  untouched : ∀ id, (∀ b ∈ bindings, b.list = id → source.find? b.key = none) →
    lists'.buffer? id = lists.buffer? id
  total : summary.loaded + summary.missing + summary.skipped = bindings.length
  skipped : summary.skipped = bindings.countP fun b => 128 ≤ b.list.toNat
  missing : summary.missing =
    bindings.countP fun b => b.list.toNat < 128 ∧ source.find? b.key = none
  truncated : summary.truncated =
    bindings.countP fun b => b.list.toNat < 128 ∧ ∃ values ∈ source.find? b.key, 1024 < values.length

/-- What becomes of a binding. -/
inductive Carried (source : Source) (b : PreloadBinding) (lists : Lists) (s : Summary) :
    Lists × Summary → Prop
  | skipped (outside : 128 ≤ b.list.toNat) :
      Carried source b lists s (lists, { s with skipped := s.skipped + 1 })
  | missing (inside : b.list.toNat < 128) (key : source.find? b.key = none) :
      Carried source b lists s (lists, { s with missing := s.missing + 1 })
  | filled {values : List Word} {lists' : Lists} (inside : b.list.toNat < 128)
      (key : source.find? b.key = some values) (load : lists.load? b.list values = some lists') :
      Carried source b lists s (lists', { s with
        truncated := s.truncated + if 1024 < values.length then 1 else 0
        loaded := s.loaded + 1 })

theorem exists_load? (lists : Lists) {id : UInt32} (h : id.toNat < 128) (values : List Word) :
    ∃ lists', lists.load? id values = some lists' := by
  have hsome := lists.load?_isSome id values 0
  rw [if_pos h] at hsome
  obtain ⟨lists', hload, _⟩ := Option.map_eq_some_iff.1 hsome
  exact ⟨lists', hload⟩

theorem carried (source : Source) (state : Lists × Summary) (b : PreloadBinding) :
    Carried source b state.1 state.2 (resolveOne source state b) := by
  obtain ⟨lists, s⟩ := state
  simp only [resolveOne]
  split
  case isTrue houtside => exact .skipped houtside
  case isFalse hinside =>
    have hlt : b.list.toNat < 128 := Nat.not_le.1 hinside
    split
    case h_1 hkey => exact .missing hlt hkey
    case h_2 values hkey =>
      obtain ⟨lists', hload⟩ := exists_load? lists hlt values
      simp only [hload]
      exact .filled hlt hkey hload

theorem buffer?_load {lists lists' : Lists} {id : UInt32} {values : List Word}
    (h : lists.load? id values = some lists') (l : UInt32) :
    lists'.buffer? l = if l = id then (lists.buffer? id).map (·.load values) else lists.buffer? l := by
  have hchange := lists.buffer?_change id (fun b => some (b.load values)) l
  have hloaded : lists.change? id (fun b => some (b.load values)) = some lists' := h
  rwa [hloaded] at hchange

theorem contents_load {lists lists' : Lists} {id : UInt32} {values : List Word}
    (h : lists.load? id values = some lists') (hid : id.toNat < 128) :
    lists'.isDeclared id = true ∧ lists'.snapshot? id = some (values.take 1024) := by
  have hview := lists.load?_view id values
  rw [h, Option.getD_some] at hview
  have hlookup : lists'.view.lookup id = some (.ofWords values) := by
    rw [hview, ListModel.lookup, dif_pos hid]
    exact if_pos rfl
  rw [lists'.isDeclared_view, lists'.snapshot?_view, hlookup]
  exact ⟨rfl, rfl⟩

theorem buffer?_resolveOne {source : Source} {b : PreloadBinding} {id : UInt32}
    (h : b.list = id → source.find? b.key = none) (state : Lists × Summary) :
    (resolveOne source state b).1.buffer? id = state.1.buffer? id := by
  have hcarried := carried source state b
  generalize resolveOne source state b = state' at hcarried
  cases hcarried with
  | skipped _ => rfl
  | missing _ _ => rfl
  | filled _ key load =>
    have hne : id ≠ b.list := by
      intro heq
      rw [h heq.symm] at key
      cases key
    rw [buffer?_load load, if_neg hne]

theorem buffer?_foldl {source : Source} {bs : List PreloadBinding} {id : UInt32}
    (h : ∀ b ∈ bs, b.list = id → source.find? b.key = none) (state : Lists × Summary) :
    (bs.foldl (resolveOne source) state).1.buffer? id = state.1.buffer? id := by
  induction bs generalizing state with
  | nil => rfl
  | cons b bs ih =>
    rw [List.forall_mem_cons] at h
    rw [List.foldl_cons, ih h.2, buffer?_resolveOne h.1]

/-- What follows the last binding with values for a list keeps them there. -/
theorem contents_foldl {source : Source} {b : PreloadBinding} {after : List PreloadBinding}
    {values : List Word} (hid : b.list.toNat < 128) (hkey : source.find? b.key = some values)
    (hlast : ∀ b' ∈ after, b'.list = b.list → source.find? b'.key = none)
    (state : Lists × Summary) :
    ((b :: after).foldl (resolveOne source) state).1.isDeclared b.list = true ∧
      ((b :: after).foldl (resolveOne source) state).1.snapshot? b.list =
        some (values.take 1024) := by
  have hkept := buffer?_foldl hlast (resolveOne source state b)
  rw [List.foldl_cons, Lists.isDeclared, Lists.snapshot?, hkept]
  have hcarried := carried source state b
  generalize resolveOne source state b = state' at hcarried
  cases hcarried with
  | skipped outside => omega
  | missing _ key =>
    rw [hkey] at key
    cases key
  | filled _ key load =>
    obtain rfl := Option.some.inj (hkey.symm.trans key)
    exact contents_load load hid

/-- How a summary grows over some bindings. -/
structure Accounts (source : Source) (bs : List PreloadBinding) (s s' : Summary) : Prop where
  total : s'.loaded + s'.missing + s'.skipped = s.loaded + s.missing + s.skipped + bs.length
  skipped : s'.skipped = s.skipped + bs.countP fun b => 128 ≤ b.list.toNat
  missing : s'.missing =
    s.missing + bs.countP fun b => b.list.toNat < 128 ∧ source.find? b.key = none
  truncated : s'.truncated = s.truncated +
    bs.countP fun b => b.list.toNat < 128 ∧ ∃ values ∈ source.find? b.key, 1024 < values.length

theorem accounts_nil (source : Source) (s : Summary) : Accounts source [] s s :=
  ⟨rfl, rfl, rfl, rfl⟩

theorem Accounts.append {source : Source} {bs bs' : List PreloadBinding} {s s' s'' : Summary}
    (h : Accounts source bs s s') (h' : Accounts source bs' s' s'') :
    Accounts source (bs ++ bs') s s'' := by
  refine ⟨?_, ?_, ?_, ?_⟩
  · rw [h'.total, h.total, List.length_append, Nat.add_assoc]
  · rw [h'.skipped, h.skipped, List.countP_append, Nat.add_assoc]
  · rw [h'.missing, h.missing, List.countP_append, Nat.add_assoc]
  · rw [h'.truncated, h.truncated, List.countP_append, Nat.add_assoc]

theorem accounts_resolveOne (source : Source) (state : Lists × Summary) (b : PreloadBinding) :
    Accounts source [b] state.2 (resolveOne source state b).2 := by
  have hcarried := carried source state b
  generalize resolveOne source state b = state' at hcarried
  cases hcarried with
  | skipped outside =>
    have hnot : ¬ b.list.toNat < 128 := Nat.not_lt.2 outside
    exact ⟨by simp; omega, by simp [outside], by simp [hnot], by simp [hnot]⟩
  | missing inside key =>
    have hnot : ¬ 128 ≤ b.list.toNat := Nat.not_le.2 inside
    exact ⟨by simp; omega, by simp [hnot], by simp [inside, key], by simp [key]⟩
  | @filled values _ inside key _ =>
    have hnot : ¬ 128 ≤ b.list.toNat := Nat.not_le.2 inside
    exact ⟨by simp; omega, by simp [hnot], by simp [key], by simp [inside, key]⟩

theorem accounts_foldl (source : Source) (bs : List PreloadBinding) (state : Lists × Summary) :
    Accounts source bs state.2 (bs.foldl (resolveOne source) state).2 := by
  induction bs generalizing state with
  | nil => exact accounts_nil source state.2
  | cons b bs ih => exact (accounts_resolveOne source state b).append (ih _)

/-- Resolving leaves in each list what the last binding with values for it has, leaves all other
lists alone and accounts for every binding. -/
theorem last_binding_decides (source : Source) (bindings : List PreloadBinding) (lists : Lists) :
    Resolved source bindings lists (resolve source bindings lists).1
      (resolve source bindings lists).2 := by
  have haccounts := accounts_foldl source bindings (lists, {})
  refine ⟨?_, ?_, ?_, ?_, ?_, ?_⟩
  · rintro before b after values rfl hid hkey hlast
    rw [resolve, List.foldl_append]
    exact contents_foldl hid hkey hlast _
  · intro id hnone
    exact buffer?_foldl hnone (lists, {})
  · exact haccounts.total.trans (Nat.zero_add _)
  · exact haccounts.skipped.trans (Nat.zero_add _)
  · exact haccounts.missing.trans (Nat.zero_add _)
  · exact haccounts.truncated.trans (Nat.zero_add _)

/-- A longer value sequence under key 1 and a shorter one under key 2. -/
def twoKeys : Source := .ofList [(1, [⟨10⟩, ⟨11⟩, ⟨12⟩]), (2, [⟨20⟩])]

/-- List 3 is bound three times, the last time to an absent key, and list 200 does not exist. -/
def repeatedBindings : List PreloadBinding := [⟨3, 1, 0⟩, ⟨3, 2, 3⟩, ⟨200, 1, 6⟩, ⟨3, 9, 9⟩]

theorem repeatedBindings_resolved :
    (resolve twoKeys repeatedBindings (.declare .empty 5)).1.snapshot? 3 = some [⟨20⟩] ∧
      (resolve twoKeys repeatedBindings (.declare .empty 5)).1.buffer? 5 =
        (Lists.declare .empty 5).buffer? 5 ∧
      (resolve twoKeys repeatedBindings (.declare .empty 5)).2.skipped = 1 ∧
      (resolve twoKeys repeatedBindings (.declare .empty 5)).2.missing = 1 := by
  have h := last_binding_decides twoKeys repeatedBindings (.declare .empty 5)
  exact ⟨(h.filled [_] _ [_, _] [⟨20⟩] rfl (by decide) (by decide) (by decide)).2,
    h.untouched 5 (by decide), h.skipped.trans (by decide), h.missing.trans (by decide)⟩

end RegisterMachine.Preload
