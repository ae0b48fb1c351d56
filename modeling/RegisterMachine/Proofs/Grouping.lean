import Mathlib.Data.List.TakeWhile
import RegisterMachine.Proofs.Accounting

/-!
# Stable grouping

Draining a collector groups its entries by output id. What that means is said without the way it
is computed: nothing is lost, each id keeps its order, entries of one id stand together, and ids
come in the order in which they first occurred. These conditions leave one result only, and one
pass with a table of slots beside the growing groups finds it too.
-/

namespace RegisterMachine

def outputIds (entries : List Entry) : List UInt32 := entries.map (·.id)

/-- Entries of one id stand together: between two of them are no others. -/
def Contiguous (entries : List Entry) : Prop :=
  ∀ (i j k : Nat) (x y z : Entry), i ≤ j → j ≤ k → entries[i]? = some x →
    entries[j]? = some y → entries[k]? = some z → x.id = z.id → y.id = x.id

/-- The entries of a sequence, grouped by id. -/
structure StableGrouping (entries grouped : List Entry) : Prop where
  /-- Nothing is lost and nothing added. -/
  perm : grouped.Perm entries
  /-- The entries of each id keep their order. -/
  order : ∀ id, (grouped.filter fun e => e.id == id) = entries.filter fun e => e.id == id
  contiguous : Contiguous grouped
  /-- Ids come in the order of their first entries. -/
  first : ∀ x ∈ entries, ∀ y ∈ entries,
    (outputIds grouped).idxOf x.id < (outputIds grouped).idxOf y.id ↔
      (outputIds entries).idxOf x.id < (outputIds entries).idxOf y.id

namespace Contiguous

variable {entries group rest : List Entry} {id : UInt32}

theorem nil : Contiguous [] := by
  intro i j k x y z _ _ hx
  cases hx

/-- A group of one id may stand before entries that have other ids. -/
theorem append (hgroup : ∀ e ∈ group, e.id = id) (hother : ∀ e ∈ rest, e.id ≠ id)
    (hrest : Contiguous rest) : Contiguous (group ++ rest) := by
  intro i j k x y z hij hjk hx hy hz hids
  rcases Nat.lt_or_ge k group.length with hk | hk
  · rw [List.getElem?_append_left (by omega)] at hx hy
    rw [hgroup y (List.mem_of_getElem? hy), hgroup x (List.mem_of_getElem? hx)]
  · rw [List.getElem?_append_right hk] at hz
    have hi : group.length ≤ i := by
      apply Nat.le_of_not_lt
      intro hlt
      rw [List.getElem?_append_left hlt] at hx
      apply hother z (List.mem_of_getElem? hz)
      rw [← hids, hgroup x (List.mem_of_getElem? hx)]
    rw [List.getElem?_append_right (by omega)] at hx hy
    exact hrest _ _ _ x y z (by omega) (by omega) hx hy hz hids

theorem of_append (h : Contiguous (group ++ rest)) : Contiguous rest := by
  intro i j k x y z hij hjk hx hy hz
  have hshift (n : Nat) : rest[n]? = (group ++ rest)[group.length + n]? := by
    rw [List.getElem?_append_right (by omega), Nat.add_sub_cancel_left]
  rw [hshift] at hx hy hz
  exact h _ _ _ x y z (by omega) (by omega) hx hy hz

/-- Entries that stand together begin with all entries of the first id. -/
theorem split {e : Entry} (h : Contiguous (e :: entries)) :
    ∃ group rest, e :: entries = group ++ rest ∧ group ≠ [] ∧ (∀ x ∈ group, x.id = e.id) ∧
      (∀ x ∈ rest, x.id ≠ e.id) ∧ Contiguous rest := by
  obtain ⟨group, hgroup⟩ : ∃ group, group = (e :: entries).takeWhile fun x => x.id == e.id :=
    ⟨_, rfl⟩
  obtain ⟨rest, hrest⟩ : ∃ rest, rest = (e :: entries).dropWhile fun x => x.id == e.id := ⟨_, rfl⟩
  have hall : e :: entries = group ++ rest := by
    rw [hgroup, hrest, List.takeWhile_append_dropWhile]
  have hsame : ∀ x ∈ group, x.id = e.id := by
    intro x hx
    rw [hgroup] at hx
    have hid := List.mem_takeWhile_imp hx
    exact beq_iff_eq.1 hid
  refine ⟨group, rest, hall, by simp [hgroup], hsame, ?_, of_append (hall ▸ h)⟩
  cases hrest' : rest with
  | nil => simp
  | cons z rest' =>
    have hz : z.id ≠ e.id := by
      have hstop := List.head?_dropWhile_not (fun x : Entry => x.id == e.id) (e :: entries)
      rw [← hrest, hrest'] at hstop
      simpa using hstop
    -- an entry of the first id behind `z` would have `z` between itself and the first entry
    intro x hx hid
    obtain ⟨n, hn⟩ := List.mem_iff_getElem?.1 hx
    have hat (m : Nat) : (e :: entries)[group.length + m]? = (z :: rest')[m]? := by
      rw [hall, hrest', List.getElem?_append_right (by omega), Nat.add_sub_cancel_left]
    exact hz (h 0 (group.length + 0) (group.length + n) e z x (by omega) (by omega) rfl
      (hat 0) ((hat n).trans hn) hid.symm)

end Contiguous

/-! ### What grouping gives -/

/-- Of entries whose ids are not `id`, those with another id are the same. -/
theorem filter_filter_of_ne {id other : UInt32} (h : id ≠ other) (entries : List Entry) :
    ((entries.filter fun x => !x.id == other).filter fun x => x.id == id) =
      entries.filter fun x => x.id == id := by
  rw [List.filter_filter]
  refine List.filter_congr fun x _ => ?_
  by_cases hx : x.id = id
  · simp [hx, h]
  · simp [hx]

theorem groupById_cons (e : Entry) (entries : List Entry) :
    groupById (e :: entries) =
      (e :: entries.filter fun x => x.id == e.id) ++
        groupById (entries.filter fun x => !x.id == e.id) := by
  have hids : (entries.map (·.id)).filter (fun id => !id == e.id) =
      (entries.filter fun x => !x.id == e.id).map (·.id) := by
    rw [List.filter_map]
    rfl
  have hothers : ∀ id ∈ ((entries.filter fun x => !x.id == e.id).map (·.id)).eraseDups,
      ((e :: entries).filter fun x => x.id == id) =
        (entries.filter fun x => !x.id == e.id).filter fun x => x.id == id := by
    intro id hid
    obtain ⟨x, hx, rfl⟩ := List.mem_map.1 (List.mem_eraseDups.1 hid)
    have hne : x.id ≠ e.id := by simpa using (List.mem_filter.1 hx).2
    rw [filter_filter_of_ne hne, List.filter_cons_of_neg (by simpa using Ne.symm hne)]
  rw [groupById, groupById, List.map_cons, List.eraseDups_cons, List.flatMap_cons, hids,
    List.filter_cons_of_pos (by simp), List.flatMap_def, List.map_congr_left hothers,
    ← List.flatMap_def]

/-- Grouping goes on with fewer entries: those of other ids than the first. -/
theorem grouping_induction {motive : List Entry → Prop} (nil : motive [])
    (cons : ∀ e entries, motive (entries.filter fun x => !x.id == e.id) → motive (e :: entries))
    (entries : List Entry) : motive entries := by
  generalize hn : entries.length = n
  induction n using Nat.strongRecOn generalizing entries with
  | _ n ih =>
    cases entries with
    | nil => exact nil
    | cons e entries =>
      refine cons e entries (ih _ ?_ _ rfl)
      have hle := List.length_filter_le (fun x : Entry => !x.id == e.id) entries
      rw [List.length_cons] at hn
      omega

theorem id_of_mem_group {e : Entry} {entries : List Entry} :
    ∀ x ∈ e :: entries.filter (fun x => x.id == e.id), x.id = e.id := by
  rw [List.forall_mem_cons]
  exact ⟨rfl, fun x hx => beq_iff_eq.1 (List.mem_filter.1 hx).2⟩

theorem id_ne_of_mem_groupById {e x : Entry} {entries : List Entry}
    (h : x ∈ groupById (entries.filter fun x => !x.id == e.id)) : x.id ≠ e.id := by
  have hmem := (perm_groupById _).mem_iff.1 h
  simpa using (List.mem_filter.1 hmem).2

theorem contiguous_groupById (entries : List Entry) : Contiguous (groupById entries) := by
  induction entries using grouping_induction with
  | nil => exact .nil
  | cons e entries ih =>
    rw [groupById_cons]
    exact ih.append id_of_mem_group fun x hx => id_ne_of_mem_groupById hx

theorem idxOf_filter_lt_iff {a b other : UInt32} (ha : a ≠ other) (hb : b ≠ other)
    (ids : List UInt32) :
    (ids.filter fun id => !id == other).idxOf a < (ids.filter fun id => !id == other).idxOf b ↔
      ids.idxOf a < ids.idxOf b := by
  induction ids with
  | nil => rfl
  | cons id ids ih =>
    by_cases hid : id = other
    · have ha' : (id == a) = false := by simpa [hid] using Ne.symm ha
      have hb' : (id == b) = false := by simpa [hid] using Ne.symm hb
      rw [List.filter_cons_of_neg (by simpa using hid), ih, List.idxOf_cons, List.idxOf_cons, ha',
        hb', cond_false, cond_false]
      omega
    · rw [List.filter_cons_of_pos (by simpa using hid)]
      simp only [List.idxOf_cons]
      cases id == a <;> cases id == b <;> simp only [cond_true, cond_false] <;> omega

theorem mem_outputIds {entries : List Entry} {id : UInt32} :
    id ∈ outputIds entries ↔ ∃ e ∈ entries, e.id = id := List.mem_map

/-- Behind a group of one id the others first occur as they do without it. -/
theorem idxOf_group_lt_iff {group rest : List Entry} {id : UInt32} (hne : group ≠ [])
    (hgroup : ∀ e ∈ group, e.id = id) (a b : UInt32) :
    (outputIds (group ++ rest)).idxOf a < (outputIds (group ++ rest)).idxOf b ↔
      b ≠ id ∧ (a = id ∨ (outputIds rest).idxOf a < (outputIds rest).idxOf b) := by
  obtain ⟨e, group', rfl⟩ := List.exists_cons_of_ne_nil hne
  have hmem : ∀ c, c ∈ outputIds (e :: group') ↔ c = id := by
    intro c
    rw [mem_outputIds]
    constructor
    · rintro ⟨x, hx, rfl⟩
      exact hgroup x hx
    · rintro rfl
      exact ⟨e, List.mem_cons_self, hgroup e List.mem_cons_self⟩
  have hself : (outputIds (e :: group')).idxOf id = 0 := by
    rw [← hgroup e List.mem_cons_self]
    exact List.idxOf_cons_self
  have hlength : 0 < (outputIds (e :: group')).length := Nat.succ_pos _
  have happend : outputIds (e :: group' ++ rest) = outputIds (e :: group') ++ outputIds rest :=
    List.map_append
  simp only [happend, List.idxOf_append, hmem]
  by_cases ha : a = id
  · by_cases hb : b = id
    · simp [ha, hb]
    · rw [if_pos ha, if_neg hb, ha, hself]
      simp only [ne_eq, hb, not_false_eq_true, true_or, and_self, iff_true]
      omega
  · by_cases hb : b = id
    · rw [if_neg ha, if_pos hb, hb, hself]
      simp
    · rw [if_neg ha, if_neg hb]
      simp only [ne_eq, ha, hb, not_false_eq_true, false_or, true_and]
      omega

theorem first_groupById (entries : List Entry) (a b : UInt32) :
    (outputIds (groupById entries)).idxOf a < (outputIds (groupById entries)).idxOf b ↔
      (outputIds entries).idxOf a < (outputIds entries).idxOf b := by
  induction entries using grouping_induction generalizing a b with
  | nil => rfl
  | cons e entries ih =>
    have hsingle : ∀ x ∈ [e], x.id = e.id := by simp
    have hids : outputIds (entries.filter fun x => !x.id == e.id) =
        (outputIds entries).filter fun id => !id == e.id := by
      rw [outputIds, outputIds, List.filter_map]
      rfl
    have hwhole : (outputIds (e :: entries)).idxOf a < (outputIds (e :: entries)).idxOf b ↔ _ :=
      idxOf_group_lt_iff (by simp) hsingle a b
    rw [groupById_cons, idxOf_group_lt_iff (by simp) id_of_mem_group, ih, hids, hwhole]
    refine and_congr_right fun hb => ?_
    by_cases ha : a = e.id
    · simp [ha]
    · rw [idxOf_filter_lt_iff ha hb]

/-! ### One grouping -/

section Behind

variable {group rest : List Entry} {id other : UInt32}

theorem filter_of_ne (h : ∀ e ∈ rest, e.id ≠ id) : (rest.filter fun e => e.id == id) = [] :=
  List.filter_eq_nil_iff.2 fun e he => by simpa using h e he

theorem filter_group (hgroup : ∀ e ∈ group, e.id = id) (hrest : ∀ e ∈ rest, e.id ≠ id) :
    ((group ++ rest).filter fun e => e.id == id) = group := by
  have hall : (group.filter fun e => e.id == id) = group :=
    List.filter_eq_self.2 fun e he => beq_iff_eq.2 (hgroup e he)
  rw [List.filter_append, hall, filter_of_ne hrest, List.append_nil]

theorem filter_behind (hgroup : ∀ e ∈ group, e.id = id) (hne : other ≠ id) :
    ((group ++ rest).filter fun e => e.id == other) = rest.filter fun e => e.id == other := by
  have hnone : ∀ e ∈ group, e.id ≠ other := fun e he => by rw [hgroup e he]; exact Ne.symm hne
  rw [List.filter_append, filter_of_ne hnone, List.nil_append]

end Behind

/-- Sequences with the same entries of each id and the same order of ids. -/
structure SameGroups (l l' : List Entry) : Prop where
  same : ∀ id, (l.filter fun e => e.id == id) = l'.filter fun e => e.id == id
  first : ∀ x ∈ l, ∀ y ∈ l, (outputIds l).idxOf x.id < (outputIds l).idxOf y.id ↔
    (outputIds l').idxOf x.id < (outputIds l').idxOf y.id

namespace SameGroups

theorem mem_iff {l l' : List Entry} (h : SameGroups l l') (e : Entry) : e ∈ l ↔ e ∈ l' := by
  have hown (m : List Entry) : e ∈ m ↔ e ∈ m.filter fun x => x.id == e.id := by simp
  rw [hown l, hown l', h.same]

/-- The id that comes first in one sequence comes first in the other. -/
theorem head_id {e e' : Entry} {l l' : List Entry} (h : SameGroups (e :: l) (e' :: l')) :
    e'.id = e.id := by
  by_contra hne
  have hpositions : (outputIds (e' :: l')).idxOf e'.id < (outputIds (e' :: l')).idxOf e.id := by
    have hskip : (e'.id == e.id) = false := by simpa using hne
    simp only [outputIds, List.map_cons, List.idxOf_cons_self, List.idxOf_cons, hskip, cond_false]
    exact Nat.succ_pos _
  have hlt := (h.first e' ((h.mem_iff e').2 List.mem_cons_self) e List.mem_cons_self).2 hpositions
  simp [outputIds] at hlt

theorem behind {group group' rest rest' : List Entry} {id : UInt32}
    (h : SameGroups (group ++ rest) (group' ++ rest')) (hne : group ≠ []) (hne' : group' ≠ [])
    (hgroup : ∀ e ∈ group, e.id = id) (hgroup' : ∀ e ∈ group', e.id = id)
    (hrest : ∀ e ∈ rest, e.id ≠ id) (hrest' : ∀ e ∈ rest', e.id ≠ id) :
    group = group' ∧ SameGroups rest rest' := by
  refine ⟨?_, fun other => ?_, fun x hx y hy => ?_⟩
  · rw [← filter_group hgroup hrest, h.same, filter_group hgroup' hrest']
  · by_cases hother : other = id
    · rw [hother, filter_of_ne hrest, filter_of_ne hrest']
    · rw [← filter_behind hgroup hother, h.same, filter_behind hgroup' hother]
  · have hboth := h.first x (List.mem_append_right _ hx) y (List.mem_append_right _ hy)
    rw [idxOf_group_lt_iff hne hgroup, idxOf_group_lt_iff hne' hgroup'] at hboth
    simpa [hrest x hx, hrest y hy] using hboth

/-- Sequences whose entries stand together and that have the same groups are the same. -/
theorem eq {l l' : List Entry} (h : SameGroups l l') (hl : Contiguous l) (hl' : Contiguous l') :
    l = l' := by
  generalize hn : l.length = n
  induction n using Nat.strongRecOn generalizing l l' with
  | _ n ih =>
    cases l with
    | nil =>
      refine (List.eq_nil_iff_forall_not_mem.2 fun e he => ?_).symm
      exact List.not_mem_nil ((h.mem_iff e).2 he)
    | cons e l =>
      cases l' with
      | nil => exact absurd ((h.mem_iff e).1 List.mem_cons_self) List.not_mem_nil
      | cons e' l' =>
        have hid := h.head_id
        obtain ⟨group, rest, hsplit, hne, hgroup, hother, hrest⟩ := hl.split
        obtain ⟨group', rest', hsplit', hne', hgroup', hother', hrest'⟩ := hl'.split
        rw [hid] at hgroup' hother'
        rw [hsplit, hsplit'] at h ⊢
        obtain ⟨rfl, hbehind⟩ := h.behind hne hne' hgroup hgroup' hother hother'
        have hlength : rest.length < n := by
          have hpos : 0 < group.length := List.length_pos_iff.2 hne
          rw [hsplit, List.length_append] at hn
          omega
        rw [ih rest.length hlength hbehind hrest hrest' rfl]

end SameGroups

theorem stableGrouping_groupById (entries : List Entry) :
    StableGrouping entries (groupById entries) where
  perm := perm_groupById entries
  order := filter_groupById entries
  contiguous := contiguous_groupById entries
  first := fun x _ y _ => first_groupById entries x.id y.id

theorem StableGrouping.eq_groupById {entries grouped : List Entry}
    (h : StableGrouping entries grouped) : grouped = groupById entries := by
  have hsame : SameGroups grouped (groupById entries) := by
    refine ⟨fun id => ?_, fun x hx y hy => ?_⟩
    · rw [h.order, filter_groupById]
    · rw [h.first x (h.perm.mem_iff.1 hx) y (h.perm.mem_iff.1 hy), first_groupById]
  exact hsame.eq h.contiguous (contiguous_groupById entries)

/-! ### Grouping in one pass -/

/-- Groups under construction: the slot of each id seen so far, beside the groups. -/
structure Slots where
  slots : Table Nat := .empty
  groups : Array (List Entry) := #[]

namespace Slots

/-- Adds an entry to the group of its id, which is opened if the id is new; `none` if there is no
group in the slot. -/
def add? (s : Slots) (e : Entry) : Option Slots :=
  match s.slots.find? e.id with
  | some slot => s.groups[slot]?.map fun group =>
      { s with groups := s.groups.setIfInBounds slot (group ++ [e]) }
  | none => some ⟨s.slots.insert e.id s.groups.size, s.groups.push [e]⟩

def group? (entries : List Entry) : Option (List Entry) :=
  (entries.foldlM add? {}).map fun s => s.groups.toList.flatten

/-- After some entries there is a group for each id, in the order of first entries, and the table
says where it is. -/
structure Holds (s : Slots) (entries : List Entry) : Prop where
  slots : ∀ id, s.slots.find? id = (outputIds entries).eraseDups.idxOf? id
  groups : s.groups.toList =
    (outputIds entries).eraseDups.map fun id => entries.filter fun e => e.id == id

theorem ids_concat (entries : List Entry) (e : Entry) :
    (outputIds (entries ++ [e])).eraseDups = (outputIds entries).eraseDups ++
      if e.id ∈ outputIds entries then [] else [e.id] := by
  have happend : outputIds (entries ++ [e]) = outputIds entries ++ [e.id] := List.map_append
  rw [happend, List.eraseDups_append, List.cons_removeAll]
  by_cases hmem : e.id ∈ outputIds entries
  · simp [hmem]
  · simp [hmem, List.eraseDups_cons]

variable {s : Slots} {entries : List Entry} {e : Entry}

theorem filter_concat_of_ne {id : UInt32} (h : id ≠ e.id) :
    ((entries ++ [e]).filter fun x => x.id == id) = entries.filter fun x => x.id == id := by
  rw [List.filter_append, List.filter_cons_of_neg (by simpa using Ne.symm h), List.filter_nil,
    List.append_nil]

theorem filter_concat_self :
    ((entries ++ [e]).filter fun x => x.id == e.id) =
      (entries.filter fun x => x.id == e.id) ++ [e] := by
  rw [List.filter_append, List.filter_cons_of_pos (by simp), List.filter_nil]

theorem Holds.add_known (h : s.Holds entries) (hmem : e.id ∈ outputIds entries) :
    ∃ s', s.add? e = some s' ∧ s'.Holds (entries ++ [e]) := by
  have hids := ids_concat entries e
  rw [if_pos hmem, List.append_nil] at hids
  have hnodup := nodup_eraseDups (outputIds entries)
  obtain ⟨slot, hslot⟩ : ∃ slot, (outputIds entries).eraseDups.idxOf? e.id = some slot :=
    Option.isSome_iff_exists.1 (List.isSome_idxOf?.2 (List.mem_eraseDups.2 hmem))
  obtain ⟨hlt, hget, _⟩ := List.idxOf?_eq_some_iff.1 hslot
  have hgroup : s.groups[slot]? = some (entries.filter fun x => x.id == e.id) := by
    rw [← Array.getElem?_toList, h.groups, List.getElem?_map, List.getElem?_eq_getElem hlt, hget]
    rfl
  refine ⟨_, by simp only [add?, h.slots, hslot, hgroup, Option.map_some]; rfl, ?_, ?_⟩
  · intro id
    rw [hids]
    exact h.slots id
  · rw [hids, Array.toList_setIfInBounds, h.groups]
    refine List.ext_getElem? fun n => ?_
    rw [List.getElem?_set, List.getElem?_map, List.getElem?_map]
    by_cases hn : slot = n
    · subst hn
      rw [if_pos rfl, if_pos (by rwa [List.length_map]), List.getElem?_eq_getElem hlt, hget,
        Option.map_some, filter_concat_self]
    · rw [if_neg hn]
      refine Option.map_congr fun id hid => (filter_concat_of_ne ?_).symm
      rintro rfl
      refine hn ((List.getElem?_inj hlt hnodup).1 ?_)
      rw [hid, List.getElem?_eq_getElem hlt, hget]

theorem idxOf?_concat {ids : List UInt32} {new : UInt32} (h : new ∉ ids) (id : UInt32) :
    (ids ++ [new]).idxOf? id = if id = new then some ids.length else ids.idxOf? id := by
  have happend : (ids ++ [new]).idxOf? id =
      (ids.idxOf? id).or (([new].idxOf? id).map fun i => i + ids.length) := List.findIdx?_append
  rw [happend, List.idxOf?_singleton]
  by_cases hid : id = new
  · subst hid
    rw [List.idxOf?_eq_none_iff.2 h]
    simp
  · have hne : (new == id) = false := by simpa using Ne.symm hid
    rw [hne, if_neg hid]
    simp

theorem Holds.add_new (h : s.Holds entries) (hmem : e.id ∉ outputIds entries) :
    ∃ s', s.add? e = some s' ∧ s'.Holds (entries ++ [e]) := by
  have hids := ids_concat entries e
  rw [if_neg hmem] at hids
  have hnone : s.slots.find? e.id = none := by
    rw [h.slots, List.idxOf?_eq_none_iff, List.mem_eraseDups]
    exact hmem
  have hsize : s.groups.size = (outputIds entries).eraseDups.length := by
    rw [← Array.length_toList, h.groups, List.length_map]
  refine ⟨_, by simp only [add?, hnone]; rfl, ?_, ?_⟩
  · intro id
    rw [hids, Table.find?_insert, h.slots, hsize, idxOf?_concat]
    exact fun hknown => hmem (List.mem_eraseDups.1 hknown)
  · rw [hids, Array.toList_push, h.groups, List.map_append, List.map_singleton, filter_concat_self]
    have hfresh : (entries.filter fun x => x.id == e.id) = [] :=
      filter_of_ne fun x hx hid => hmem (mem_outputIds.2 ⟨x, hx, hid⟩)
    rw [hfresh, List.nil_append]
    refine congrArg (· ++ [[e]]) (List.map_congr_left fun id hid => (filter_concat_of_ne ?_).symm)
    rintro rfl
    exact hmem (List.mem_eraseDups.1 hid)

/-- Along a sequence of entries the groups stay those of the part seen so far. -/
theorem Holds.run {seen : List Entry} (h : s.Holds seen) (entries : List Entry) :
    ∃ s', entries.foldlM add? s = some s' ∧ s'.Holds (seen ++ entries) := by
  induction entries generalizing s seen with
  | nil => exact ⟨s, rfl, by rwa [List.append_nil]⟩
  | cons e entries ih =>
    obtain ⟨s₁, hadd, h₁⟩ : ∃ s', s.add? e = some s' ∧ s'.Holds (seen ++ [e]) := by
      by_cases hmem : e.id ∈ outputIds seen
      · exact h.add_known hmem
      · exact h.add_new hmem
    obtain ⟨s₂, hrun, h₂⟩ := ih h₁
    refine ⟨s₂, ?_, by rwa [List.append_cons]⟩
    rw [List.foldlM_cons, hadd]
    exact hrun

/-- One pass gives the grouping, and never looks for a group that is not there. -/
theorem group?_eq (entries : List Entry) : group? entries = some (groupById entries) := by
  have hstart : Holds {} [] := ⟨fun _ => rfl, rfl⟩
  obtain ⟨s, hrun, hholds⟩ := hstart.run entries
  rw [group?, hrun, Option.map_some, hholds.groups, List.nil_append, ← List.flatMap_def]
  rfl

end Slots

namespace Collector

def ofEntries (entries : List Entry) : Collector := entries.foldl append empty

theorem toList_foldl_append (c : Collector) (entries : List Entry) :
    (entries.foldl append c).entries.toList = c.entries.toList ++ entries := by
  induction entries generalizing c with
  | nil => simp
  | cons e entries ih =>
    rw [List.foldl_cons, ih, append, Array.toList_push, List.append_assoc, List.singleton_append]

theorem drain_ofEntries (entries : List Entry) :
    (ofEntries entries).drain = (groupById entries, empty) := by
  rw [drain, ofEntries, toList_foldl_append]
  rfl

/-- Draining gives the stable grouping of the entries, which is the only one; it leaves grouped
entries as they are, and the collector empty. One pass with a table of slots finds it. -/
theorem drain_groups_stably (entries : List Entry) :
    StableGrouping entries (ofEntries entries).drain.1 ∧
      (∀ grouped, StableGrouping entries grouped → grouped = (ofEntries entries).drain.1) ∧
      (Contiguous entries → (ofEntries entries).drain.1 = entries) ∧
      (ofEntries entries).drain.2 = empty ∧
      Slots.group? entries = some (ofEntries entries).drain.1 := by
  rw [drain_ofEntries]
  refine ⟨stableGrouping_groupById entries, fun grouped h => h.eq_groupById, fun h => ?_, rfl,
    Slots.group?_eq entries⟩
  have hown : StableGrouping entries entries := ⟨.refl _, fun _ => rfl, h, fun _ _ _ _ => .rfl⟩
  exact hown.eq_groupById.symm

def alternating : List Entry :=
  [⟨2, .int 1, .main⟩, ⟨1, .int 2, .main⟩, ⟨2, .float ⟨0x40400000⟩, .main⟩,
    ⟨1, .list [], .function 4⟩]

theorem alternating_grouped_stably :
    ∃ grouped, outputIds grouped = [2, 2, 1, 1] ∧ StableGrouping alternating grouped ∧
      grouped = (ofEntries alternating).drain.1 ∧ Contiguous grouped ∧
      (ofEntries grouped).drain.1 = grouped := by
  obtain ⟨hstable, hunique, -, -, -⟩ := drain_groups_stably alternating
  have hgrouped := (drain_groups_stably (ofEntries alternating).drain.1).2.2.1 hstable.contiguous
  exact ⟨(ofEntries alternating).drain.1, by decide, hstable, hunique _ hstable, hstable.contiguous,
    hgrouped⟩

end Collector

end RegisterMachine
