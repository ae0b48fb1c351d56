import RegisterMachine.Proofs.ListModel

/-!
# The list store refines sequences

The view of a store forgets the cells past the length of each list. Every operation commutes with
the view and answers what the model answers, so no sequence of operations can tell the store from
the model, nor two stores that differ in forgotten cells only.
-/

namespace RegisterMachine

namespace ListBuffer

def elements (b : ListBuffer) : List Word := b.cells.toList.take b.length

theorem length_elements (b : ListBuffer) : b.elements.length = b.length := by
  have hle := b.length_le
  simp only [elements, List.length_take, Vector.length_toList]
  omega

theorem elements_getElem? (b : ListBuffer) {i : Nat} (hi : i < b.length) :
    b.elements[i]? = b.cells[i]? := by
  rw [elements, List.getElem?_take_of_lt hi, Vector.getElem?_toList]

def sequence (b : ListBuffer) : Sequence := ⟨b.elements, by rw [length_elements]; exact b.length_le⟩

def sequence? (b : ListBuffer) : Option Sequence := if b.declared then some b.sequence else none

theorem sequence?_of_declared {b : ListBuffer} (h : b.declared = true) :
    b.sequence? = some b.sequence := by
  rw [sequence?, if_pos h]

theorem sequence?_of_undeclared {b : ListBuffer} (h : b.declared = false) :
    b.sequence? = none := by
  simp [sequence?, h]

theorem slot?_of_undeclared {b : ListBuffer} (h : b.declared = false) (index : Int32) :
    b.slot? index = none := by
  simp [slot?, h]

theorem position?_eq (index : Int32) :
    RegisterMachine.position? index =
      if 0 ≤ index.toInt then some index.toInt.toNat else none := by
  have hneg : index < 0 ↔ ¬ 0 ≤ index.toInt := by
    rw [Int32.lt_iff_toInt_lt, Int.not_le]
    rfl
  simp only [RegisterMachine.position?, hneg, ite_not]

theorem slot?_cases {b : ListBuffer} (h : b.declared = true) (index : Int32) :
    (∃ i, ∃ (hi : i < b.length) (hi' : i < b.sequence.val.length),
      b.slot? index = some ⟨i, hi⟩ ∧ b.sequence.position? index = some ⟨i, hi'⟩) ∨
    (b.slot? index = none ∧ b.sequence.position? index = none) := by
  have hlen : b.sequence.val.length = b.length := b.length_elements
  simp only [slot?, if_pos h, position?_eq]
  by_cases hbounds : 0 ≤ index.toInt ∧ index.toInt < b.sequence.val.length
  · have hlt : index.toInt.toNat < b.length := by omega
    refine .inl ⟨index.toInt.toNat, hlt, by omega, ?_, ?_⟩
    · rw [if_pos hbounds.1, Option.bind_some, dif_pos hlt]
    · rw [Sequence.position?, dif_pos hbounds]
  · refine .inr ⟨?_, ?_⟩
    · by_cases hneg : 0 ≤ index.toInt
      · rw [if_pos hneg, Option.bind_some, dif_neg (by omega)]
      · rw [if_neg hneg, Option.bind_none]
    · rw [Sequence.position?, dif_neg hbounds]

theorem get_eq (b : ListBuffer) {i : Nat} (hi : i < b.length)
    (hi' : i < b.sequence.val.length) : b.get ⟨i, hi⟩ = b.sequence.val.get ⟨i, hi'⟩ := by
  have hlt : i < listCapacity := Nat.lt_of_lt_of_le hi b.length_le
  have hcell : b.sequence.val[i]? = b.cells[i]? := b.elements_getElem? hi
  rw [List.getElem?_eq_getElem hi', Vector.getElem?_eq_getElem hlt] at hcell
  exact (Option.some.inj hcell).symm

theorem sequence?_eq_some {b : ListBuffer} {q : Sequence} (h : b.declared = true)
    (helements : b.elements = q.val) : b.sequence? = some q := by
  rw [sequence?_of_declared h]
  exact congrArg some (Subtype.ext helements)

/-- A change of a list is a change of its sequence, refused alike; undeclared lists refuse. -/
def Refines (f : ListBuffer → Option ListBuffer) (g : Sequence → Option Sequence) : Prop :=
  ∀ b, (f b).map sequence? = (b.sequence?.bind g).map some

theorem refines_append (w : Word) : Refines (·.append? w) (·.append? w) := by
  intro b
  cases hd : b.declared with
  | false => simp [append?, hd, sequence?_of_undeclared hd]
  | true =>
    have hlen : b.sequence.val.length = b.length := b.length_elements
    simp only [sequence?_of_declared hd, Option.bind_some]
    by_cases hroom : b.length < listCapacity
    · have hseq : b.sequence.val.length < 1024 := hlen ▸ hroom
      rw [append?, dif_pos ⟨hd, hroom⟩, Sequence.append?, dif_pos hseq]
      refine congrArg some (sequence?_eq_some hd ?_)
      have hcells : b.length < (b.cells.toList.set b.length w).length := by simpa using hroom
      simp only [elements, Vector.toList_set, List.take_succ_eq_append_getElem hcells,
        List.take_set_of_le (Nat.le_refl _), List.getElem_set_self]
      rfl
    · have hseq : ¬ b.sequence.val.length < 1024 := hlen ▸ hroom
      rw [append?, dif_neg (fun h => hroom h.2), Sequence.append?, dif_neg hseq]
      rfl

theorem refines_edit (index : Int32) (w : Word) : Refines (·.edit? index w) (·.edit? index w) := by
  intro b
  cases hd : b.declared with
  | false => simp [edit?, slot?_of_undeclared hd, sequence?_of_undeclared hd]
  | true =>
    simp only [sequence?_of_declared hd, Option.bind_some, edit?, Sequence.edit?]
    rcases slot?_cases hd index with ⟨i, hi, hi', hslot, hposition⟩ | ⟨hslot, hposition⟩
    · rw [hslot, hposition]
      refine congrArg some (sequence?_eq_some hd ?_)
      simp only [elements, Vector.toList_set, List.take_set]
      rfl
    · rw [hslot, hposition]
      rfl

theorem get_last (b : ListBuffer) (h : b.length - 1 < b.length) (hne : b.sequence.val ≠ []) :
    b.get ⟨b.length - 1, h⟩ = b.sequence.val.getLast hne := by
  have hlen : b.sequence.val.length = b.length := b.length_elements
  rw [b.get_eq h (hlen ▸ h), List.getLast_eq_getElem]
  simp only [List.get_eq_getElem, hlen]

/-- Dropping the last word after the move leaves the cells before it, with the move. -/
theorem dropLast_elements_set (b : ListBuffer) (i : Nat) (w : Word) :
    (b.elements.set i w).dropLast = (b.cells.toList.set i w).take (b.length - 1) := by
  rw [List.dropLast_eq_take, List.length_set, length_elements, elements, ← List.take_set,
    List.take_take, Nat.min_eq_left (Nat.sub_le _ 1)]

theorem refines_remove (index : Int32) : Refines (·.remove? index) (·.remove? index) := by
  intro b
  cases hd : b.declared with
  | false => simp [remove?, slot?_of_undeclared hd, sequence?_of_undeclared hd]
  | true =>
    simp only [sequence?_of_declared hd, Option.bind_some, remove?, Sequence.remove?]
    rcases slot?_cases hd index with ⟨i, hi, hi', hslot, hposition⟩ | ⟨hslot, hposition⟩
    · rw [hslot, hposition]
      refine congrArg some (sequence?_eq_some hd ?_)
      have hne : b.sequence.val ≠ [] := List.ne_nil_of_length_pos (Nat.zero_lt_of_lt hi')
      have hdrop := b.dropLast_elements_set i (b.sequence.val.getLast hne)
      refine Eq.trans ?_ hdrop.symm
      rw [← b.get_last (by omega) hne]
      simp only [elements, Fin.mk.injEq]
      by_cases hlast : i = b.length - 1
      · -- the removed element is the last one, so no cell before it changes
        rw [if_pos hlast, List.take_set_of_le (by omega)]
      · rw [if_neg hlast, Vector.toList_set]
    · rw [hslot, hposition]
      rfl

theorem read_eq (b : ListBuffer) (index : Int32) :
    b.read index = (b.sequence?.map (·.read index)).getD .zero := by
  cases hd : b.declared with
  | false => simp [read, slot?_of_undeclared hd, sequence?_of_undeclared hd]
  | true =>
    simp only [sequence?_of_declared hd, Option.map_some, Option.getD_some, read, Sequence.read]
    rcases slot?_cases hd index with ⟨i, hi, hi', hslot, hposition⟩ | ⟨hslot, hposition⟩
    · rw [hslot, hposition]
      exact b.get_eq hi hi'
    · rw [hslot, hposition]

theorem sequence?_declare (b : ListBuffer) :
    b.declare.sequence? = some (b.sequence?.getD .empty) := by
  apply sequence?_eq_some rfl
  cases hd : b.declared with
  | true =>
    rw [sequence?_of_declared hd]
    rfl
  | false =>
    rw [sequence?_of_undeclared hd]
    simp only [elements, declare, b.length_of_undeclared hd, List.take_zero]
    rfl

theorem sequence?_load (b : ListBuffer) (ws : List Word) :
    (b.load ws).sequence? = some (.ofWords ws) := by
  have hcapacity : listCapacity = 1024 := rfl
  apply sequence?_eq_some rfl
  apply List.ext_getElem?
  intro i
  simp only [elements, load, Sequence.ofWords, List.getElem?_take, Vector.getElem?_toList, fitting]
  by_cases hi : i < min ws.length listCapacity
  · have hlt : i < 1024 := by omega
    have hget : ws[i]? = some ws[i] := List.getElem?_eq_getElem (by omega)
    rw [if_pos hi, if_pos hlt, Vector.getElem?_ofFn, dif_pos hlt]
    simp [hget]
  · rw [if_neg hi]
    by_cases hlt : i < 1024
    · rw [if_pos hlt, List.getElem?_eq_none (by omega)]
    · rw [if_neg hlt]

end ListBuffer

/-! ### The store -/

/-- What a store is in the model. -/
def Lists.view (s : Lists) : ListModel := ⟨fun i => (s.slots.get i).sequence?⟩

namespace Lists

theorem view_empty : empty.view = .empty := by
  have hslot : ∀ i, (empty.slots.get i).sequence? = none := by
    intro i
    simp [empty, Vector.get, ListBuffer.sequence?]
  simp only [view, hslot, ListModel.empty]

theorem lookup_view (s : Lists) (id : UInt32) :
    s.view.lookup id = (s.buffer? id).bind (·.sequence?) := by
  unfold ListModel.lookup buffer?
  by_cases h : id.toNat < listCount
  · rw [dif_pos h, Vector.getElem?_eq_getElem h]
    rfl
  · rw [dif_neg h, Vector.getElem?_eq_none (by omega)]
    rfl

theorem view_put (s : Lists) (id : UInt32) {b : ListBuffer} {q : Sequence}
    (h : b.sequence? = some q) : (s.put id b).view = s.view.update id q := by
  have hcount : listCount = 128 := rfl
  unfold put
  split
  case isTrue hid =>
    have hslot : ∀ i : Fin 128, ((s.slots.set id.toNat b).get i).sequence? =
        if i.val = id.toNat then some q else (s.slots.get i).sequence? := by
      intro i
      have hget : (s.slots.set id.toNat b).get i = if id.toNat = i.val then b else s.slots.get i :=
        Vector.getElem_set hid i.isLt
      rw [hget]
      by_cases hi : id.toNat = i.val
      · rw [if_pos hi, if_pos hi.symm, h]
      · rw [if_neg hi, if_neg (Ne.symm hi)]
    simp only [view, hslot, ListModel.update]
  case isFalse hid =>
    have hslot : ∀ i : Fin 128, (s.slots.get i).sequence? =
        if i.val = id.toNat then some q else (s.slots.get i).sequence? := by
      intro i
      rw [if_neg (by omega)]
    simp only [view, ListModel.update]
    congr 1
    funext i
    exact hslot i

theorem change?_view {f : ListBuffer → Option ListBuffer} {g : Sequence → Option Sequence}
    (h : ListBuffer.Refines f g) (s : Lists) (id : UInt32) :
    (s.change? id f).map view = s.view.change? id g := by
  simp only [change?, ListModel.change?, lookup_view]
  cases hbuffer : s.buffer? id with
  | none => rfl
  | some b =>
    have hchange := h b
    simp only [Option.bind_some]
    cases hf : f b with
    | none =>
      rw [hf] at hchange
      cases hg : b.sequence?.bind g with
      | none => rfl
      | some q =>
        rw [hg] at hchange
        cases hchange
    | some b' =>
      rw [hf] at hchange
      cases hg : b.sequence?.bind g with
      | none =>
        rw [hg] at hchange
        cases hchange
      | some q =>
        rw [hg] at hchange
        exact congrArg some (s.view_put id (Option.some.inj hchange))

theorem isSome_change?_view {f : ListBuffer → Option ListBuffer} {g : Sequence → Option Sequence}
    (h : ListBuffer.Refines f g) (s : Lists) (id : UInt32) :
    (s.change? id f).isSome = (s.view.change? id g).isSome := by
  rw [← change?_view h, Option.isSome_map]

theorem getD_change?_view {f : ListBuffer → Option ListBuffer} {g : Sequence → Option Sequence}
    (h : ListBuffer.Refines f g) (s : Lists) (id : UInt32) :
    ((s.change? id f).getD s).view = (s.view.change? id g).getD s.view := by
  rw [← change?_view h]
  cases s.change? id f <;> rfl

theorem le_of_buffer?_none {s : Lists} {id : UInt32} (h : s.buffer? id = none) :
    128 ≤ id.toNat := Vector.getElem?_eq_none_iff.1 h

theorem declare_view (s : Lists) (id : UInt32) : (s.declare id).view = s.view.declare id := by
  unfold declare ListModel.declare change?
  rw [lookup_view]
  cases hbuffer : s.buffer? id with
  | none => exact (s.view.update_of_le (le_of_buffer?_none hbuffer) _).symm
  | some b =>
    have hput := s.view_put id b.sequence?_declare
    simp only [Option.bind_some, Option.map_some, Option.getD_some, hput]
    cases hsequence : b.sequence? with
    | none => rfl
    | some q =>
      apply ListModel.update_of_lookup
      rw [lookup_view, hbuffer, Option.bind_some, hsequence, Option.getD_some]

theorem load?_view (s : Lists) (id : UInt32) (ws : List Word) :
    ((s.load? id ws).getD s).view = s.view.update id (.ofWords ws) := by
  unfold load? change?
  cases hbuffer : s.buffer? id with
  | none => exact (s.view.update_of_le (le_of_buffer?_none hbuffer) _).symm
  | some b => exact s.view_put id (b.sequence?_load ws)

theorem load?_isSome (s : Lists) (id : UInt32) (ws : List Word) (n : Nat) :
    (s.load? id ws).map (fun _ => n) = if id.toNat < 128 then some n else none := by
  unfold load? change?
  cases hbuffer : s.buffer? id with
  | none =>
    have hle := le_of_buffer?_none hbuffer
    rw [if_neg (by omega)]
    rfl
  | some b =>
    have hlt : id.toNat < 128 := (Vector.getElem?_eq_some_iff.1 hbuffer).1
    rw [if_pos hlt]
    rfl

theorem isDeclared_view (s : Lists) (id : UInt32) :
    s.isDeclared id = (s.view.lookup id).isSome := by
  rw [isDeclared, lookup_view]
  cases s.buffer? id with
  | none => rfl
  | some b => cases hd : b.declared <;> simp [ListBuffer.sequence?, hd]

theorem read_view (s : Lists) (id : UInt32) (index : Int32) :
    s.read id index = ((s.view.lookup id).map (·.read index)).getD .zero := by
  rw [read, lookup_view]
  cases s.buffer? id with
  | none => rfl
  | some b => exact b.read_eq index

theorem length?_view (s : Lists) (id : UInt32) :
    s.length? id = (s.view.lookup id).map (·.val.length) := by
  rw [length?, lookup_view]
  cases s.buffer? id with
  | none => rfl
  | some b =>
    cases hd : b.declared with
    | false => simp [ListBuffer.length?, ListBuffer.sequence?, hd]
    | true =>
      have hlen : b.sequence.val.length = b.length := b.length_elements
      simp [ListBuffer.length?, ListBuffer.sequence?, hd, hlen]

theorem snapshot?_view (s : Lists) (id : UInt32) :
    s.snapshot? id = (s.view.lookup id).map (·.val) := by
  rw [snapshot?, lookup_view]
  cases s.buffer? id with
  | none => rfl
  | some b =>
    cases hd : b.declared with
    | false => simp [ListBuffer.snapshot?, ListBuffer.sequence?, hd]
    | true =>
      simp only [Option.bind_some, ListBuffer.snapshot?, ListBuffer.sequence?, hd, if_true,
        Option.map_some]
      rfl

theorem declaredIds_view (s : Lists) : s.declaredIds = s.view.declaredIds := by
  have hflag : s.isDeclared = fun id => (s.view.lookup id).isSome := funext s.isDeclared_view
  rw [declaredIds, ListModel.declaredIds, hflag]

/-- Each operation answers what the model answers and does what the model does. -/
theorem perform_view (s : Lists) (op : ListOp) :
    (s.perform op).1 = (s.view.perform op).1 ∧ (s.perform op).2.view = (s.view.perform op).2 := by
  cases op with
  | declare id => exact ⟨rfl, s.declare_view id⟩
  | append id w =>
    have h := ListBuffer.refines_append w
    exact ⟨congrArg ListAnswer.flag (isSome_change?_view h s id), getD_change?_view h s id⟩
  | read id index => exact ⟨congrArg ListAnswer.word (s.read_view id index), rfl⟩
  | remove id index =>
    have h := ListBuffer.refines_remove index
    exact ⟨congrArg ListAnswer.flag (isSome_change?_view h s id), getD_change?_view h s id⟩
  | edit id index w =>
    have h := ListBuffer.refines_edit index w
    exact ⟨congrArg ListAnswer.flag (isSome_change?_view h s id), getD_change?_view h s id⟩
  | load id ws => exact ⟨congrArg ListAnswer.count (s.load?_isSome id ws _), s.load?_view id ws⟩
  | length id => exact ⟨congrArg ListAnswer.count (s.length?_view id), rfl⟩
  | snapshot id => exact ⟨congrArg ListAnswer.words (s.snapshot?_view id), rfl⟩
  | isDeclared id => exact ⟨congrArg ListAnswer.flag (s.isDeclared_view id), rfl⟩
  | declaredIds => exact ⟨congrArg ListAnswer.ids s.declaredIds_view, rfl⟩

theorem performAll_view (ops : List ListOp) (s : Lists) :
    (performAll perform ops s).1 = (performAll ListModel.perform ops s.view).1 ∧
      (performAll perform ops s).2.view = (performAll ListModel.perform ops s.view).2 := by
  induction ops generalizing s with
  | nil => exact ⟨rfl, rfl⟩
  | cons op ops ih =>
    obtain ⟨hanswer, hview⟩ := s.perform_view op
    obtain ⟨hanswers, hviews⟩ := ih (s.perform op).2
    rw [hview] at hanswers hviews
    simp only [performAll]
    exact ⟨by rw [hanswer, hanswers], hviews⟩

end Lists

/-! ### Forgotten cells -/

/-- The list with other words in the cells past its length. -/
def ListBuffer.refill (b : ListBuffer) (junk : Vector Word listCapacity) : ListBuffer :=
  { b with cells := Vector.ofFn fun i => if i.val < b.length then b.cells.get i else junk.get i }

/-- The store with other words in all cells that are no elements. -/
def Lists.refill (s : Lists) (junk : Fin listCount → Vector Word listCapacity) : Lists :=
  ⟨Vector.ofFn fun i => (s.slots.get i).refill (junk i)⟩

theorem ListBuffer.elements_refill (b : ListBuffer) (junk : Vector Word listCapacity) :
    (b.refill junk).elements = b.elements := by
  apply List.ext_getElem?
  intro i
  simp only [elements, refill, List.getElem?_take, Vector.getElem?_toList]
  by_cases hi : i < b.length
  · have hlt : i < listCapacity := Nat.lt_of_lt_of_le hi b.length_le
    rw [if_pos hi, Vector.getElem?_ofFn, dif_pos hlt, Vector.getElem?_eq_getElem hlt]
    simp only [if_pos hi]
    rfl
  · rw [if_neg hi, if_neg hi]

theorem ListBuffer.declared_refill (b : ListBuffer) (junk : Vector Word listCapacity) :
    (b.refill junk).declared = b.declared := by
  simp only [refill]

theorem ListBuffer.sequence?_refill (b : ListBuffer) (junk : Vector Word listCapacity) :
    (b.refill junk).sequence? = b.sequence? := by
  have hdeclared := b.declared_refill junk
  cases hd : b.declared with
  | false => rw [sequence?_of_undeclared hd, sequence?_of_undeclared (hdeclared.trans hd)]
  | true =>
    rw [sequence?_of_declared hd]
    exact sequence?_eq_some (hdeclared.trans hd) (b.elements_refill junk)

theorem Lists.view_refill (s : Lists) (junk : Fin listCount → Vector Word listCapacity) :
    (s.refill junk).view = s.view := by
  have hslot : ∀ i, ((s.refill junk).slots.get i).sequence? = (s.slots.get i).sequence? := by
    intro i
    have hget : (s.refill junk).slots.get i = (s.slots.get i).refill (junk i) :=
      Vector.getElem_ofFn i.isLt
    rw [hget, ListBuffer.sequence?_refill]
  simp only [view, hslot]

/-- Every sequence of operations on a new store is answered as the model answers it and leaves
what the model leaves; and at any point the cells past the lengths of the lists can be filled with
any words without a later answer to tell. -/
theorem lists_refine_sequences (ops : List ListOp) :
    (performAll Lists.perform ops .empty).1 = (performAll ListModel.perform ops .empty).1 ∧
    (performAll Lists.perform ops .empty).2.view = (performAll ListModel.perform ops .empty).2 ∧
    ∀ later junk,
      (performAll Lists.perform later ((performAll Lists.perform ops .empty).2.refill junk)).1 =
        (performAll Lists.perform later (performAll Lists.perform ops .empty).2).1 := by
  have hall := Lists.performAll_view ops .empty
  rw [Lists.view_empty] at hall
  refine ⟨hall.1, hall.2, ?_⟩
  intro later junk
  generalize (performAll Lists.perform ops .empty).2 = s
  rw [(Lists.performAll_view later _).1, (Lists.performAll_view later s).1, Lists.view_refill]

end RegisterMachine
