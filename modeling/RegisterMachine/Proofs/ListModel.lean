import RegisterMachine.Lists

/-!
# Lists as sequences

What the list store is meant to be: a map from ids to sequences of at most 1024 words, without
cells, flags or lengths. The operations of the store and of the map are given as one language, so
that sequences of operations can be carried out on either.
-/

namespace RegisterMachine

/-- What can be asked of a list store. -/
inductive ListOp where
  | declare (id : UInt32)
  | append (id : UInt32) (w : Word)
  | read (id : UInt32) (index : Int32)
  | remove (id : UInt32) (index : Int32)
  | edit (id : UInt32) (index : Int32) (w : Word)
  | load (id : UInt32) (ws : List Word)
  | length (id : UInt32)
  | snapshot (id : UInt32)
  | isDeclared (id : UInt32)
  | declaredIds

/-- What a list store answers. -/
inductive ListAnswer where
  | done
  | flag (b : Bool)
  | word (w : Word)
  | count (n : Option Nat)
  | words (ws : Option (List Word))
  | ids (ids : List UInt32)
  deriving DecidableEq

def performAll {σ : Type} (perform : σ → ListOp → ListAnswer × σ) :
    List ListOp → σ → List ListAnswer × σ
  | [], s => ([], s)
  | op :: ops, s =>
    let (answer, s) := perform s op
    let (answers, s) := performAll perform ops s
    (answer :: answers, s)

/-- Carries out an operation on the store. A refused change leaves the store as it is. -/
def Lists.perform (s : Lists) : ListOp → ListAnswer × Lists
  | .declare id => (.done, s.declare id)
  | .append id w => (.flag (s.append? id w).isSome, (s.append? id w).getD s)
  | .read id index => (.word (s.read id index), s)
  | .remove id index => (.flag (s.remove? id index).isSome, (s.remove? id index).getD s)
  | .edit id index w => (.flag (s.edit? id index w).isSome, (s.edit? id index w).getD s)
  | .load id ws =>
    (.count ((s.load? id ws).map fun _ => ListBuffer.fitting ws), (s.load? id ws).getD s)
  | .length id => (.count (s.length? id), s)
  | .snapshot id => (.words (s.snapshot? id), s)
  | .isDeclared id => (.flag (s.isDeclared id), s)
  | .declaredIds => (.ids s.declaredIds, s)

abbrev Sequence := { ws : List Word // ws.length ≤ 1024 }

namespace Sequence

def empty : Sequence := ⟨[], by simp⟩

def ofWords (ws : List Word) : Sequence := ⟨ws.take 1024, List.length_take_le 1024 ws⟩

def append? (q : Sequence) (w : Word) : Option Sequence :=
  if h : q.val.length < 1024 then some ⟨q.val ++ [w], by rw [List.length_append]; exact h⟩ else none

def position? (q : Sequence) (index : Int32) : Option (Fin q.val.length) :=
  if h : 0 ≤ index.toInt ∧ index.toInt < q.val.length then
    some ⟨index.toInt.toNat, by omega⟩
  else none

def read (q : Sequence) (index : Int32) : Word :=
  match q.position? index with
  | some i => q.val.get i
  | none => .zero

/-- The last word takes the place of the one that goes. -/
def remove? (q : Sequence) (index : Int32) : Option Sequence :=
  (q.position? index).map fun (i : Fin q.val.length) =>
    have hne : q.val ≠ [] := List.ne_nil_of_length_pos (Nat.zero_lt_of_lt i.isLt)
    ⟨(q.val.set i (q.val.getLast hne)).dropLast, by have := q.property; simp; omega⟩

def edit? (q : Sequence) (index : Int32) (w : Word) : Option Sequence :=
  (q.position? index).map fun (i : Fin q.val.length) =>
    ⟨q.val.set i w, by simpa using q.property⟩

end Sequence

/-- A sequence for each declared id. -/
structure ListModel where
  sequence? : Fin 128 → Option Sequence

namespace ListModel

def empty : ListModel := ⟨fun _ => none⟩

/-- The sequence of an id; `none` if it is undeclared or out of range. -/
def lookup (m : ListModel) (id : UInt32) : Option Sequence :=
  if h : id.toNat < 128 then m.sequence? ⟨id.toNat, h⟩ else none

/-- The model with the sequence of an id replaced; nothing changes if the id is out of range. -/
def update (m : ListModel) (id : UInt32) (q : Sequence) : ListModel :=
  ⟨fun i => if i.val = id.toNat then some q else m.sequence? i⟩

theorem update_of_le (m : ListModel) {id : UInt32} (h : 128 ≤ id.toNat) (q : Sequence) :
    m.update id q = m := by
  have hsame : ∀ i : Fin 128, (if i.val = id.toNat then some q else m.sequence? i) =
      m.sequence? i := by
    intro i
    rw [if_neg (by omega)]
  simp only [update, hsame]

theorem update_of_lookup {m : ListModel} {id : UInt32} {q : Sequence}
    (h : m.lookup id = some q) : m.update id q = m := by
  have hsame : ∀ i : Fin 128, (if i.val = id.toNat then some q else m.sequence? i) =
      m.sequence? i := by
    intro i
    by_cases hi : i.val = id.toNat
    · have hlt : id.toNat < 128 := hi ▸ i.isLt
      rw [lookup, dif_pos hlt] at h
      rw [if_pos hi, ← h]
      congr 1
      exact Fin.ext hi.symm
    · rw [if_neg hi]
  simp only [update, hsame]

/-- Changes the sequence of a declared id; `none` if the change is refused. -/
def change? (m : ListModel) (id : UInt32) (f : Sequence → Option Sequence) : Option ListModel :=
  ((m.lookup id).bind f).map (m.update id)

def declare (m : ListModel) (id : UInt32) : ListModel :=
  match m.lookup id with
  | some _ => m
  | none => m.update id .empty

def declaredIds (m : ListModel) : List UInt32 :=
  ((List.range 128).map UInt32.ofNat).filter fun id => (m.lookup id).isSome

def perform (m : ListModel) : ListOp → ListAnswer × ListModel
  | .declare id => (.done, m.declare id)
  | .append id w =>
    (.flag (m.change? id (·.append? w)).isSome, (m.change? id (·.append? w)).getD m)
  | .read id index => (.word (((m.lookup id).map (·.read index)).getD .zero), m)
  | .remove id index =>
    (.flag (m.change? id (·.remove? index)).isSome, (m.change? id (·.remove? index)).getD m)
  | .edit id index w =>
    (.flag (m.change? id (·.edit? index w)).isSome, (m.change? id (·.edit? index w)).getD m)
  | .load id ws =>
    (.count (if id.toNat < 128 then some (min ws.length 1024) else none), m.update id (.ofWords ws))
  | .length id => (.count ((m.lookup id).map (·.val.length)), m)
  | .snapshot id => (.words ((m.lookup id).map (·.val)), m)
  | .isDeclared id => (.flag (m.lookup id).isSome, m)
  | .declaredIds => (.ids m.declaredIds, m)

end ListModel

end RegisterMachine
