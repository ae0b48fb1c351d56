import RegisterMachine.Word

/-!
# Lists

A store of 128 lists of at most 1024 words. Each list has a flag that says whether it was
declared, a length and a fixed row of cells; cells past the length keep what was last stored in
them. A list must be declared before use. Operations on an undeclared list, on an id outside
the store or at an index outside a list change nothing, and reading there gives zero. Removal
does not keep the order: the last element fills the hole.
-/

namespace RegisterMachine

abbrev listCount : Nat := 128

abbrev listCapacity : Nat := 1024

/-- The position an index names; negative indices name none. -/
def position? (index : Int32) : Option Nat := if index < 0 then none else some index.toInt.toNat

/-- One list of the store: only the first `length` cells are elements. -/
structure ListBuffer where
  declared : Bool := false
  length : Nat := 0
  cells : Vector Word listCapacity := Vector.replicate listCapacity .zero
  length_le : length ≤ listCapacity := by simp
  length_of_undeclared : declared = false → length = 0 := by simp
  deriving DecidableEq

namespace ListBuffer

/-- Makes the list usable; nothing else changes. -/
def declare (b : ListBuffer) : ListBuffer where
  declared := true
  length := b.length
  cells := b.cells
  length_le := b.length_le

/-- The position of an element, if the list is declared and has one there. -/
def slot? (b : ListBuffer) (index : Int32) : Option (Fin b.length) :=
  if b.declared then
    (position? index).bind fun i => if h : i < b.length then some ⟨i, h⟩ else none
  else none

def get (b : ListBuffer) (i : Fin b.length) : Word :=
  b.cells.get ⟨i.val, Nat.lt_of_lt_of_le i.isLt b.length_le⟩

/-- One more element after the last; `none` if the list is undeclared or full. -/
def append? (b : ListBuffer) (w : Word) : Option ListBuffer :=
  if h : b.declared = true ∧ b.length < listCapacity then
    some
      { declared := b.declared
        length := b.length + 1
        cells := b.cells.set b.length w h.2
        length_le := h.2
        length_of_undeclared := by simp [h.1] }
  else none

def read (b : ListBuffer) (index : Int32) : Word :=
  match b.slot? index with
  | some i => b.get i
  | none => .zero

/-- Drops the element at a position: the length shrinks and the element that was last moves
there, unless it is the one dropped. -/
def remove? (b : ListBuffer) (index : Int32) : Option ListBuffer :=
  (b.slot? index).map fun i =>
    have hi := Nat.lt_of_lt_of_le i.isLt b.length_le
    let last : Fin b.length := ⟨b.length - 1, Nat.sub_one_lt_of_lt i.isLt⟩
    { declared := b.declared
      length := b.length - 1
      cells := if i = last then b.cells else b.cells.set i.val (b.get last) hi
      length_le := Nat.le_trans (Nat.sub_le _ 1) b.length_le
      length_of_undeclared := fun h => by rw [b.length_of_undeclared h] }

def edit? (b : ListBuffer) (index : Int32) (w : Word) : Option ListBuffer :=
  (b.slot? index).map fun i =>
    { b with cells := b.cells.set i.val w (Nat.lt_of_lt_of_le i.isLt b.length_le) }

def fitting (ws : List Word) : Nat := min ws.length listCapacity

/-- Declares the list and stores as many words as fit from the first cell on. -/
def load (b : ListBuffer) (ws : List Word) : ListBuffer :=
  let source := ws.toArray
  { declared := true
    length := fitting ws
    cells := Vector.ofFn fun i => source[i.val]?.getD b.cells[i]
    length_le := Nat.min_le_right _ _ }

def length? (b : ListBuffer) : Option Nat := if b.declared then some b.length else none

def snapshot? (b : ListBuffer) : Option (List Word) :=
  if b.declared then some (b.cells.toList.take b.length) else none

end ListBuffer

structure Lists where
  slots : Vector ListBuffer listCount
  deriving DecidableEq

namespace Lists

def empty : Lists := ⟨Vector.replicate listCount {}⟩

/-- The list with an id, declared or not; `none` outside the store. -/
def buffer? (s : Lists) (id : UInt32) : Option ListBuffer := s.slots[id.toNat]?

/-- The store with the list at an id replaced; an id outside the store changes nothing. -/
def put (s : Lists) (id : UInt32) (b : ListBuffer) : Lists :=
  if h : id.toNat < listCount then ⟨s.slots.set id.toNat b⟩ else s

/-- Applies a change to a list; `none` outside the store or if the change is refused. -/
def change? (s : Lists) (id : UInt32) (f : ListBuffer → Option ListBuffer) : Option Lists :=
  ((s.buffer? id).bind f).map (s.put id)

/-- Makes a list usable; one that is already declared keeps its contents. -/
def declare (s : Lists) (id : UInt32) : Lists :=
  (s.change? id fun b => some b.declare).getD s

def isDeclared (s : Lists) (id : UInt32) : Bool := (s.buffer? id).any (·.declared)

def length? (s : Lists) (id : UInt32) : Option Nat := (s.buffer? id).bind (·.length?)

def snapshot? (s : Lists) (id : UInt32) : Option (List Word) := (s.buffer? id).bind (·.snapshot?)

def append? (s : Lists) (id : UInt32) (w : Word) : Option Lists := s.change? id (·.append? w)

def remove? (s : Lists) (id : UInt32) (index : Int32) : Option Lists :=
  s.change? id (·.remove? index)

def edit? (s : Lists) (id : UInt32) (index : Int32) (w : Word) : Option Lists :=
  s.change? id (·.edit? index w)

def read (s : Lists) (id : UInt32) (index : Int32) : Word :=
  match s.buffer? id with
  | some b => b.read index
  | none => .zero

/-- Replaces the contents of a list by as many words as fit, declaring it; `none` for an id
outside the store. -/
def load? (s : Lists) (id : UInt32) (ws : List Word) : Option Lists :=
  s.change? id fun b => some (b.load ws)

def declaredIds (s : Lists) : List UInt32 :=
  ((List.range listCount).map UInt32.ofNat).filter s.isDeclared

def contents (s : Lists) : List (UInt32 × List Word) :=
  s.declaredIds.filterMap fun id => (s.snapshot? id).map fun ws => (id, ws)

def text (s : Lists) : String :=
  let parts := s.contents.map fun (id, ws) =>
    "#" ++ Text.decimal id.toNat ++ ": " ++ Text.decimal ws.length ++ " items"
  "ListStore\x7b" ++ Text.join ", " parts ++ "\x7d"

end Lists

end RegisterMachine
