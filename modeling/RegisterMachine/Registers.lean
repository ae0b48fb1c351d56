import RegisterMachine.Fault

/-!
# Registers

A file of 4096 untagged words, all zero at first. Naming a register outside the file is a fault.
-/

namespace RegisterMachine

abbrev registerCount : Nat := 4096

structure Registers where
  cells : Vector Word registerCount
  deriving DecidableEq

namespace Registers

def empty : Registers := ⟨Vector.replicate registerCount .zero⟩

def outOfRange (index : UInt32) : RuntimeFault := .registerOutOfRange index (registerCount - 1)

def slot? (index : UInt32) : Option (Fin registerCount) :=
  if h : index.toNat < registerCount then some ⟨index.toNat, h⟩ else none

def get (r : Registers) (i : Fin registerCount) : Word := r.cells[i]

def set (r : Registers) (i : Fin registerCount) (w : Word) : Registers := ⟨r.cells.set i w⟩

def read (r : Registers) (index : UInt32) : Except RuntimeFault Word :=
  match slot? index with
  | some i => .ok (r.get i)
  | none => .error (outOfRange index)

def write (r : Registers) (index : UInt32) (w : Word) : Except RuntimeFault Registers :=
  match slot? index with
  | some i => .ok (r.set i w)
  | none => .error (outOfRange index)

def get? (r : Registers) (index : Nat) : Option Word := r.cells[index]?

/-- The registers that are not zero, with their numbers, ascending. -/
def nonzero (r : Registers) : List (Nat × Word) :=
  (r.cells.toList.zipIdx.filter fun (w, _) => !w.isZero).map fun (w, i) => (i, w)

def text (r : Registers) : String :=
  match r.nonzero with
  | [] => "RegisterFile\x7ball zero\x7d"
  | cells =>
    let parts := cells.map fun (i, w) =>
      "r" ++ Text.decimal i ++ "=0x" ++ Text.hexadecimal 1 w.toNat
    "RegisterFile\x7b" ++ Text.join ", " parts ++ "\x7d"

@[simp]
theorem get_empty (i : Fin registerCount) : empty.get i = .zero := by
  simp [empty, get]

@[simp]
theorem get_set_self (r : Registers) (i : Fin registerCount) (w : Word) :
    (r.set i w).get i = w := by
  simp [set, get]

theorem get_set_ne (r : Registers) {i j : Fin registerCount} (w : Word) (h : i ≠ j) :
    (r.set i w).get j = r.get j := by
  have h' : i.val ≠ j.val := fun e => h (Fin.ext e)
  simp [set, get, h']

end Registers

end RegisterMachine
