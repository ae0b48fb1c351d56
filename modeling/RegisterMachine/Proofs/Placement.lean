import RegisterMachine.Layout

/-!
# Placement

The address of an instruction is the encoded width of everything before it. `place` attaches
exactly that address to each instruction, so an induction over the scan can go by the index of
the instruction that is visited next.
-/

namespace RegisterMachine

/-- Words a symbolic program takes in encoded form. -/
def encodedWidth : List SymbolicInstr → Nat
  | [] => 0
  | x :: rest => x.width + encodedWidth rest

/-- Where the instruction at an index stands; the end of the program for an index past it. -/
def address (p : List SymbolicInstr) (index : Nat) : Nat := encodedWidth (p.take index)

@[simp]
theorem encodedWidth_nil : encodedWidth [] = 0 := rfl

@[simp]
theorem encodedWidth_cons (x : SymbolicInstr) (p : List SymbolicInstr) :
    encodedWidth (x :: p) = x.width + encodedWidth p := rfl

@[simp]
theorem encodedWidth_append (p q : List SymbolicInstr) :
    encodedWidth (p ++ q) = encodedWidth p + encodedWidth q := by
  induction p with
  | nil => simp
  | cons x p ih =>
    simp only [List.cons_append, encodedWidth_cons, ih]
    omega

@[simp]
theorem address_zero (p : List SymbolicInstr) : address p 0 = 0 := by
  simp [address]

theorem address_succ {p : List SymbolicInstr} {i : Nat} {x : SymbolicInstr}
    (h : p[i]? = some x) : address p (i + 1) = address p i + x.width := by
  obtain ⟨hi, hx⟩ := List.getElem?_eq_some_iff.1 h
  simp only [address, List.take_succ_eq_append_getElem hi, hx, encodedWidth_append]
  simp

theorem address_le (p : List SymbolicInstr) (i : Nat) : address p i ≤ encodedWidth p := by
  have h := congrArg encodedWidth (List.take_append_drop i p)
  simp only [encodedWidth_append] at h
  simp only [address]
  omega

theorem address_of_length_le {p : List SymbolicInstr} {i : Nat} (h : p.length ≤ i) :
    address p i = encodedWidth p := by
  rw [address, List.take_of_length_le h]

/-- An address is the offset of what remains after the instructions before it. -/
theorem address_append (p q : List SymbolicInstr) : address (p ++ q) p.length = encodedWidth p := by
  simp [address]

def placedAt (p : List SymbolicInstr) (index : Nat) (x : SymbolicInstr) : Placed :=
  ⟨⟨index, address p index⟩, x⟩

@[simp]
theorem placedAt_next {p : List SymbolicInstr} {i : Nat} {x : SymbolicInstr}
    (h : p[i]? = some x) : (placedAt p i x).next = address p (i + 1) :=
  (address_succ h).symm

theorem getElem?_placeFrom (start : Location) (p : List SymbolicInstr) (i : Nat) :
    (placeFrom start p)[i]? =
      p[i]?.map fun x => ⟨⟨start.index + i, start.pc + address p i⟩, x⟩ := by
  induction p generalizing start i with
  | nil => simp [placeFrom]
  | cons x p ih =>
    cases i with
    | zero => simp [placeFrom]
    | succ i =>
      have hindex : start.index + 1 + i = start.index + (i + 1) := by omega
      have hpc : start.pc + x.width + address p i = start.pc + address (x :: p) (i + 1) := by
        simp only [address, List.take_succ_cons, encodedWidth_cons]
        omega
      simp only [placeFrom, List.getElem?_cons_succ, ih, hindex, hpc]

theorem getElem?_place (p : List SymbolicInstr) (i : Nat) :
    (place p)[i]? = p[i]?.map (placedAt p i) := by
  simp only [place, getElem?_placeFrom, Nat.zero_add]
  rfl

theorem length_placeFrom (start : Location) (p : List SymbolicInstr) :
    (placeFrom start p).length = p.length := by
  induction p generalizing start with
  | nil => rfl
  | cons x p ih => simp [placeFrom, ih]

@[simp]
theorem length_place (p : List SymbolicInstr) : (place p).length = p.length :=
  length_placeFrom _ p

theorem mem_place_iff {p : List SymbolicInstr} {y : Placed} :
    y ∈ place p ↔ ∃ i x, p[i]? = some x ∧ y = placedAt p i x := by
  simp only [List.mem_iff_getElem?, getElem?_place, Option.map_eq_some_iff]
  constructor
  · rintro ⟨i, x, hx, rfl⟩
    exact ⟨i, x, hx, rfl⟩
  · rintro ⟨i, x, hx, rfl⟩
    exact ⟨i, x, hx, rfl⟩

theorem getElem?_of_idxOf_eq {p : List SymbolicInstr} {n : Nat} {x : SymbolicInstr}
    (hn : n < p.length) (h : p.idxOf x = n) : p[n]? = some x := by
  subst h
  rw [List.getElem?_eq_getElem hn, List.getElem_idxOf]

def scanned (p : List SymbolicInstr) (n : Nat) : Scan := scan ((place p).take n)

@[simp]
theorem scanned_zero (p : List SymbolicInstr) : scanned p 0 = {} := by
  simp [scanned, scan]

theorem scanned_succ {p : List SymbolicInstr} {n : Nat} {x : SymbolicInstr}
    (h : p[n]? = some x) : scanned p (n + 1) = (scanned p n).visit (placedAt p n x) := by
  have hget : (place p)[n]? = some (placedAt p n x) := by
    rw [getElem?_place, h, Option.map_some]
  obtain ⟨hn, hx⟩ := List.getElem?_eq_some_iff.1 hget
  rw [scanned, List.take_succ_eq_append_getElem hn, hx, scan, List.foldl_append]
  rfl

theorem scanned_length (p : List SymbolicInstr) : scanned p p.length = scan (place p) := by
  rw [scanned, List.take_of_length_le (by simp)]

/-- A property that each visit carries from one index to the next holds after the whole scan. -/
theorem scanned_induction {p : List SymbolicInstr} {motive : Nat → Scan → Prop}
    (start : motive 0 {})
    (step : ∀ n x, p[n]? = some x → motive n (scanned p n) →
      motive (n + 1) ((scanned p n).visit (placedAt p n x)))
    {n : Nat} (hn : n ≤ p.length) : motive n (scanned p n) := by
  induction n with
  | zero => simpa using start
  | succ n ih =>
    have hx : p[n]? = some p[n] := List.getElem?_eq_getElem (by omega)
    rw [scanned_succ hx]
    exact step n _ hx (ih (by omega))

end RegisterMachine
