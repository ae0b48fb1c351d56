/-!
# Tables

Finite maps from 32-bit ids, kept as pairs in ascending order of the ids.
-/

namespace RegisterMachine

structure Table (α : Type) where
  entries : List (UInt32 × α) := []
  sorted : entries.Pairwise (fun a b => a.1 < b.1) := by simp

namespace Table

variable {α : Type}

def empty : Table α where

/-- The pairs with `(k, v)` in its place; a pair with the same id is replaced. -/
def insertSorted (k : UInt32) (v : α) : List (UInt32 × α) → List (UInt32 × α)
  | [] => [(k, v)]
  | (k', v') :: rest =>
    if k < k' then (k, v) :: (k', v') :: rest
    else if k = k' then (k, v) :: rest
    else (k', v') :: insertSorted k v rest

theorem fst_mem_insertSorted {k : UInt32} {v : α} {l : List (UInt32 × α)} {x : UInt32 × α}
    (h : x ∈ insertSorted k v l) : x = (k, v) ∨ x ∈ l := by
  induction l with
  | nil => simpa [insertSorted] using h
  | cons y rest ih =>
    obtain ⟨k', v'⟩ := y
    simp only [insertSorted] at h
    split at h
    · simpa using h
    · split at h
      · rcases List.mem_cons.1 h with h | h
        · exact .inl h
        · exact .inr (List.mem_cons_of_mem _ h)
      · rcases List.mem_cons.1 h with h | h
        · exact .inr (h ▸ List.mem_cons_self)
        · exact (ih h).imp id (List.mem_cons_of_mem _)

theorem insertSorted_sorted (k : UInt32) (v : α) {l : List (UInt32 × α)}
    (h : l.Pairwise (fun a b => a.1 < b.1)) :
    (insertSorted k v l).Pairwise (fun a b => a.1 < b.1) := by
  induction l with
  | nil => simp [insertSorted]
  | cons y rest ih =>
    obtain ⟨k', v'⟩ := y
    obtain ⟨hy, hrest⟩ := List.pairwise_cons.1 h
    simp only [insertSorted]
    split
    case isTrue hlt =>
      refine List.pairwise_cons.2 ⟨fun z hz => ?_, h⟩
      rcases List.mem_cons.1 hz with rfl | hz
      · exact hlt
      · exact UInt32.lt_trans hlt (hy z hz)
    case isFalse hlt =>
      split
      case isTrue heq => exact List.pairwise_cons.2 ⟨fun z hz => heq ▸ hy z hz, hrest⟩
      case isFalse hne =>
        refine List.pairwise_cons.2 ⟨fun z hz => ?_, ih hrest⟩
        rcases fst_mem_insertSorted hz with rfl | hz
        · exact UInt32.lt_of_le_of_ne (UInt32.not_lt.1 hlt) (Ne.symm hne)
        · exact hy z hz

/-- The table with an id mapped to a value, whatever it was mapped to before. -/
def insert (t : Table α) (k : UInt32) (v : α) : Table α where
  entries := insertSorted k v t.entries
  sorted := insertSorted_sorted k v t.sorted

def lookup (k : UInt32) : List (UInt32 × α) → Option α
  | [] => none
  | (k', v) :: rest => if k = k' then some v else lookup k rest

def find? (t : Table α) (k : UInt32) : Option α := lookup k t.entries

def size (t : Table α) : Nat := t.entries.length

def keys (t : Table α) : List UInt32 := t.entries.map (·.1)

/-- The table of a sequence of pairs; later ones replace earlier ones. -/
def ofList (l : List (UInt32 × α)) : Table α := l.foldl (fun t (k, v) => t.insert k v) empty

@[simp]
theorem find?_empty (k : UInt32) : (empty : Table α).find? k = none := rfl

theorem lookup_insertSorted (k j : UInt32) (v : α) (l : List (UInt32 × α)) :
    lookup j (insertSorted k v l) = if j = k then some v else lookup j l := by
  induction l with
  | nil => rfl
  | cons y rest ih =>
    obtain ⟨k', v'⟩ := y
    by_cases hlt : k < k'
    · simp [insertSorted, lookup, hlt]
    · by_cases heq : k = k'
      · subst heq
        by_cases h : j = k <;> simp [insertSorted, lookup, h]
      · by_cases h : j = k'
        · simp [insertSorted, lookup, hlt, heq, h, Ne.symm heq]
        · simp [insertSorted, lookup, hlt, heq, h, ih]

theorem find?_insert (t : Table α) (k j : UInt32) (v : α) :
    (t.insert k v).find? j = if j = k then some v else t.find? j :=
  lookup_insertSorted k j v t.entries

theorem lookup_eq_some_iff {k : UInt32} {v : α} {l : List (UInt32 × α)}
    (h : l.Pairwise (fun a b => a.1 < b.1)) : lookup k l = some v ↔ (k, v) ∈ l := by
  induction l with
  | nil => simp [lookup]
  | cons y rest ih =>
    obtain ⟨k', v'⟩ := y
    obtain ⟨hy, hrest⟩ := List.pairwise_cons.1 h
    by_cases hk : k = k'
    · subst hk
      have hnot : (k, v) ∉ rest := fun hmem => UInt32.lt_irrefl k (hy _ hmem)
      simp [lookup, hnot, eq_comm]
    · simp [lookup, hk, ih hrest]

theorem find?_eq_some_iff {t : Table α} {k : UInt32} {v : α} :
    t.find? k = some v ↔ (k, v) ∈ t.entries :=
  lookup_eq_some_iff t.sorted

theorem mem_keys_iff {t : Table α} {k : UInt32} : k ∈ t.keys ↔ ∃ v, t.find? k = some v := by
  simp [keys, find?_eq_some_iff]

theorem keys_sorted (t : Table α) : t.keys.Pairwise (· < ·) := List.pairwise_map.2 t.sorted

theorem eq_of_sorted {l l' : List UInt32} (h : l.Pairwise (· < ·)) (h' : l'.Pairwise (· < ·))
    (hmem : ∀ k, k ∈ l ↔ k ∈ l') : l = l' := by
  induction l generalizing l' with
  | nil =>
    refine (List.eq_nil_iff_forall_not_mem.2 fun k hk => ?_).symm
    exact List.not_mem_nil ((hmem k).2 hk)
  | cons a l ih =>
    cases l' with
    | nil => exact absurd ((hmem a).1 List.mem_cons_self) List.not_mem_nil
    | cons b l' =>
      obtain ⟨ha, hl⟩ := List.pairwise_cons.1 h
      obtain ⟨hb, hl'⟩ := List.pairwise_cons.1 h'
      obtain rfl : a = b := by
        rcases List.mem_cons.1 ((hmem a).1 List.mem_cons_self) with heq | hmem'
        · exact heq
        · rcases List.mem_cons.1 ((hmem b).2 List.mem_cons_self) with heq | hmem''
          · exact heq.symm
          · exact absurd (UInt32.lt_trans (ha b hmem'') (hb a hmem')) (UInt32.lt_irrefl a)
      have htail : ∀ k, k ∈ l ↔ k ∈ l' := by
        intro k
        constructor
        · intro hk
          rcases List.mem_cons.1 ((hmem k).1 (List.mem_cons_of_mem a hk)) with rfl | hk'
          · exact absurd (ha k hk) (UInt32.lt_irrefl k)
          · exact hk'
        · intro hk
          rcases List.mem_cons.1 ((hmem k).2 (List.mem_cons_of_mem a hk)) with rfl | hk'
          · exact absurd (hb k hk) (UInt32.lt_irrefl k)
          · exact hk'
      rw [ih hl hl' htail]

end Table

end RegisterMachine
