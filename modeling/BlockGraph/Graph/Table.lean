import BlockGraph.Graph.Block

/-!
# Block tables

Which block starts at which index of a method's code. Main statement: after `set`, `get` finds the
block at its index and all other entries as they were.
-/

namespace BlockGraph

/-- For each index of the code, the block that starts there (`BlockMap`). -/
structure BlockTable where
  entries : Array (Option BlockId) := #[]
deriving DecidableEq, Repr

namespace BlockTable

/-- A table without blocks, for code of a given size (`BlockMap::new`). -/
def blank (size : Nat) : BlockTable := ⟨Array.replicate size none⟩

/-- The block at an index (`BlockMap::get`). -/
def get (t : BlockTable) (bci : Nat) : Option BlockId := t.entries[bci]?.join

/-- Enters a block at an index; an index past the end of the code is ignored (`BlockMap::set`). -/
def set (t : BlockTable) (bci : Nat) (b : BlockId) : BlockTable :=
  ⟨t.entries.setIfInBounds bci (some b)⟩

/-- Size of the code that the table is for. -/
def size (t : BlockTable) : Nat := t.entries.size

/-- Every entry, by increasing index (`BlockMap::iter`). -/
def toList (t : BlockTable) : List (Nat × BlockId) :=
  (List.range t.size).filterMap fun bci => (t.get bci).map (bci, ·)

@[simp] theorem size_blank (n : Nat) : (blank n).size = n := by simp [blank, size]

@[simp] theorem size_set (t : BlockTable) (bci : Nat) (b : BlockId) :
    (t.set bci b).size = t.size := by simp [set, size]

@[simp] theorem get_blank (n bci : Nat) : (blank n).get bci = none := by
  simp [blank, get, Array.getElem?_replicate]
  split <;> rfl

/-- An index past the end has no block. -/
theorem lt_size_of_get {t : BlockTable} {bci : Nat} {b : BlockId} (h : t.get bci = some b) :
    bci < t.size := by
  unfold get at h
  cases hs : t.entries[bci]? with
  | none => simp [hs] at h
  | some _ => exact (Array.getElem?_eq_some_iff.1 hs).1

theorem get_set (t : BlockTable) (bci other : Nat) (b : BlockId) :
    (t.set bci b).get other = if other = bci ∧ bci < t.size then some b else t.get other := by
  unfold get set size
  rw [Array.getElem?_setIfInBounds]
  by_cases h : bci = other
  · subst h
    by_cases hs : bci < t.entries.size
    · simp [hs]
    · simp [hs]
  · simp [h, Ne.symm h]

theorem mem_toList {t : BlockTable} {bci : Nat} {b : BlockId} :
    (bci, b) ∈ t.toList ↔ t.get bci = some b := by
  simp only [toList, List.mem_filterMap, List.mem_range, Option.map_eq_some_iff, Prod.mk.injEq]
  constructor
  · rintro ⟨_, _, _, h, rfl, rfl⟩; exact h
  · intro h; exact ⟨bci, lt_size_of_get h, b, h, rfl, rfl⟩

end BlockTable
end BlockGraph
