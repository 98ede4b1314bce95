import BlockGraph.Handler

/-!
# Agendas

The blocks that wait to be parsed, the one with the lowest depth-first number first. Of blocks
with equal numbers the one that came first goes first. Main statements: the numbers increase along
the agenda, and inserting a block adds that block and nothing else.
-/

namespace BlockGraph

/-- Blocks with their depth-first numbers, in the order in which they will be parsed (`WorkList`). -/
structure Agenda where
  entries : List (BlockId × Nat) := []
deriving DecidableEq, Repr

namespace Agenda

/-- Puts an entry after all entries whose number is not above its own. -/
def insertEntry (b : BlockId) (number : Nat) : List (BlockId × Nat) → List (BlockId × Nat)
  | [] => [(b, number)]
  | (c, n) :: rest =>
    if number < n then (b, number) :: (c, n) :: rest else (c, n) :: insertEntry b number rest

/-- Adds a block (`WorkList::insert`). -/
def insert (a : Agenda) (b : BlockId) (number : Nat) : Agenda := ⟨insertEntry b number a.entries⟩

/-- The block that is next, and the agenda without it (`WorkList::pop`). -/
def pop (a : Agenda) : Option BlockId × Agenda :=
  match a.entries with
  | [] => (none, a)
  | (b, _) :: rest => (some b, ⟨rest⟩)

/-- The agenda from the first entry on that is not to be skipped. -/
def skip (a : Agenda) (done : BlockId → Bool) : Agenda :=
  ⟨a.entries.dropWhile fun (b, _) => done b⟩

/-- How many blocks wait (`WorkList::len`). -/
def size (a : Agenda) : Nat := a.entries.length

def isEmpty (a : Agenda) : Bool := a.entries.isEmpty

theorem insertEntry_perm (b : BlockId) (number : Nat) :
    ∀ l : List (BlockId × Nat), (insertEntry b number l).Perm ((b, number) :: l)
  | [] => .refl _
  | (c, n) :: rest => by
    unfold insertEntry
    split
    · exact .refl _
    · exact ((insertEntry_perm b number rest).cons (c, n)).trans (.swap ..)

theorem mem_insertEntry {b : BlockId} {number : Nat} {l : List (BlockId × Nat)}
    {e : BlockId × Nat} : e ∈ insertEntry b number l ↔ e = (b, number) ∨ e ∈ l := by
  rw [(insertEntry_perm b number l).mem_iff, List.mem_cons]

/-- The numbers increase along the agenda. -/
theorem insertEntry_sorted {b : BlockId} {number : Nat} :
    ∀ {l : List (BlockId × Nat)}, l.Pairwise (·.2 ≤ ·.2) →
      (insertEntry b number l).Pairwise (·.2 ≤ ·.2)
  | [], _ => by simp [insertEntry]
  | (c, n) :: rest, h => by
    rw [List.pairwise_cons] at h
    unfold insertEntry
    split
    · rename_i hlt
      refine List.pairwise_cons.2 ⟨?_, List.pairwise_cons.2 h⟩
      intro e he
      rcases List.mem_cons.1 he with rfl | he
      · exact Nat.le_of_lt hlt
      · exact Nat.le_trans (Nat.le_of_lt hlt) (h.1 e he)
    · rename_i hge
      refine List.pairwise_cons.2 ⟨?_, insertEntry_sorted h.2⟩
      intro e he
      rcases mem_insertEntry.1 he with rfl | he
      · exact Nat.le_of_not_lt hge
      · exact h.1 e he

end Agenda
end BlockGraph
