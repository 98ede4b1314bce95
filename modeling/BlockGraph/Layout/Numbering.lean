/-!
# Depth-first numbers

The nodes of a graph are numbered in the order in which a depth-first search meets them, when it
visits the successors of a node by increasing index. The search keeps the nodes that it still has
to look at on a stack.
-/

namespace BlockGraph

/-- Adds an index to an increasing list, unless it is there. -/
def insertAscending (i : Nat) : List Nat → List Nat
  | [] => [i]
  | j :: rest =>
    if i < j then i :: j :: rest else if i = j then j :: rest else j :: insertAscending i rest

theorem mem_insertAscending {i k : Nat} : ∀ {l : List Nat}, k ∈ insertAscending i l ↔ k = i ∨ k ∈ l
  | [] => by simp [insertAscending]
  | j :: rest => by
    unfold insertAscending
    split
    · simp
    · split
      · rename_i h; subst h; simp
      · simp only [List.mem_cons, mem_insertAscending (l := rest)]
        exact or_left_comm

theorem insertAscending_sorted {i : Nat} :
    ∀ {l : List Nat}, l.Pairwise (· < ·) → (insertAscending i l).Pairwise (· < ·)
  | [], _ => by simp [insertAscending]
  | j :: rest, h => by
    rw [List.pairwise_cons] at h
    unfold insertAscending
    split
    · rename_i hij
      refine List.pairwise_cons.2 ⟨?_, List.pairwise_cons.2 h⟩
      intro k hk
      rcases List.mem_cons.1 hk with rfl | hk
      · exact hij
      · exact Nat.lt_trans hij (h.1 k hk)
    · split
      · exact List.pairwise_cons.2 h
      · refine List.pairwise_cons.2 ⟨?_, insertAscending_sorted h.2⟩
        intro k hk
        rcases mem_insertAscending.1 hk with rfl | hk
        · omega
        · exact h.1 k hk

/-- The successors of each of `size` nodes, each list increasing, from the edges of the graph (`successors`
in `BlockMap::build`, sorted and without repetitions). -/
def adjacency (size : Nat) (edges : List (Nat × Nat)) : Array (List Nat) :=
  edges.foldl (fun lists (source, target) => lists.modify source (insertAscending target))
    (Array.replicate size [])

/-- Which nodes have been met so far, and as which. -/
structure Numbering where
  numbers : Array (Option Nat)
  /-- How many nodes have been met. -/
  count : Nat := 0
deriving DecidableEq, Repr

namespace Numbering

/-- No node of `size` has been met. -/
def blank (size : Nat) : Numbering := { numbers := Array.replicate size none }

/-- The number of a node, if it has been met. -/
def get (n : Numbering) (node : Nat) : Option Nat := n.numbers[node]?.join

/-- Meets a node. -/
def meet (n : Numbering) (node : Nat) : Numbering :=
  { numbers := n.numbers.setIfInBounds node (some n.count), count := n.count + 1 }

/-- Puts some nodes on a stack, the last one first, but none that has been met. -/
def pushNew (n : Numbering) (nodes stack : List Nat) : List Nat :=
  nodes.foldr (fun node stack => if (n.get node).isSome then stack else node :: stack) stack

/-- Looks at the nodes of a stack (the loop of `BlockMap::build` over `to_visit`). A node that has been met
since it was put there is dropped; a new one is met, and its successors are put on the stack. It looks at no
more than `fuel` nodes. -/
def search (successors : Nat → List Nat) : Nat → List Nat → Numbering → Numbering
  | 0, _, n => n
  | _, [], n => n
  | fuel + 1, node :: stack, n =>
    if (n.get node).isSome then search successors fuel stack n
    else
      let n := n.meet node
      search successors fuel (n.pushNew (successors node) stack) n

/-- Numbers the nodes that can be reached from some roots, with a search of its own for each root (`numbers`
in `BlockMap::build`). Each edge puts at most one node on a stack, which bounds a search. -/
def ofGraph (size : Nat) (edges : List (Nat × Nat)) (roots : List Nat) : Numbering :=
  let lists := adjacency size edges
  roots.foldl (fun n root => search (fun node => lists[node]?.getD []) (edges.length + 1) [root] n)
    (blank size)

end Numbering
end BlockGraph
