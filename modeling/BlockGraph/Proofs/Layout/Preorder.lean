import Mathlib.Algebra.BigOperators.Group.Finset.Piecewise
import Mathlib.Algebra.Order.BigOperators.Group.Finset
import Mathlib.Logic.Relation
import BlockGraph.Layout.Numbering

/-!
# Pre-order

`Preorder` is the recursive depth-first search: a node that has not been met is met, and then its
successors are visited, each with all that is reached from it, before the next node. It has one
result (`Preorder.unique`), which lists just what can be reached (`Preorder.mem_iff`). Main
statement: the search with a stack meets the nodes in the same order (`search_preorder`).
-/

namespace BlockGraph

/-- After the nodes `met`, a recursive search visits some nodes one after the other, and then it has
met the nodes of the last list. Both lists are in the order of meeting. -/
inductive Preorder (next : Nat → List Nat) : List Nat → List Nat → List Nat → Prop where
  | done {met : List Nat} : Preorder next [] met met
  /-- A node that has been met before is not visited again. -/
  | again {node : Nat} {rest met met' : List Nat} :
    node ∈ met → Preorder next rest met met' → Preorder next (node :: rest) met met'
  /-- A new node is met; the search calls itself for its successors and comes back. -/
  | meet {node : Nat} {rest met mid met' : List Nat} :
    node ∉ met → Preorder next (next node) (met ++ [node]) mid → Preorder next rest mid met' →
    Preorder next (node :: rest) met met'

namespace Preorder

variable {next : Nat → List Nat} {nodes met met' : List Nat} {a b : Nat}

/-- Node `b` can be reached from node `a`. -/
abbrev Leads (next : Nat → List Nat) : Nat → Nat → Prop :=
  Relation.ReflTransGen fun a b => b ∈ next a

theorem unique (h : Preorder next nodes met met') {met'' : List Nat}
    (h' : Preorder next nodes met met'') : met' = met'' := by
  induction h generalizing met'' with
  | done => cases h'; rfl
  | again hmem _ ih =>
    cases h' with
    | again _ hrest => exact ih hrest
    | meet hnot => exact absurd hmem hnot
  | meet hnot _ _ ihdown ihrest =>
    cases h' with
    | again hmem => exact absurd hmem hnot
    | meet _ hdown hrest =>
      have hmid := ihdown hdown
      subst hmid
      exact ihrest hrest

/-- Visiting one list after another. -/
theorem split {l l' : List Nat} (h : Preorder next (l ++ l') met met') :
    ∃ mid, Preorder next l met mid ∧ Preorder next l' mid met' := by
  induction l generalizing met with
  | nil => exact ⟨met, .done, h⟩
  | cons node l ih =>
    cases h with
    | again hmem hrest =>
      obtain ⟨mid, hl, hl'⟩ := ih hrest
      exact ⟨mid, .again hmem hl, hl'⟩
    | meet hnot hdown hrest =>
      obtain ⟨mid, hl, hl'⟩ := ih hrest
      exact ⟨mid, .meet hnot hdown hl, hl'⟩

/-- The second list is visited after the first one. -/
theorem append {l l' mid : List Nat} (h : Preorder next l met mid) (h' : Preorder next l' mid met') :
    Preorder next (l ++ l') met met' := by
  induction h with
  | done => exact h'
  | again hmem _ ih => exact .again hmem (ih h')
  | meet hnot hdown _ _ ihrest => exact .meet hnot hdown (ihrest h')

/-- What was met stays met, as the same. -/
theorem isPrefix (h : Preorder next nodes met met') : met <+: met' := by
  induction h with
  | done => exact List.prefix_rfl
  | again _ _ ih => exact ih
  | meet _ _ _ ihdown ihrest => exact (List.prefix_append _ _).trans (ihdown.trans ihrest)

theorem subset (h : Preorder next nodes met met') (ha : a ∈ met) : a ∈ met' := h.isPrefix.subset ha

/-- Nodes that have been met before may be left out. -/
theorem of_filter {keep : Nat → Bool} {rest : List Nat} (h : Preorder next (nodes.filter keep ++ rest) met met')
    (hkeep : ∀ node ∈ nodes, keep node = false → node ∈ met) : Preorder next (nodes ++ rest) met met' := by
  induction nodes generalizing met with
  | nil => exact h
  | cons node nodes ih =>
    have hrest : ∀ {mid}, met ⊆ mid → ∀ other ∈ nodes, keep other = false → other ∈ mid :=
      fun hmid other hother ho => hmid (hkeep other (List.mem_cons_of_mem _ hother) ho)
    cases hnode : keep node with
    | false =>
      rw [List.filter_cons_of_neg (by simp [hnode])] at h
      exact .again (hkeep node List.mem_cons_self hnode) (ih h (hrest fun _ ha => ha))
    | true =>
      rw [List.filter_cons_of_pos hnode] at h
      cases h with
      | again hmem h => exact .again hmem (ih h (hrest fun _ ha => ha))
      | meet hnot hdown h =>
        exact .meet hnot hdown (ih h (hrest fun _ ha => hdown.subset (List.mem_append_left _ ha)))

theorem nodup (h : Preorder next nodes met met') (hmet : met.Nodup) : met'.Nodup := by
  induction h with
  | done => exact hmet
  | again _ _ ih => exact ih hmet
  | meet hnot _ _ ihdown ihrest =>
    apply ihrest
    apply ihdown
    simp only [List.nodup_append, List.nodup_singleton, List.mem_singleton, true_and]
    refine ⟨hmet, ?_⟩
    rintro x hx y rfl rfl
    exact hnot hx

/-- Every node that is visited has been met in the end. -/
theorem mem_of_mem_nodes (h : Preorder next nodes met met') (ha : a ∈ nodes) : a ∈ met' := by
  induction h with
  | done => cases ha
  | again hmem hrest ih =>
    rcases List.mem_cons.1 ha with rfl | ha
    · exact hrest.subset hmem
    · exact ih ha
  | meet _ hdown hrest _ ihrest =>
    rcases List.mem_cons.1 ha with rfl | ha
    · exact hrest.subset (hdown.subset (by simp))
    · exact ihrest ha

/-- With a node that is met its successors are. -/
theorem mem_of_next (h : Preorder next nodes met met') (ha : a ∈ met') (hnew : a ∉ met)
    (hb : b ∈ next a) : b ∈ met' := by
  induction h with
  | done => exact absurd ha hnew
  | again _ _ ih => exact ih ha hnew
  | @meet node rest met mid met' _ hdown hrest ihdown ihrest =>
    by_cases hmid : a ∈ mid
    · apply hrest.subset
      by_cases hnode : a = node
      · subst hnode
        exact hdown.mem_of_mem_nodes hb
      · exact ihdown hmid (by simp [hnew, hnode])
    · exact ihrest ha hmid

/-- What is met is reached from a node that is visited. -/
theorem exists_leads (h : Preorder next nodes met met') (ha : a ∈ met') (hnew : a ∉ met) :
    ∃ root ∈ nodes, Leads next root a := by
  induction h with
  | done => exact absurd ha hnew
  | again _ _ ih =>
    obtain ⟨root, hroot, hleads⟩ := ih ha hnew
    exact ⟨root, List.mem_cons_of_mem _ hroot, hleads⟩
  | @meet node rest met mid met' _ hdown hrest ihdown ihrest =>
    by_cases hmid : a ∈ mid
    · refine ⟨node, List.mem_cons_self, ?_⟩
      by_cases hnode : a = node
      · subst hnode
        exact .refl
      · obtain ⟨root, hroot, hleads⟩ := ihdown hmid (by simp [hnew, hnode])
        exact .head hroot hleads
    · obtain ⟨root, hroot, hleads⟩ := ihrest ha hmid
      exact ⟨root, List.mem_cons_of_mem _ hroot, hleads⟩

/-- A beginning of a list that ends before the first `a` of it begins what stands before that. -/
theorem prefix_of_not_mem {l before all : List Nat} (hl : l <+: all) (hbefore : before ++ [a] <+: all)
    (ha : a ∉ l) : l <+: before := by
  rcases List.prefix_or_prefix_of_prefix hl hbefore with hle | hle
  · rcases List.prefix_concat_iff.1 hle with rfl | hle
    · exact absurd (by simp) ha
    · exact hle
  · exact absurd (hle.mem (by simp)) ha

/-- Whatever is met is visited from the beginning, or as a successor of a node that is met before it. -/
theorem exists_earlier (h : Preorder next nodes met met') {before : List Nat}
    (hbefore : before ++ [a] <+: met') (hmet : a ∉ met) (hnew : a ∉ before) :
    a ∈ nodes ∨ ∃ b ∈ before, a ∈ next b := by
  induction h with
  | done => exact absurd (hbefore.mem (by simp)) hmet
  | again _ _ ih => exact (ih hbefore hmet).imp_left (List.mem_cons_of_mem _)
  | @meet node rest met mid met' _ hdown hrest ihdown ihrest =>
    by_cases hnode : a = node
    · exact .inl (hnode ▸ List.mem_cons_self)
    have hhere : a ∉ met ++ [node] := by simp [hmet, hnode]
    by_cases hmid : a ∈ mid
    · -- it is met from `node`, which is met before it
      have hwithin : before ++ [a] <+: mid := by
        rcases List.prefix_or_prefix_of_prefix hbefore hrest.isPrefix with hle | hle
        · exact hle
        · rcases List.prefix_concat_iff.1 hle with rfl | hle
          · exact List.prefix_rfl
          · exact absurd (hle.mem hmid) hnew
      rcases ihdown hwithin hhere with hsuccessor | hearlier
      · have hle := prefix_of_not_mem (hdown.isPrefix.trans hrest.isPrefix) hbefore hhere
        exact .inr ⟨node, hle.mem (by simp), hsuccessor⟩
      · exact .inr hearlier
    · exact (ihrest hbefore hmid).imp_left (List.mem_cons_of_mem _)

/-- A search from the beginning meets just what can be reached. -/
theorem mem_iff (h : Preorder next nodes [] met') :
    a ∈ met' ↔ ∃ root ∈ nodes, Leads next root a := by
  constructor
  · intro ha
    exact h.exists_leads ha (by simp)
  · rintro ⟨root, hroot, hleads⟩
    induction hleads with
    | refl => exact h.mem_of_mem_nodes hroot
    | tail _ hstep ih => exact h.mem_of_next ih (by simp) hstep

end Preorder

/-! ## The search with a stack -/

namespace Numbering

variable {size : Nat} {n : Numbering} {met : List Nat} {node : Nat}

/-- A numbering of `size` nodes has met the listed ones, in this order. -/
structure Lists (n : Numbering) (size : Nat) (met : List Nat) : Prop where
  size_eq : n.numbers.size = size
  count_eq : n.count = met.length
  get_eq : ∀ node, n.get node = if node ∈ met then some (met.idxOf node) else none

theorem Lists.blank (size : Nat) : (blank size).Lists size [] := by
  refine ⟨by simp [Numbering.blank], rfl, fun node => ?_⟩
  simp only [get, Numbering.blank, Array.getElem?_replicate]
  split <;> rfl

theorem Lists.isSome_get (h : n.Lists size met) : (n.get node).isSome = true ↔ node ∈ met := by
  rw [h.get_eq]
  split <;> simp [*]

theorem Lists.meet (h : n.Lists size met) (hnode : node < size) (hnot : node ∉ met) :
    (n.meet node).Lists size (met ++ [node]) := by
  refine ⟨by simp [Numbering.meet, h.size_eq], by simp [Numbering.meet, h.count_eq], fun other => ?_⟩
  have hget : (n.meet node).get other = if other = node then some n.count else n.get other := by
    simp only [get, Numbering.meet, Array.getElem?_setIfInBounds, h.size_eq]
    by_cases hother : node = other
    · subst hother
      simp [hnode]
    · simp [hother, Ne.symm hother]
  rw [hget, h.get_eq, h.count_eq]
  by_cases hother : other = node
  · subst hother
    simp [List.idxOf_append, hnot]
  · by_cases hmem : other ∈ met
    · simp [hother, hmem, List.idxOf_append]
    · simp [hother, hmem]

/-- How many nodes the nodes that have not been met may still put on the stack. -/
def owed (next : Nat → List Nat) (size : Nat) (met : List Nat) : Nat :=
  ∑ node ∈ Finset.range size with node ∉ met, (next node).length

theorem owed_meet (next : Nat → List Nat) (hnode : node < size) (hnot : node ∉ met) :
    (next node).length + owed next size (met ++ [node]) = owed next size met := by
  have hset : (Finset.range size).filter (· ∉ met ++ [node]) =
      ((Finset.range size).filter (· ∉ met)).erase node := by
    ext other
    simp only [Finset.mem_filter, Finset.mem_erase, List.mem_append, List.mem_singleton, not_or]
    tauto
  unfold owed
  rw [hset]
  apply Finset.add_sum_erase (f := fun node => (next node).length)
  simp [hnode, hnot]

theorem owed_le (next : Nat → List Nat) (size : Nat) (met : List Nat) :
    owed next size met ≤ ∑ node ∈ Finset.range size, (next node).length :=
  Finset.sum_le_sum_of_subset (Finset.filter_subset _ _)

theorem pushNew_eq (n : Numbering) : ∀ nodes stack : List Nat,
    n.pushNew nodes stack = nodes.filter (fun node => (n.get node).isNone) ++ stack
  | [], _ => rfl
  | node :: nodes, stack => by
    have ih := pushNew_eq n nodes stack
    unfold pushNew at ih ⊢
    rw [List.foldr_cons, ih]
    cases hget : n.get node <;> simp [hget]

/-- **The stack searches recursively.** With enough fuel the search meets the nodes of its stack in
the order of the recursive search: what lies under the successors of a node waits for all that they
lead to. -/
theorem search_preorder {next : Nat → List Nat} (hnext : ∀ a, ∀ b ∈ next a, b < size) :
    ∀ (fuel : Nat) {stack : List Nat} {n : Numbering} {met : List Nat}, n.Lists size met →
      (∀ node ∈ stack, node < size) → stack.length + owed next size met ≤ fuel →
      ∃ met', Preorder next stack met met' ∧ (search next fuel stack n).Lists size met' := by
  intro fuel
  induction fuel with
  | zero =>
    intro stack n met hn _ hfuel
    have hnil : stack = [] := List.length_eq_zero_iff.1 (by omega)
    subst hnil
    exact ⟨met, .done, hn⟩
  | succ fuel ih =>
    intro stack n met hn hstack hfuel
    cases stack with
    | nil => exact ⟨met, .done, hn⟩
    | cons node stack =>
      have hrest : ∀ node ∈ stack, node < size := fun other hother => hstack other (by simp [hother])
      simp only [List.length_cons] at hfuel
      unfold search
      by_cases hmem : node ∈ met
      · rw [if_pos (hn.isSome_get.2 hmem)]
        obtain ⟨met', hpre, hlists⟩ := ih hn hrest (by omega)
        exact ⟨met', .again hmem hpre, hlists⟩
      · rw [if_neg (by rwa [hn.isSome_get])]
        have hnode : node < size := hstack node (by simp)
        have howed := owed_meet next hnode hmem
        have hmeets := hn.meet hnode hmem
        have hkeep := List.length_filter_le (fun other => ((n.meet node).get other).isNone) (next node)
        have hall : ∀ other ∈ (n.meet node).pushNew (next node) stack, other < size := by
          intro other hother
          rw [pushNew_eq] at hother
          rcases List.mem_append.1 hother with hother | hother
          · exact hnext node other (List.mem_of_mem_filter hother)
          · exact hrest other hother
        obtain ⟨met', hpre, hlists⟩ := ih hmeets hall (by
          rw [pushNew_eq, List.length_append]
          omega)
        rw [pushNew_eq] at hpre
        have hvisits := hpre.of_filter fun other _ hother =>
          hmeets.isSome_get.1 (by simpa using hother)
        obtain ⟨mid, hdown, hafter⟩ := hvisits.split
        exact ⟨met', .meet hmem hdown hafter, hlists⟩

/-- Searches from one root after the other visit the roots in this order. -/
theorem searches_preorder {next : Nat → List Nat} (hnext : ∀ a, ∀ b ∈ next a, b < size) {fuel : Nat}
    (hfuel : ∀ met, owed next size met < fuel) : ∀ (roots : List Nat) {n : Numbering} {met : List Nat},
    n.Lists size met → (∀ root ∈ roots, root < size) →
      ∃ met', Preorder next roots met met' ∧
        (roots.foldl (fun n root => search next fuel [root] n) n).Lists size met'
  | [], _, met, hn, _ => ⟨met, .done, hn⟩
  | root :: roots, n, met, hn, hroots => by
    have hroot : ∀ node ∈ [root], node < size := by simpa using hroots root List.mem_cons_self
    have howed : [root].length + owed next size met ≤ fuel := by
      have := hfuel met
      rw [List.length_singleton]
      omega
    obtain ⟨mid, hfirst, hmid⟩ := search_preorder hnext fuel hn hroot howed
    obtain ⟨met', hrest, hlists⟩ := searches_preorder hnext hfuel roots hmid
      fun other hother => hroots other (List.mem_cons_of_mem _ hother)
    exact ⟨met', hfirst.append hrest, hlists⟩

/-! ## The lists of successors -/

/-- The successors of a node in some lists. -/
def successorsIn (lists : Array (List Nat)) (node : Nat) : List Nat := lists[node]?.getD []

theorem successorsIn_modify {lists : Array (List Nat)} {source target other : Nat} :
    successorsIn (lists.modify source (insertAscending target)) other =
      if other = source ∧ source < lists.size then insertAscending target (successorsIn lists source)
      else successorsIn lists other := by
  unfold successorsIn
  rw [Array.getElem?_modify]
  by_cases h : source = other
  · subst h
    by_cases hs : source < lists.size <;> simp [hs]
  · simp [h, Ne.symm h]

theorem length_insertAscending (i : Nat) :
    ∀ l : List Nat, (insertAscending i l).length ≤ l.length + 1
  | [] => by simp [insertAscending]
  | j :: rest => by
    have ih := length_insertAscending i rest
    unfold insertAscending
    split
    · simp
    · split
      · simp
      · simpa using ih

/-- Adding edges to lists adds the targets of those edges, in ascending order, and no more. -/
theorem foldl_edges : ∀ (edges : List (Nat × Nat)) {lists : Array (List Nat)},
    (∀ a, (successorsIn lists a).Pairwise (· < ·)) →
    ∃ lists', edges.foldl (fun lists (source, target) =>
        lists.modify source (insertAscending target)) lists = lists' ∧
      lists'.size = lists.size ∧ (∀ a, (successorsIn lists' a).Pairwise (· < ·)) ∧
      (∀ a b, b ∈ successorsIn lists' a ↔
        b ∈ successorsIn lists a ∨ (a, b) ∈ edges ∧ a < lists.size) ∧
      ∑ a ∈ Finset.range lists.size, (successorsIn lists' a).length ≤
        ∑ a ∈ Finset.range lists.size, (successorsIn lists a).length + edges.length := by
  intro edges
  induction edges with
  | nil => intro lists hsorted; exact ⟨lists, rfl, rfl, hsorted, by simp, by simp⟩
  | cons edge edges ih =>
    intro lists hsorted
    obtain ⟨source, target⟩ := edge
    have hsorted' : ∀ a, (successorsIn (lists.modify source (insertAscending target)) a).Pairwise (· < ·) := by
      intro a
      rw [successorsIn_modify]
      split
      · exact insertAscending_sorted (hsorted source)
      · exact hsorted a
    obtain ⟨lists', hlists', hsize, hsorted'', hmem, hsum⟩ := ih hsorted'
    rw [Array.size_modify] at hsize hmem hsum
    refine ⟨lists', hlists', hsize, hsorted'', fun a b => ?_, ?_⟩
    · rw [hmem, successorsIn_modify]
      by_cases ha : a = source
      · subst ha
        by_cases hlt : a < lists.size
        · simp [hlt, mem_insertAscending]
          tauto
        · simp [hlt]
      · simp [ha]
    · have hstep : ∀ a ∈ Finset.range lists.size,
          (successorsIn (lists.modify source (insertAscending target)) a).length ≤
            (successorsIn lists a).length + if a = source then 1 else 0 := by
        intro a _
        rw [successorsIn_modify]
        by_cases ha : a = source
        · subst ha
          have := length_insertAscending target (successorsIn lists a)
          simp only [true_and, if_true]
          split
          · exact this
          · omega
        · simp [ha]
      have hle := Finset.sum_le_sum hstep
      rw [Finset.sum_add_distrib, Finset.sum_ite_eq'] at hle
      rw [List.length_cons]
      split at hle <;> omega

theorem adjacency_spec (size : Nat) (edges : List (Nat × Nat)) :
    (∀ a, (successorsIn (adjacency size edges) a).Pairwise (· < ·)) ∧
      (∀ a b, b ∈ successorsIn (adjacency size edges) a ↔ (a, b) ∈ edges ∧ a < size) ∧
      ∑ a ∈ Finset.range size, (successorsIn (adjacency size edges) a).length ≤ edges.length := by
  have hnil : ∀ a, successorsIn (Array.replicate size ([] : List Nat)) a = [] := by
    intro a
    simp only [successorsIn, Array.getElem?_replicate]
    split <;> rfl
  have hblank : ∀ a, (successorsIn (Array.replicate size ([] : List Nat)) a).Pairwise (· < ·) := by
    simp [hnil]
  obtain ⟨lists', hlists', -, hsorted, hmem, hsum⟩ := foldl_edges edges hblank
  have hadjacency : adjacency size edges = lists' := hlists'
  simp only [hnil, Array.size_replicate] at hmem hsum
  rw [hadjacency]
  exact ⟨hsorted, by simpa using hmem, by simpa using hsum⟩

/-- Numbering a graph meets its nodes in the order of the recursive search from the roots. -/
theorem ofGraph_preorder {edges : List (Nat × Nat)} {roots : List Nat}
    (hedges : ∀ e ∈ edges, e.2 < size) (hroots : ∀ root ∈ roots, root < size) :
    ∃ met, Preorder (successorsIn (adjacency size edges)) roots [] met ∧
      (ofGraph size edges roots).Lists size met := by
  obtain ⟨-, hmem, hsum⟩ := adjacency_spec size edges
  refine searches_preorder (fun a b hb => ?_) (fun met => ?_) roots (.blank size) hroots
  · exact hedges (a, b) ((hmem a b).1 hb).1
  · exact Nat.lt_succ_of_le ((owed_le _ _ _).trans hsum)

end Numbering
end BlockGraph
