import Mathlib.Data.List.Sort
import BlockGraph.Proofs.Layout.Preorder
import BlockGraph.Proofs.Layout.Segments

/-!
# The graph of the blocks

Control goes from a block to the targets of its instructions, and to the next start if it can fall
into it (`Start.successors`). The edges of a survey are those of this graph (`mem_edges_iff`), so that
the search over them is the search over the blocks (`exists_preorder`).
-/

namespace BlockGraph

/-- Where control can go from the block that starts at an index, by increasing index: the targets of
its instructions, and the next start if control can fall into it. -/
def Start.successors (starts : List Start) (insns : List Insn) (size bci : Nat) : List Nat :=
  (starts.map Start.bci).filter fun t =>
    (Insn.between insns bci (Start.after starts size bci)).any fun i =>
      i.targets.contains t || (i.fallsThrough && i.next == t)

theorem Preorder.congr {next next' : Nat → List Nat} {nodes met met' : List Nat}
    (h : Preorder next nodes met met') (hnext : ∀ a ∈ met', next' a = next a) :
    Preorder next' nodes met met' := by
  induction h with
  | done => exact .done
  | again hmem _ ih => exact .again hmem (ih hnext)
  | meet hnot hdown hrest ihdown ihrest =>
    have hnode := hrest.subset (hdown.subset (List.mem_append_right _ (List.mem_singleton_self _)))
    refine .meet hnot ?_ (ihrest hnext)
    rw [hnext _ hnode]
    exact ihdown fun a ha => hnext a (hrest.subset ha)

namespace Survey

variable {code : Array UInt8} {handlers : List Handler} {v : Survey} {i k : Insn} {bci a b s t : Nat}

theorem starts_sorted : v.starts.Pairwise (· < ·) := List.pairwise_lt_range.filter _

theorem bci_lt_of_mem_layout (h : ofMethod code handlers = .ok v) {x : Start} (hx : x ∈ v.layout) :
    x.bci < code.size := by
  have hmem : x.bci ∈ v.starts := map_bci_layout ▸ List.mem_map_of_mem hx
  exact ((mem_starts h).1 hmem).1

/-- The block of a start is found where it was placed. -/
theorem get_place_layout (h : ofMethod code handlers = .ok v) (g : Graph) {n : Nat} {x : Start}
    (hx : v.layout[n]? = some x) :
    (g.place (.blank code.size) v.layout).2.get x.bci = some (g.blocks.size + n) := by
  apply Graph.get_place v.layout _ _ hx
  · rw [map_bci_layout]
    exact nodup_starts
  · intro y hy
    rw [BlockTable.size_blank]
    exact bci_lt_of_mem_layout h hy

theorem has_iff_mem_starts (h : ofMethod code handlers = .ok v) :
    (Marks.ofList v.size v.startIndices).has t = true ↔ t ∈ v.starts := by
  rw [Marks.has_ofList, mem_starts h, size_eq h]

/-- Of two instructions the second begins where the first has ended. -/
theorem next_le_of_lt (h : ofMethod code handlers = .ok v) (hi : i ∈ v.insns) (hk : k ∈ v.insns)
    (hlt : i.bci < k.bci) : i.next ≤ k.bci := by
  by_contra hinside
  have hone : Insn.between v.insns i.bci i.next = [i] := between_of_follows h ⟨hi, rfl, rfl⟩ hi
  have hmem : k ∈ Insn.between v.insns i.bci i.next := by
    simp only [Insn.between, List.mem_filter, decide_eq_true_eq]
    exact ⟨hk, by omega⟩
  rw [hone, List.mem_singleton] at hmem
  subst hmem
  omega

/-- An instruction belongs to the block that starts at `s`. -/
def InBlock (v : Survey) (s : Nat) (i : Insn) : Prop :=
  s ∈ v.starts ∧ s ≤ i.bci ∧ ∀ t ∈ v.starts, s < t → i.bci < t

theorem InBlock.unique {s' : Nat} (hs : v.InBlock s i) (hs' : v.InBlock s' i) : s = s' := by
  by_contra hne
  rcases Nat.lt_or_gt_of_ne hne with hlt | hlt
  · have := hs.2.2 s' hs'.1 hlt
    have := hs'.2.1
    omega
  · have := hs'.2.2 s hs.1 hlt
    have := hs.2.1
    omega

theorem mem_block_iff (h : ofMethod code handlers = .ok v) (hs : s ∈ v.starts) :
    i ∈ Insn.between v.insns s (Start.after v.layout code.size s) ↔ i ∈ v.insns ∧ v.InBlock s i := by
  have hafter : i ∈ v.insns → (i.bci < Start.after v.layout code.size s ↔
      ∀ t ∈ v.starts, s < t → i.bci < t) := by
    intro hi
    unfold Start.after
    rw [map_bci_layout]
    cases hmin : (v.starts.filter (s < ·)).min? with
    | none =>
      have hnil := List.min?_eq_none_iff.1 hmin
      simp only [List.filter_eq_nil_iff, decide_eq_true_eq] at hnil
      simp only [Option.getD_none]
      exact ⟨fun _ t ht hst => absurd hst (hnil t ht), fun _ => bci_lt h hi⟩
    | some t =>
      obtain ⟨hmem, hle⟩ := List.min?_eq_some_iff.1 hmin
      simp only [List.mem_filter, decide_eq_true_eq] at hmem hle
      simp only [Option.getD_some]
      exact ⟨fun hlt u hu hsu => Nat.lt_of_lt_of_le hlt (hle u ⟨hu, hsu⟩), fun hall => hall t hmem.1 hmem.2⟩
  simp only [Insn.between, List.mem_filter, decide_eq_true_eq, InBlock]
  constructor
  · rintro ⟨hi, hle, hlt⟩
    exact ⟨hi, hs, hle, (hafter hi).1 hlt⟩
  · rintro ⟨hi, -, hle, hall⟩
    exact ⟨hi, hle, (hafter hi).2 hall⟩

/-! ## Edges -/

/-- Control can go from an instruction to a start, by a branch or by falling into it. -/
def LeadsTo (v : Survey) (i : Insn) (t : Nat) : Prop :=
  t ∈ i.targets ∨ i.fallsThrough = true ∧ i.next = t ∧ t ∈ v.starts

/-- The edges of a row of instructions, by induction along the row: the block at hand starts before the
first instruction, and no other block starts in between. -/
theorem mem_edgesFrom_iff (h : ofMethod code handlers = .ok v) :
    ∀ {l : List Insn} {bci block stop : Nat}, v.Follows bci l stop → block ∈ v.starts → block ≤ bci →
      (∀ t ∈ v.starts, block < t → bci ≤ t) →
      ((a, b) ∈ edgesFrom (Marks.ofList v.size v.startIndices).has block l ↔
        ∃ i ∈ l, v.InBlock a i ∧ v.LeadsTo i b) := by
  intro l
  induction l with
  | nil => simp [edgesFrom]
  | cons i rest ih =>
    intro bci block stop hfollows hblock hle hnone
    obtain ⟨hi, rfl, hrest⟩ := hfollows
    generalize hhere : (if (Marks.ofList v.size v.startIndices).has i.bci then i.bci else block) = here
    have hin : v.InBlock here i := by
      subst hhere
      split
      · rename_i hstart
        exact ⟨(has_iff_mem_starts h).1 hstart, Nat.le_refl _, fun t _ hlt => hlt⟩
      · rename_i hstart
        refine ⟨hblock, hle, fun t ht hlt => Nat.lt_of_le_of_ne (hnone t ht hlt) ?_⟩
        rintro rfl
        exact hstart ((has_iff_mem_starts h).2 ht)
    have hbounds := bci_lt_next h hi
    have hrow := ih hrest hin.1 (by have := hin.2.1; omega) fun t ht hlt => by
      obtain ⟨k, hk, rfl⟩ := exists_insn_of_mem_starts h ht
      exact next_le_of_lt h hi hk (hin.2.2 _ ht hlt)
    have hhead : (a, b) ∈ i.targets.map (here, ·) ++
        (if i.fallsThrough && (Marks.ofList v.size v.startIndices).has i.next then [(here, i.next)] else []) ↔
          a = here ∧ v.LeadsTo i b := by
      simp only [List.mem_append, List.mem_map, Prod.mk.injEq, LeadsTo]
      by_cases hf : i.fallsThrough = true
      · by_cases hn : i.next ∈ v.starts
        · rw [if_pos (by simp [hf, (has_iff_mem_starts h).2 hn])]
          simp only [List.mem_singleton, Prod.mk.injEq, hf, true_and]
          grind
        · rw [if_neg (by simp [hf, has_iff_mem_starts h, hn])]
          simp only [hf, true_and, List.not_mem_nil, or_false]
          grind
      · rw [if_neg (by simp [hf])]
        simp only [hf, List.not_mem_nil, or_false]
        grind
    unfold edgesFrom
    simp only [hhere]
    rw [List.mem_append, hhead, hrow]
    simp only [List.exists_mem_cons_iff]
    constructor
    · rintro (⟨rfl, hleads⟩ | hlater)
      · exact .inl ⟨hin, hleads⟩
      · exact .inr hlater
    · rintro (⟨ha, hleads⟩ | hlater)
      · exact .inl ⟨ha.unique hin, hleads⟩
      · exact .inr hlater

theorem mem_edges_iff (h : ofMethod code handlers = .ok v) :
    (a, b) ∈ v.edges ↔ ∃ i ∈ v.insns, v.InBlock a i ∧ v.LeadsTo i b :=
  mem_edgesFrom_iff h (follows_insns h) (zero_mem_starts h) (Nat.le_refl 0) fun _ _ _ => Nat.zero_le _

theorem leadsTo_mem_starts (h : ofMethod code handlers = .ok v) (hi : i ∈ v.insns)
    (hleads : v.LeadsTo i t) : t ∈ v.starts := by
  rcases hleads with ht | ⟨-, -, ht⟩
  · exact target_mem_starts h hi ht
  · exact ht

theorem edge_mem_starts (h : ofMethod code handlers = .ok v) (he : (a, b) ∈ v.edges) :
    a ∈ v.starts ∧ b ∈ v.starts := by
  obtain ⟨i, hi, hblock, hleads⟩ := (mem_edges_iff h).1 he
  exact ⟨hblock.1, leadsTo_mem_starts h hi hleads⟩

/-- The search begins at starts. -/
theorem root_mem_starts (h : ofMethod code handlers = .ok v) (ht : t ∈ 0 :: v.handlerEntries) :
    t ∈ v.starts := by
  rcases List.mem_cons.1 ht with rfl | ht
  · exact zero_mem_starts h
  · rw [(ofMethod_ok h).2.2.1] at ht
    obtain ⟨x, hx, hentry⟩ := List.mem_filterMap.1 ht
    exact handler_mem_starts h hx hentry

/-- The lists over which the search runs are those of the successors of each block. -/
theorem successorsIn_eq (h : ofMethod code handlers = .ok v) (hs : s ∈ v.starts) :
    Numbering.successorsIn (adjacency v.size v.edges) s =
      Start.successors v.layout v.insns code.size s := by
  obtain ⟨hsorted, hmem, -⟩ := Numbering.adjacency_spec v.size v.edges
  have hlt : s < v.size := by
    rw [size_eq h]
    exact ((mem_starts h).1 hs).1
  apply List.Perm.eq_of_pairwise' (r := (· < ·))
  · exact hsorted s
  · rw [Start.successors, map_bci_layout]
    exact starts_sorted.filter _
  · apply (List.perm_ext_iff_of_nodup _ _).2
    · intro t
      rw [hmem, mem_edges_iff h, Start.successors, map_bci_layout]
      simp only [List.mem_filter, List.any_eq_true, mem_block_iff h hs, Bool.or_eq_true,
        Bool.and_eq_true, List.contains_iff_mem, beq_iff_eq]
      constructor
      · rintro ⟨⟨i, hi, hin, hleads⟩, -⟩
        refine ⟨leadsTo_mem_starts h hi hleads, i, ⟨hi, hin⟩, ?_⟩
        exact hleads.imp_right fun hfalls => ⟨hfalls.1, hfalls.2.1⟩
      · rintro ⟨ht, i, ⟨hi, hin⟩, hleads⟩
        exact ⟨⟨i, hi, hin, hleads.imp_right fun hfalls => ⟨hfalls.1, hfalls.2, ht⟩⟩, hlt⟩
    · exact (hsorted s).imp Nat.ne_of_lt
    · rw [Start.successors, map_bci_layout]
      exact nodup_starts.filter _

/-- The numbering of a survey lists the starts in the order of the recursive search over its blocks,
from the beginning and then from each handler. -/
theorem exists_preorder (h : ofMethod code handlers = .ok v) :
    ∃ met, Preorder (Start.successors v.layout v.insns code.size) (0 :: v.handlerEntries) [] met ∧
      (Numbering.ofGraph v.size v.edges (0 :: v.handlerEntries)).Lists v.size met ∧
      ∀ a ∈ met, a ∈ v.starts := by
  have hlt : ∀ {t}, t ∈ v.starts → t < v.size := by
    intro t ht
    rw [size_eq h]
    exact ((mem_starts h).1 ht).1
  have hbound : ∀ e ∈ v.edges, e.2 < v.size := fun e he => hlt (edge_mem_starts h he).2
  obtain ⟨met, hpre, hlists⟩ :=
    Numbering.ofGraph_preorder hbound fun root hroot => hlt (root_mem_starts h hroot)
  have hmet : ∀ a ∈ met, a ∈ v.starts := by
    intro a ha
    obtain ⟨root, hroot, hleads⟩ := hpre.mem_iff.1 ha
    induction hleads with
    | refl => exact root_mem_starts h hroot
    | tail _ hstep _ =>
      exact (edge_mem_starts h (((Numbering.adjacency_spec v.size v.edges).2.1 _ _).1 hstep).1).2
  exact ⟨met, hpre.congr fun a ha => (successorsIn_eq h (hmet a ha)).symm, hlists, hmet⟩

end Survey
end BlockGraph
