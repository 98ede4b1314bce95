import BlockGraph.Proofs.Traversal

/-!
# Predecessors

A block lists as its predecessors just the parsed blocks that lead to it, in the order of parsing. The list
grows at its end, when a block is closed that leads to it, and blocks are closed in the order in which
they are parsed. The block after a call is not entered from that call, so nothing but this list and the
edges to handlers decides whether it is parsed. Main statement: `predecessors_exact`.
-/

namespace BlockGraph

variable {m : Method} {pool : ConstantPool} {o : Options} {st : Setting} {home : Homes} {g : Graph}
  {current : Option BlockId} {due : List BlockId} {a b e j p r s : BlockId}

/-- A sublist of a list without repetitions is what the list has of its elements. -/
theorem eq_filter_of_sublist {α : Type} {l l' : List α} {p : α → Bool} (h : l.Sublist l')
    (hnodup : l'.Nodup) (hp : ∀ a ∈ l', p a = true ↔ a ∈ l) : l = l'.filter p := by
  induction h with
  | slnil => rfl
  | @cons l l' a hsub ih =>
    obtain ⟨hnot, hnodup⟩ := List.nodup_cons.1 hnodup
    have ha : ¬ p a = true := fun hpa => hnot (hsub.subset ((hp a List.mem_cons_self).1 hpa))
    rw [List.filter_cons_of_neg ha]
    exact ih hnodup fun c hc => hp c (List.mem_cons_of_mem _ hc)
  | @cons_cons l l' a hsub ih =>
    obtain ⟨hnot, hnodup⟩ := List.nodup_cons.1 hnodup
    rw [List.filter_cons_of_pos ((hp a List.mem_cons_self).2 List.mem_cons_self)]
    refine congrArg (a :: ·) (ih hnodup fun c hc => (hp c (List.mem_cons_of_mem _ hc)).trans ?_)
    have hne : c ≠ a := fun he => hnot (he ▸ hc)
    rw [List.mem_cons, or_iff_right hne]

namespace Graph

/-- The predecessors of a block are listed in the order of parsing. -/
theorem Making.predecessors_sublist (h : g.Making current due) (s : BlockId) :
    (g.block s).predecessors.Sublist g.order.toList := by
  induction h with
  | blank hblank _ _ => rw [hblank s]; exact List.nil_sublist _
  | @copy g _ _ b _ ih =>
    unfold copyBlock
    rw [block_newBlock]
    split
    · exact List.nil_sublist _
    · exact ih
  | promise _ _ ih => exact ih
  | @enqueue g _ _ d _ _ ih =>
    have hsame : ((g.modifyBlock d ({ · with queued := true })).block s).predecessors =
        (g.block s).predecessors := proj_modifyBlock Block.predecessors fun _ => rfl
    rw [hsame]; exact ih
  | @link g b _ d _ ih =>
    rw [block_addHandlerEdge]
    split
    · rename_i hs; exact hs.1 ▸ ih
    · exact ih
  | @append g b _ site opcode _ ih =>
    rw [block_append]
    split
    · rename_i hs; exact hs.1 ▸ ih
    · exact ih
  | @close g b _ x hmaking _ ih =>
    -- the closed block is the last one of the order, and is added at the end if it is not there yet
    obtain ⟨-, pre, hlast, -⟩ := hmaking.orderly.last b rfl
    rw [block_close, close_eq]
    show List.Sublist (ite _ _ _) _
    split
    · rename_i hs
      show List.Sublist _ g.order.toList
      rw [hlast] at ih ⊢
      obtain ⟨l₁, l₂, heq, h₁, h₂⟩ := List.sublist_append_iff.1 ih
      have hnil : l₂ = [] := by
        refine (List.sublist_singleton.1 h₂).resolve_right fun hb => hs.2.2 ?_
        rw [heq, hb]; simp
      rw [heq, hnil, List.append_nil]
      exact h₁.append (.refl _)
    · exact ih
  | @visit g b _ _ _ ih =>
    rw [proj_visit Block.predecessors fun _ => rfl]
    show List.Sublist _ (g.order.push b).toList
    rw [Array.toList_push]
    exact ih.trans (List.sublist_append_left _ _)

end Graph

namespace Finished

variable (h : Finished st home g)
include h

/-- A block is a predecessor of just the blocks that it leads to. -/
theorem mem_predecessors_iff (hg : g.Orderly current due) :
    b ∈ (g.block s).predecessors ↔ s ∈ (g.block b).successors := by
  refine ⟨hg.entered s b, fun hs => ?_⟩
  have hv := (h.mem_order b).1 (hg.mem_order_of_edge (.inl hs))
  exact (h.settled hv).known hs

/-- The block after a call starts behind the call, in the same copy. -/
theorem exists_continuation (hx : (g.block j).exit = some (.jsr e r)) :
    home r = home j ∧ ∃ bci, 0 < bci ∧ (g.block r).site = .code bci := by
  obtain ⟨i, hi, -, _, -, -, hlies⟩ := (h.settled (h.visited_of_exit hx)).call hx
  exact ⟨hlies.home_eq, i.next, Nat.zero_lt_of_lt (Survey.bci_lt_next st.surveyed hi).1, hlies.site⟩

/-- A call does not lead to the block after it, since its first block lies in a copy of its own. -/
theorem not_mem_predecessors (hg : g.Orderly current due) (hx : (g.block j).exit = some (.jsr e r)) :
    j ∉ (g.block r).predecessors := by
  intro hmem
  have hr : r = e := by
    have hsucc := hg.entered r j hmem
    rw [Block.successors, hx] at hsucc
    exact List.mem_singleton.1 hsucc
  have hhome : home j = some j :=
    (h.exists_continuation hx).1.symm.trans ((congrArg home hr).trans (h.call hx).2.1)
  exact Nat.lt_irrefl j (h.laid.lt_of_home j j (Graph.lt_of_exit hx) hhome)

/-- The method does not begin with the block after a call. -/
theorem start_ne_continuation (hx : (g.block j).exit = some (.jsr e r)) : g.start ≠ some r := by
  intro hstart
  obtain ⟨s, hs, hleads⟩ := h.facts.start
  rw [hstart] at hs
  cases hs
  obtain ⟨-, bci, hpos, hsite⟩ := h.exists_continuation hx
  have hzero : 0 = bci := Site.code.inj (hleads.1.site.symm.trans hsite)
  exact Nat.lt_irrefl 0 (by rwa [← hzero] at hpos)

/-- A block other than the beginning is parsed if something leads to it or an exception does. -/
theorem visited_iff (hg : g.Orderly current due) (hstart : g.start ≠ some b) :
    (g.block b).visited = true ↔ (g.block b).predecessors ≠ [] ∨
      ∃ a, (g.block a).visited = true ∧ b ∈ (g.block a).handlers := by
  constructor
  · intro hv
    obtain ⟨pre, post, hsplit⟩ := List.append_of_mem ((h.mem_order b).2 hv)
    obtain ⟨a, -, hab | hab⟩ := (hg.led pre b post hsplit).resolve_left hstart
    · exact .inl (List.ne_nil_of_mem ((h.mem_predecessors_iff hg).2 hab))
    · exact .inr ⟨a, (h.mem_order a).1 (hg.mem_order_of_edge (.inr hab)), hab⟩
  · rintro (hne | ⟨a, hv, hab⟩)
    · obtain ⟨p, hp⟩ := List.exists_mem_of_ne_nil _ hne
      have hedge : g.Edge p b := .inl (hg.entered b p hp)
      exact h.visited_of_edge ((h.mem_order p).1 (hg.mem_order_of_edge hedge)) hedge
    · exact h.visited_of_edge hv (.inr hab)

end Finished

/-- **Predecessors mirror successors.** Every block lists as its predecessors the parsed blocks that lead to it,
in the order of parsing and each once. A call is not among the predecessors of the block after it, and
that block is parsed if and only if it has a predecessor or some parsed block has it as a handler. -/
theorem predecessors_exact (h : build m pool o = .ok g) :
    g.order.toList.Nodup ∧
    (∀ s, s < g.blocks.size → (g.block s).predecessors =
      g.order.toList.filter fun b => s ∈ (g.block b).successors) ∧
    ∀ j e r, (g.block j).exit = some (.jsr e r) → j ∉ (g.block r).predecessors ∧
      ((g.block r).visited = true ↔ (g.block r).predecessors ≠ [] ∨
        ∃ b, (g.block b).visited = true ∧ r ∈ (g.block b).handlers) := by
  obtain ⟨st, home, -, hfinished⟩ := finished_of_build h
  have hmaking := making_of_build h
  have horderly := hmaking.orderly
  refine ⟨hfinished.nodup, fun s _ => ?_, fun j e r hx => ⟨hfinished.not_mem_predecessors horderly hx,
    hfinished.visited_iff horderly (hfinished.start_ne_continuation hx)⟩⟩
  refine eq_filter_of_sublist (hmaking.predecessors_sublist s) hfinished.nodup fun b _ => ?_
  rw [decide_eq_true_iff]
  exact (hfinished.mem_predecessors_iff horderly).symm

/-- The subroutine that is called twice comes back to the block after the first call, from its first copy. -/
theorem callTwice_predecessors : ∃ g, build callTwice {} {} = .ok g ∧
    (g.block 0).exit = some (.jsr 4 1) ∧ (g.block 1).predecessors = [4] ∧ 0 ∉ (g.block 1).predecessors := by
  obtain ⟨g, hbuild, hgraph⟩ := exists_build_of_any callTwice {} {}
    (fun g => (g.block 0).exit = some (.jsr 4 1) ∧ 1 < g.blocks.size ∧
      (g.order.toList.filter fun b => 1 ∈ (g.block b).successors) = [4]) (by decide +kernel)
  obtain ⟨hexit, hsize, hfilter⟩ := of_decide_eq_true hgraph
  obtain ⟨-, hexact, hcalls⟩ := predecessors_exact hbuild
  exact ⟨g, hbuild, hexit, (hexact 1 hsize).trans hfilter, (hcalls 0 4 1 hexit).1⟩

end BlockGraph
