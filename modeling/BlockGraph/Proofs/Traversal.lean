import Mathlib.Order.Bounds.Defs
import BlockGraph.Proofs.Copies

/-!
# What is parsed

Just the blocks that control or an exception can reach from the beginning are parsed, each once, and all
other blocks stay as they were laid out or copied. A block is never lost, since it is queued when it is led
to and nothing queued is left at the end; and none is parsed in vain, since it was led to from one that
was parsed before it. Main statement: `traversal_exact`.
-/

namespace BlockGraph

variable {m : Method} {pool : ConstantPool} {o : Options} {st : Setting} {home : Homes} {g : Graph}
  {current : Option BlockId} {due : List BlockId} {a b : BlockId} {S : Set BlockId}

/-- A set of blocks holds the beginning, and all that control or an exception can reach from it. -/
structure Graph.IsClosed (g : Graph) (S : Set BlockId) : Prop where
  start : ∃ s, g.start = some s ∧ s ∈ S
  edges : ∀ a ∈ S, ∀ b, g.Edge a b → b ∈ S

/-- Every instruction that a frame names is one of the graph. -/
def Frame.Within (g : Graph) (f : Frame) : Prop :=
  (∀ i, some i ∈ f.locals → i < g.instrs.size) ∧ ∀ i ∈ f.stack, i < g.instrs.size

/-- What is parsed belongs to every closed set: by induction along the order of parsing, since a block is
led to from one before it. -/
theorem Graph.Orderly.mem_of_isClosed (h : g.Orderly current due) (hS : g.IsClosed S) :
    ∀ (pre : List BlockId) {b : BlockId} {post : List BlockId},
      g.order.toList = pre ++ b :: post → b ∈ S
  | pre, b, post, hsplit => by
    rcases h.led pre b post hsplit with hstart | ⟨a, ha, hab⟩
    · obtain ⟨s, hs, hmem⟩ := hS.start
      cases hs.symm.trans hstart
      exact hmem
    · obtain ⟨pre', mid, hpre⟩ := List.append_of_mem ha
      have hshorter : pre'.length < pre.length := by rw [hpre]; simp
      have hsplit' : g.order.toList = pre' ++ a :: (mid ++ b :: post) := by
        rw [hsplit, hpre, List.append_assoc, List.cons_append]
      exact hS.edges a (h.mem_of_isClosed hS pre' hsplit') b hab
  termination_by pre => pre.length

/-- A block without contents is as it was laid out or copied. -/
theorem Block.eq_blankCopy {b : Block} (hqueued : b.queued = false) (hvisited : b.visited = false)
    (hinstrs : b.instrs = #[]) (hexit : b.exit = none) (hpredecessors : b.predecessors = [])
    (hhandlers : b.handlers = []) : b = b.blankCopy := by
  cases b
  simp only at hqueued hvisited hinstrs hexit hpredecessors hhandlers
  simp [Block.blankCopy, *]

namespace Finished

variable (h : Finished st home g)
include h

/-- Where control or an exception may go from a parsed block, a parsed block is. -/
theorem visited_of_edge (hv : (g.block a).visited = true) (hab : g.Edge a b) :
    (g.block b).visited = true := by
  rw [← h.queued_iff]
  cases h.settled hv with
  | code _ _ _ hcaught hx hfits =>
    rcases hab with hb | hb
    · rw [Block.successors, hx] at hb
      cases hfits with
      | jump hf ht hd => exact ((ExitFits.jump hf ht hd).jumps hb).1
      | falls hf hd => exact ((ExitFits.falls hf hd).jumps hb).1
      | branch hf ht hd hd' => exact ((ExitFits.branch hf ht hd hd').jumps hb).1
      | switch hf ht hd hds => exact ((ExitFits.switch hf ht hd hds).jumps hb).1
      | call _ _ he _ =>
        cases List.mem_singleton.1 hb
        exact he.2
      | ret =>
        cases List.mem_singleton.1 hb
        obtain ⟨_, _, hback⟩ := h.facts.returned a b hx
        exact hback.resolve_left List.not_mem_nil
      | leave | throw => cases hb
    · exact (hcaught.sound b hb).1
  | unlock _ _ _ hx hhandlers =>
    rcases hab with hb | hb
    · rw [Block.successors, hx] at hb; cases hb
    · rw [hhandlers] at hb; cases hb

theorem isClosed_order : g.IsClosed {b | b ∈ g.order} where
  start := by
    obtain ⟨s, hs, hleads⟩ := h.facts.start
    refine ⟨s, hs, Array.mem_toList_iff.1 ((h.mem_order s).2 ?_)⟩
    exact (h.queued_iff s).1 hleads.2
  edges a ha b hab := by
    have hv := (h.mem_order a).1 (Array.mem_toList_iff.2 ha)
    exact Array.mem_toList_iff.1 ((h.mem_order b).2 (h.visited_of_edge hv hab))

/-- The parsed blocks are the least closed set. -/
theorem isLeast_order (hg : g.Orderly current due) :
    IsLeast {S : Set BlockId | g.IsClosed S} {b | b ∈ g.order} := by
  refine ⟨h.isClosed_order, fun S hS b hb => ?_⟩
  obtain ⟨pre, post, hsplit⟩ := List.append_of_mem (Array.mem_toList_iff.2 hb)
  exact hg.mem_of_isClosed hS pre hsplit

theorem instrs_ne_nil (hv : (g.block b).visited = true) : (g.block b).instrs ≠ #[] := by
  intro hnil
  have hbody : g.body b = [] := by
    unfold Graph.body
    rw [hnil]; rfl
  cases h.settled hv with
  | code _ _ hb => rw [hbody] at hb; simp at hb
  | unlock _ _ hb => rw [hbody] at hb; cases hb

theorem eq_blankCopy (hg : g.Orderly current due) (hv : (g.block b).visited = false) :
    g.block b = (g.block b).blankCopy := by
  obtain ⟨hexit, hinstrs, hhandlers⟩ := hg.fresh b hv
  refine Block.eq_blankCopy ?_ hv hinstrs hexit ?_ hhandlers
  · rw [← Bool.not_eq_true, h.queued_iff, hv]
    exact Bool.false_ne_true
  · -- a predecessor would have led to the block
    refine List.eq_nil_iff_forall_not_mem.2 fun p hp => ?_
    have hedge : g.Edge p b := .inl (hg.entered b p hp)
    have hvp := (h.mem_order p).1 (hg.mem_order_of_edge hedge)
    rw [h.visited_of_edge hvp hedge] at hv
    cases hv

end Finished

/-- **The traversal is complete and exact.** The order of parsing names no block twice. Its blocks are those
that are visited, those that are queued, and the least set that holds the beginning and whatever control or
an exception can reach from it. Each has an exit and an instruction; every other block is as it was laid out
or copied. All indices that the graph holds are indices of its arrays. -/
theorem traversal_exact (h : build m pool o = .ok g) :
    g.order.toList.Nodup ∧
    (∀ b, b ∈ g.order ↔ b < g.blocks.size ∧ (g.block b).visited = true) ∧
    (∀ b, b ∈ g.order ↔ b < g.blocks.size ∧ (g.block b).queued = true) ∧
    IsLeast {S : Set BlockId | g.IsClosed S} {b | b ∈ g.order} ∧
    (∀ b ∈ g.order, (g.block b).exit.isSome = true ∧ (g.block b).instrs ≠ #[]) ∧
    (∀ b, b < g.blocks.size → b ∉ g.order → g.block b = (g.block b).blankCopy) ∧
    g.InRange ∧ ∀ scope ∈ g.scopes, ∀ f, scope.callerFrame = some f → f.Within g := by
  obtain ⟨st, home, -, hfinished⟩ := finished_of_build h
  have horderly := (making_of_build h).orderly
  have hmem : ∀ b, b ∈ g.order ↔ (g.block b).visited = true := fun b =>
    Array.mem_toList_iff.symm.trans (hfinished.mem_order b)
  refine ⟨hfinished.nodup, fun b => ?_, fun b => ?_, hfinished.isLeast_order horderly, fun b hb => ?_,
    fun b _ hb => ?_, hfinished.range, fun scope hscope f hf => ?_⟩
  · rw [hmem]
    exact ⟨fun hv => ⟨Graph.lt_of_visited hv, hv⟩, And.right⟩
  · rw [hmem, ← hfinished.queued_iff]
    exact ⟨fun hq => ⟨Graph.lt_of_queued hq, hq⟩, And.right⟩
  · have hv := (hmem b).1 hb
    exact ⟨hfinished.closed b hv, hfinished.instrs_ne_nil hv⟩
  · rw [hmem, Bool.not_eq_true] at hb
    exact hfinished.eq_blankCopy horderly hb
  · rw [hfinished.laid.scopes] at hscope
    cases show scope = st.scope by simpa using hscope
    cases hf

/-- A method whose subroutine never comes back. -/
def neverReturns : Method where
  name := "never"
  code := #[0xa8, 0, 4, 0xb1, 0x4b, 0xa7, 0, 0]

theorem neverReturns_traversal : ∃ g, build neverReturns {} {} = .ok g ∧ g.order = #[0, 4, 5] ∧
    ∀ b ∈ [1, 2, 3], g.block b = (g.block b).blankCopy := by
  obtain ⟨g, hbuild, hgraph⟩ := exists_build_of_any neverReturns {} {}
    (fun g => g.order = #[0, 4, 5] ∧ g.blocks.size = 6) (by decide +kernel)
  obtain ⟨horder, hsize⟩ := of_decide_eq_true hgraph
  obtain ⟨-, -, -, -, -, hblank, -⟩ := traversal_exact hbuild
  refine ⟨g, hbuild, horder, fun b hb => ?_⟩
  simp only [List.mem_cons, List.not_mem_nil, or_false] at hb
  rcases hb with rfl | rfl | rfl <;> exact hblank _ (by rw [hsize]; decide) (by rw [horder]; simp)

end BlockGraph
