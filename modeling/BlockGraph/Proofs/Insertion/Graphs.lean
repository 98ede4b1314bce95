import BlockGraph.Proofs.Graph.Edits
import BlockGraph.Proofs.Insertion.Renaming

/-!
# Graphs with one more block

A graph may be another one into which a block that unlocks has been put (`Graph.Gains`). It stays so
while the same is done to both: what happens to a block of the one happens to the renamed block of the
other. Besides, the other one may get edges to the block that was put in.
-/

namespace BlockGraph

/-- The block without code, which is still to be parsed. -/
def Block.unlocking (number : Nat) (queued : Bool) : Block where
  site := .unlock
  number := number
  flags := { exceptionEntry := true, defaultHandler := true }
  queued := queued

/-- Graph `g'` is `g` with a block that unlocks put in at `n`, which has a higher number than all others,
and with a handler that leads to it and is declared after the others. -/
structure Graph.Gains (size : Nat) (n : BlockId) (queued : Bool) (g g' : Graph) : Prop where
  le : n ≤ g.blocks.size
  size_eq : g'.blocks.size = g.blocks.size + 1
  block : ∀ b, (g'.block (shift n b)).without n = (g.block b).shift n
  number : ∀ b, (g.block b).number < n
  unlock : g'.block n = .unlocking n queued
  instrs : g'.instrs = g.instrs.map (Instr.shift n)
  start : g'.start = g.start.map (shift n)
  order : g'.order = g.order.map (shift n)
  declared : g'.declaredHandlers 0 = (g.declaredHandlers 0).map (Handler.shift n) ++ [.unlocking size n]

namespace Graph.Gains

variable {size : Nat} {n : BlockId} {queued : Bool} {g g' : Graph} {b : BlockId}

/-! ## What is known of the blocks of both -/

section
variable (h : g.Gains size n queued g')
include h

theorem lt_iff : shift n b < g'.blocks.size ↔ b < g.blocks.size := by
  rw [h.size_eq, shift_lt_succ_iff h.le]

theorem lt_size : n < g'.blocks.size := by
  rw [h.size_eq]
  exact Nat.lt_succ_of_le h.le

theorem queued_eq (b : BlockId) : (g'.block (shift n b)).queued = (g.block b).queued := by
  have heq := congrArg Block.queued (h.block b); exact heq

theorem visited_eq (b : BlockId) : (g'.block (shift n b)).visited = (g.block b).visited := by
  have heq := congrArg Block.visited (h.block b); exact heq

theorem blankCopy_eq (b : BlockId) : (g'.block (shift n b)).blankCopy = (g.block b).blankCopy := by
  have heq := congrArg Block.blankCopy (h.block b); exact heq

theorem number_eq (b : BlockId) : (g'.block (shift n b)).number = (g.block b).number := by
  have heq := congrArg Block.number (h.block b); exact heq

theorem flags_eq (b : BlockId) : (g'.block (shift n b)).flags = (g.block b).flags := by
  have heq := congrArg Block.flags (h.block b); exact heq

theorem site_eq (b : BlockId) : (g'.block (shift n b)).site = (g.block b).site := by
  have heq := congrArg Block.site (h.block b); exact heq

theorem predecessors_eq (b : BlockId) :
    (g'.block (shift n b)).predecessors = (g.block b).predecessors.map (shift n) := by
  have heq := congrArg Block.predecessors (h.block b); exact heq

end

/-! ## Blocks that are changed -/

/-- A block and the renamed one may be changed in the same way. -/
theorem modifyBlock (h : g.Gains size n queued g') {f f' : Block → Block}
    (hf : ∀ y y', y'.without n = y.shift n → (f' y').without n = (f y).shift n)
    (hnumber : ∀ y, (f y).number = y.number) :
    (g.modifyBlock b f).Gains size n queued (g'.modifyBlock (shift n b) f') where
  le := by rw [size_modifyBlock]; exact h.le
  size_eq := by rw [size_modifyBlock, size_modifyBlock]; exact h.size_eq
  block c := by
    rw [block_modifyBlock, block_modifyBlock]
    simp only [shift_inj, h.lt_iff]
    split
    · exact hf _ _ (h.block b)
    · exact h.block c
  number c := by rw [proj_modifyBlock Block.number hnumber]; exact h.number c
  unlock := by rw [block_modifyBlock_ne (shift_ne n b).symm]; exact h.unlock
  instrs := h.instrs
  start := h.start
  order := h.order
  declared := h.declared

/-- What happens on one side only must not show. -/
theorem modifyBlock_right (h : g.Gains size n queued g') {f : Block → Block}
    (hf : ∀ y, (f y).without n = y.without n) : g.Gains size n queued (g'.modifyBlock (shift n b) f) where
  le := h.le
  size_eq := by rw [size_modifyBlock]; exact h.size_eq
  block c := by rw [proj_modifyBlock (Block.without n) hf]; exact h.block c
  number := h.number
  unlock := by rw [block_modifyBlock_ne (shift_ne n b).symm]; exact h.unlock
  instrs := h.instrs
  start := h.start
  order := h.order
  declared := h.declared

theorem enqueue (h : g.Gains size n queued g') : (g.modifyBlock b ({ · with queued := true })).Gains size n
    queued (g'.modifyBlock (shift n b) ({ · with queued := true })) :=
  h.modifyBlock (fun _ _ hy => congrArg (fun y : Block => { y with queued := true }) hy) fun _ => rfl

theorem visit (h : g.Gains size n queued g') : (g.modifyBlock b ({ · with visited := true })).Gains size n
    queued (g'.modifyBlock (shift n b) ({ · with visited := true })) :=
  h.modifyBlock (fun _ _ hy => congrArg (fun y : Block => { y with visited := true }) hy) fun _ => rfl

/-- The block that was put in is put on an agenda. -/
theorem enqueue_unlock (h : g.Gains size n queued g') :
    g.Gains size n true (g'.modifyBlock n ({ · with queued := true })) where
  le := h.le
  size_eq := by rw [size_modifyBlock]; exact h.size_eq
  block c := by rw [block_modifyBlock_ne (shift_ne n c)]; exact h.block c
  number := h.number
  unlock := by rw [block_modifyBlock_self h.lt_size, h.unlock]; rfl
  instrs := h.instrs
  start := h.start
  order := h.order
  declared := h.declared

theorem append (h : g.Gains size n queued g') (site : Site) (opcode : Opcode) :
    (g.append b site opcode).2.Gains size n queued (g'.append (shift n b) site opcode).2 := by
  have hsize : g'.instrs.size = g.instrs.size := by rw [h.instrs, Array.size_map]
  have hpush : ∀ y y' : Block, y'.without n = y.shift n →
      ({ y' with instrs := y'.instrs.push g'.instrs.size } : Block).without n =
        ({ y with instrs := y.instrs.push g.instrs.size } : Block).shift n := by
    intro y y' hy
    rw [hsize]
    exact congrArg (fun z : Block => { z with instrs := z.instrs.push g.instrs.size }) hy
  have hblocks := h.modifyBlock (b := b) hpush fun _ => rfl
  refine ⟨hblocks.le, hblocks.size_eq, hblocks.block, hblocks.number, hblocks.unlock, ?_, h.start, h.order,
    h.declared⟩
  show g'.instrs.push _ = (g.instrs.push _).map _
  rw [Array.map_push, h.instrs]
  rfl

/-- A block comes next in the order of parsing. -/
theorem pushOrder (h : g.Gains size n queued g') (b : BlockId) : Graph.Gains size n queued
    { g with order := g.order.push b } { g' with order := g'.order.push (shift n b) } :=
  ⟨h.le, h.size_eq, h.block, h.number, h.unlock, h.instrs, h.start,
    by rw [h.order, Array.map_push], h.declared⟩

/-! ## Edges -/

theorem addPredecessor (h : g.Gains size n queued g') (s : BlockId) :
    (g.addPredecessor b s).Gains size n queued (g'.addPredecessor (shift n b) (shift n s)) := by
  refine h.modifyBlock (fun y y' hy => ?_) fun y => ?_
  · have hlist : y'.predecessors = y.predecessors.map (shift n) := congrArg Block.predecessors hy
    have hmem : shift n b ∈ y'.predecessors ↔ b ∈ y.predecessors := by rw [hlist, mem_map_shift]
    by_cases hb : b ∈ y.predecessors
    · rw [if_pos hb, if_pos (hmem.2 hb)]
      exact hy
    · rw [if_neg hb, if_neg fun hb' => hb (hmem.1 hb'), hlist]
      have hadd : (y.predecessors ++ [b]).map (shift n) = y.predecessors.map (shift n) ++ [shift n b] := by simp
      show Block.without n { y' with predecessors := _ } = Block.shift n { y with predecessors := _ }
      rw [← hadd]
      exact congrArg (fun z : Block => { z with predecessors := (y.predecessors ++ [b]).map (shift n) }) hy
  · split <;> rfl

theorem addPredecessors : ∀ (l : List BlockId) {g g' : Graph}, g.Gains size n queued g' →
    (l.foldl (fun g s => g.addPredecessor b s) g).Gains size n queued
      ((l.map (shift n)).foldl (fun g s => g.addPredecessor (shift n b) s) g')
  | [], _, _, h => h
  | s :: l, _, _, h => addPredecessors l (h.addPredecessor s)

theorem close (h : g.Gains size n queued g') (x : Exit) :
    (g.close b x).Gains size n queued (g'.close (shift n b) (x.shift n)) := by
  unfold Graph.close
  rw [Exit.successors_shift]
  exact (addPredecessors x.successors h).modifyBlock
    (fun _ _ hy => congrArg (fun y : Block => { y with exit := some (x.shift n) }) hy) fun _ => rfl

theorem addHandlerEdge (h : g.Gains size n queued g') (d : BlockId) :
    (g.addHandlerEdge b d).Gains size n queued (g'.addHandlerEdge (shift n b) (shift n d)) := by
  refine h.modifyBlock (fun y y' hy => ?_) fun y => ?_
  · have hlist : y'.handlers.filter (· ≠ n) = y.handlers.map (shift n) := congrArg Block.handlers hy
    have hmem : shift n d ∈ y'.handlers ↔ d ∈ y.handlers := by
      have hfilter : shift n d ∈ y'.handlers ↔ shift n d ∈ y'.handlers.filter (· ≠ n) := by simp [shift_ne]
      rw [hfilter, hlist, mem_map_shift]
    by_cases hd : d ∈ y.handlers
    · rw [if_pos hd, if_pos (hmem.2 hd)]
      exact hy
    · rw [if_neg hd, if_neg fun hd' => hd (hmem.1 hd')]
      have hadd : (y'.handlers ++ [shift n d]).filter (· ≠ n) = (y.handlers ++ [d]).map (shift n) := by
        rw [List.filter_append, hlist, List.map_append]
        simp [shift_ne]
      show { y' with handlers := (y'.handlers ++ [shift n d]).filter (· ≠ n) } = Block.shift n _
      rw [hadd]
      exact congrArg (fun z : Block => { z with handlers := (y.handlers ++ [d]).map (shift n) }) hy
  · split <;> rfl

/-- An edge to the block that was put in. -/
theorem addHandlerEdge_unlock (h : g.Gains size n queued g') :
    g.Gains size n queued (g'.addHandlerEdge (shift n b) n) := by
  refine h.modifyBlock_right fun y => ?_
  split
  · rfl
  · simp [Block.without]

/-! ## More blocks -/

/-- A block and the renamed one may be copied. -/
theorem copyBlock (h : g.Gains size n queued g') (b : BlockId) :
    (g.copyBlock b).2.Gains size n queued (g'.copyBlock (shift n b)).2 ∧
      (g'.copyBlock (shift n b)).1 = shift n (g.copyBlock b).1 := by
  have hnew : g'.blocks.size = shift n g.blocks.size := by rw [h.size_eq, shift_of_le h.le]
  refine ⟨⟨?_, ?_, fun c => ?_, fun c => ?_, ?_, h.instrs, h.start, h.order, h.declared⟩, hnew⟩
  · exact Nat.le_trans h.le (by rw [Graph.copyBlock, size_newBlock]; exact Nat.le_succ _)
  · rw [Graph.copyBlock, Graph.copyBlock, size_newBlock, size_newBlock, h.size_eq]
  · rw [Graph.copyBlock, Graph.copyBlock, block_newBlock, block_newBlock, hnew, h.blankCopy_eq]
    simp only [shift_inj]
    split
    · rfl
    · exact h.block c
  · rw [Graph.copyBlock, block_newBlock]
    split
    · exact h.number b
    · exact h.number c
  · rw [Graph.copyBlock, block_newBlock_of_lt h.lt_size]
    exact h.unlock

end Graph.Gains

/-! ## The block that was put in, parsed -/

namespace Graph

variable {n b : BlockId} {g g' : Graph}

/-- The graph once a block without code has been parsed. -/
def parseUnlock (n : BlockId) (g : Graph) : Graph :=
  (((g.visit n).append n .unlock Opcode.monitorexit).2.append n .unlock Opcode.athrow).2.close n .throw

theorem size_parseUnlock : (g.parseUnlock n).blocks.size = g.blocks.size := by
  simp [parseUnlock, visit, append]

theorem block_parseUnlock_ne (h : b ≠ n) : (g.parseUnlock n).block b = g.block b := by
  have hvisit : (g.visit n).block b = g.block b := block_modifyBlock_ne h
  simp [parseUnlock, block_close, block_append, Exit.successors, h, hvisit]

theorem block_parseUnlock_self (h : n < g.blocks.size) : (g.parseUnlock n).block n =
    { g.block n with
      visited := true
      instrs := ((g.block n).instrs.push g.instrs.size).push (g.instrs.size + 1)
      exit := some .throw } := by
  let unlocked := ((g.visit n).append n .unlock Opcode.monitorexit).2
  let thrown := (unlocked.append n .unlock Opcode.athrow).2
  have hvisit : (g.visit n).block n = { g.block n with visited := true } := block_modifyBlock_self h
  have hunlocked : unlocked.block n = { (g.visit n).block n with
      instrs := ((g.visit n).block n).instrs.push g.instrs.size } :=
    block_modifyBlock_self (by simpa [visit] using h)
  have hthrown : thrown.block n = { unlocked.block n with
      instrs := (unlocked.block n).instrs.push unlocked.instrs.size } :=
    block_modifyBlock_self (by simpa [unlocked, append, visit] using h)
  have hsize : unlocked.instrs.size = g.instrs.size + 1 := Array.size_push _
  show (thrown.modifyBlock n _).block n = _
  rw [block_modifyBlock_self (by simpa [thrown, unlocked, append, visit] using h), hthrown, hsize, hunlocked,
    hvisit]

theorem instrs_parseUnlock : (g.parseUnlock n).instrs =
    (g.instrs.push ⟨.unlock, .monitorexit, n⟩).push ⟨.unlock, .athrow, n⟩ := rfl

theorem body_parseUnlock (h : n < g.blocks.size) (hnone : (g.block n).instrs = #[]) :
    (g.parseUnlock n).body n = [⟨.unlock, .monitorexit, n⟩, ⟨.unlock, .athrow, n⟩] := by
  simp [body, block_parseUnlock_self h, hnone, instrs_parseUnlock, Array.getElem?_push]

end Graph
end BlockGraph
