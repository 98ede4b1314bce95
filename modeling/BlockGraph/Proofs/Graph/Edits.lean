import BlockGraph.Graph.Basic

/-!
# What an operation does to the blocks of a graph

For each operation the block that it makes of every block. `body` reads the instructions of a block
off the graph; `InRange` says that every index that a graph holds is one of its arrays.
-/

namespace BlockGraph

/-- Every block that an exit names, the continuation of a call included. -/
def Exit.blocks : Exit → List BlockId
  | .goto target | .ret target => [target]
  | .branch taken notTaken => [taken, notTaken]
  | .switch fallback cases => fallback :: cases
  | .jsr entry continuation => [entry, continuation]
  | .leave | .throw => []

theorem Exit.mem_blocks {x : Exit} {d : BlockId} (hd : d ∈ x.successors) : d ∈ x.blocks := by
  cases x with
  | goto | branch | ret => exact hd
  | switch => exact List.mem_eraseDups.1 hd
  | jsr => exact List.mem_singleton.1 hd ▸ List.mem_cons_self
  | leave | throw => cases hd

/-- The blocks that a jump, a branch or a switch leads to. -/
def Exit.jumps : Exit → List BlockId
  | .jsr _ _ | .ret _ => []
  | x => x.successors

/-- Every block that a block refers to. -/
def Block.refs (b : Block) : List BlockId := b.exit.elim [] Exit.blocks ++ b.predecessors ++ b.handlers

namespace Graph

variable {g : Graph} {b c : BlockId} {x : Exit}

/-- The instructions of a block, in order. -/
def body (g : Graph) (b : BlockId) : List Instr :=
  (g.block b).instrs.toList.filterMap fun id => g.instrs[id]?

/-- Every index that the graph holds is one of its arrays. -/
structure InRange (g : Graph) : Prop where
  instrs : ∀ b, ∀ id ∈ (g.block b).instrs, id < g.instrs.size
  refs : ∀ b, ∀ d ∈ (g.block b).refs, d < g.blocks.size
  owners : ∀ i ∈ g.instrs, i.block < g.blocks.size
  order : ∀ b ∈ g.order, b < g.blocks.size
  start : ∀ b, g.start = some b → b < g.blocks.size
  entries : ∀ scope ∈ g.scopes, ∀ h ∈ scope.handlers, ∀ b, h.entry = some b → b < g.blocks.size

/-! ## Blocks past the end -/

theorem block_of_size_le (h : g.blocks.size ≤ b) : g.block b = default := by
  simp [block, Array.getElem?_eq_none h]

theorem lt_of_visited (h : (g.block b).visited = true) : b < g.blocks.size := by
  refine Nat.lt_of_not_le fun hle => ?_
  rw [block_of_size_le hle] at h; cases h

theorem lt_of_queued (h : (g.block b).queued = true) : b < g.blocks.size := by
  refine Nat.lt_of_not_le fun hle => ?_
  rw [block_of_size_le hle] at h; cases h

theorem lt_of_exit (h : (g.block b).exit = some x) : b < g.blocks.size := by
  refine Nat.lt_of_not_le fun hle => ?_
  rw [block_of_size_le hle] at h; cases h

/-! ## One block changed -/

theorem block_modifyBlock_self {f : Block → Block} (h : b < g.blocks.size) :
    (g.modifyBlock b f).block b = f (g.block b) := by
  rw [block_modifyBlock, if_pos ⟨rfl, h⟩]

theorem block_modifyBlock_ne {f : Block → Block} (h : c ≠ b) :
    (g.modifyBlock b f).block c = g.block c := by
  rw [block_modifyBlock, if_neg fun hc => h hc.1]

/-- What a change of blocks leaves alone, it leaves alone in the graph. -/
theorem proj_modifyBlock {α : Type} {f : Block → Block} (p : Block → α) (h : ∀ y, p (f y) = p y) :
    p ((g.modifyBlock b f).block c) = p (g.block c) := by
  rw [block_modifyBlock]
  split
  · rename_i hc; rw [h, hc.1]
  · rfl

theorem block_append {site : Site} {opcode : Opcode} :
    (g.append b site opcode).2.block c =
      if c = b ∧ b < g.blocks.size then
        { g.block b with instrs := (g.block b).instrs.push g.instrs.size }
      else g.block c :=
  block_modifyBlock g b c _

theorem block_addPredecessor {s : BlockId} :
    (g.addPredecessor b s).block c =
      { g.block c with
        predecessors :=
          if c = s ∧ c < g.blocks.size ∧ b ∉ (g.block c).predecessors then
            (g.block c).predecessors ++ [b] else (g.block c).predecessors } := by
  unfold addPredecessor
  rw [block_modifyBlock]
  by_cases hc : c = s ∧ s < g.blocks.size
  · obtain ⟨rfl, hs⟩ := hc
    by_cases hb : b ∈ (g.block c).predecessors <;> simp [hs, hb]
  · have hn : ¬(c = s ∧ c < g.blocks.size ∧ b ∉ (g.block c).predecessors) := by
      rintro ⟨rfl, hs, -⟩; exact hc ⟨rfl, hs⟩
    rw [if_neg hc, if_neg hn]

@[simp] theorem size_addPredecessors : ∀ {l : List BlockId} {g : Graph},
    (l.foldl (fun g s => g.addPredecessor b s) g).blocks.size = g.blocks.size
  | [], _ => rfl
  | s :: rest, g => by rw [List.foldl_cons, size_addPredecessors]; exact size_modifyBlock g s _

theorem block_addPredecessors : ∀ {l : List BlockId} {g : Graph},
    (l.foldl (fun g s => g.addPredecessor b s) g).block c =
      { g.block c with
        predecessors :=
          if c ∈ l ∧ c < g.blocks.size ∧ b ∉ (g.block c).predecessors then
            (g.block c).predecessors ++ [b] else (g.block c).predecessors }
  | [], g => by simp
  | s :: rest, g => by
    have hsize : (g.addPredecessor b s).blocks.size = g.blocks.size := size_modifyBlock g s _
    rw [List.foldl_cons, block_addPredecessors, hsize, block_addPredecessor]
    by_cases hcs : c = s
    · subst hcs
      by_cases hb : b ∈ (g.block c).predecessors <;> by_cases hc : c < g.blocks.size <;> simp [hb, hc]
    · simp [hcs]

@[simp] theorem size_close : (g.close b x).blocks.size = g.blocks.size := by
  unfold close; rw [size_modifyBlock, size_addPredecessors]

theorem block_close : (g.close b x).block c =
    { g.block c with
      predecessors :=
        if c ∈ x.successors ∧ c < g.blocks.size ∧ b ∉ (g.block c).predecessors then
          (g.block c).predecessors ++ [b] else (g.block c).predecessors
      exit := if c = b ∧ b < g.blocks.size then some x else (g.block c).exit } := by
  unfold close
  rw [block_modifyBlock, block_addPredecessors, block_addPredecessors, size_addPredecessors]
  by_cases hcb : c = b ∧ b < g.blocks.size
  · obtain ⟨rfl, hb⟩ := hcb
    simp only [hb, and_self, if_true]
  · rw [if_neg hcb, if_neg hcb]

/-- Closing a block changes blocks only. -/
theorem close_eq : g.close b x = { g with blocks := (g.close b x).blocks } := by
  unfold close modifyBlock
  generalize x.successors = l
  have h : ∀ {g : Graph}, l.foldl (fun g s => g.addPredecessor b s) g =
      { g with blocks := (l.foldl (fun g s => g.addPredecessor b s) g).blocks } := by
    induction l with
    | nil => intro g; rfl
    | cons s rest ih => intro g; rw [List.foldl_cons, ih]; rfl
  rw [h]

theorem exit_close_self (h : b < g.blocks.size) : ((g.close b x).block b).exit = some x := by
  rw [block_close]; exact if_pos ⟨rfl, h⟩

theorem exit_close_ne (h : c ≠ b) : ((g.close b x).block c).exit = (g.block c).exit := by
  rw [block_close]; exact if_neg fun hc => h hc.1

theorem mem_predecessors_close {p : BlockId} : p ∈ ((g.close b x).block c).predecessors ↔
    p ∈ (g.block c).predecessors ∨ (p = b ∧ c ∈ x.successors ∧ c < g.blocks.size) := by
  rw [block_close]
  show p ∈ ite _ _ _ ↔ _
  split
  · rename_i h
    rw [List.mem_append, List.mem_singleton]
    constructor
    · rintro (hp | rfl)
      · exact .inl hp
      · exact .inr ⟨rfl, h.1, h.2.1⟩
    · rintro (hp | ⟨rfl, -⟩)
      · exact .inl hp
      · exact .inr rfl
  · rename_i h
    constructor
    · exact .inl
    · rintro (hp | ⟨rfl, hc, hlt⟩)
      · exact hp
      · exact Decidable.byContradiction fun hn => h ⟨hc, hlt, hn⟩

theorem block_addHandlerEdge {d : BlockId} : (g.addHandlerEdge b d).block c =
    if c = b ∧ b < g.blocks.size ∧ d ∉ (g.block b).handlers then
      { g.block b with handlers := (g.block b).handlers ++ [d] }
    else g.block c := by
  unfold addHandlerEdge
  rw [block_modifyBlock]
  by_cases hc : c = b ∧ b < g.blocks.size
  · obtain ⟨rfl, hb⟩ := hc
    by_cases hd : d ∈ (g.block c).handlers <;> simp [hb, hd]
  · rw [if_neg hc, if_neg fun h => hc ⟨h.1, h.2.1⟩]

theorem mem_handlers_addHandlerEdge {d e : BlockId} (h : b < g.blocks.size) :
    e ∈ ((g.addHandlerEdge b d).block b).handlers ↔ e ∈ (g.block b).handlers ∨ e = d := by
  rw [block_addHandlerEdge]
  by_cases hd : d ∈ (g.block b).handlers
  · rw [if_neg fun hc => hc.2.2 hd]
    exact ⟨.inl, fun he => he.elim id fun he => he ▸ hd⟩
  · rw [if_pos ⟨rfl, h, hd⟩, List.mem_append, List.mem_singleton]

/-! ## A new block -/

theorem size_newBlock (y : Block) : (g.newBlock y).2.blocks.size = g.blocks.size + 1 := Array.size_push y

theorem lt_size_newBlock {y : Block} :
    b < (g.newBlock y).2.blocks.size ↔ b < g.blocks.size ∨ b = g.blocks.size := by
  rw [size_newBlock, Nat.lt_succ_iff_lt_or_eq]

theorem block_newBlock_self {y : Block} : (g.newBlock y).2.block g.blocks.size = y := by
  rw [block_newBlock, if_pos rfl]

theorem block_newBlock_of_lt {y : Block} (hb : b < g.blocks.size) :
    (g.newBlock y).2.block b = g.block b := by
  rw [block_newBlock, if_neg (Nat.ne_of_lt hb)]

/-! ## The instructions of a block -/

theorem body_of_size_le (h : g.blocks.size ≤ b) : g.body b = [] := by
  unfold body; rw [block_of_size_le h]; rfl

theorem lt_of_body_ne_nil (h : g.body b ≠ []) : b < g.blocks.size :=
  Nat.lt_of_not_le fun hle => h (body_of_size_le hle)

theorem body_congr {g' : Graph} (hinstrs : g'.instrs = g.instrs)
    (hb : (g'.block c).instrs = (g.block c).instrs) : g'.body c = g.body c := by
  unfold body; rw [hinstrs, hb]

/-- An index that the block holds names an old instruction, also after one more is added. -/
theorem filterMap_push {instrs : Array Instr} {i : Instr} {l : List InstrId}
    (h : ∀ id ∈ l, id < instrs.size) :
    (l.filterMap fun id => (instrs.push i)[id]?) = l.filterMap fun id => instrs[id]? := by
  induction l with
  | nil => rfl
  | cons id rest ih =>
    have hid : (instrs.push i)[id]? = instrs[id]? := by
      rw [Array.getElem?_push, if_neg (Nat.ne_of_lt (h id List.mem_cons_self))]
    simp only [List.filterMap_cons, hid, ih fun k hk => h k (List.mem_cons_of_mem _ hk)]

theorem body_append_self {site : Site} {opcode : Opcode} (hg : g.InRange) (h : b < g.blocks.size) :
    (g.append b site opcode).2.body b =
      g.body b ++ [{ site := site, opcode := opcode, block := b }] := by
  unfold body
  rw [block_append, if_pos ⟨rfl, h⟩]
  show ((g.block b).instrs.push g.instrs.size).toList.filterMap
    (fun id => (g.instrs.push { site := site, opcode := opcode, block := b })[id]?) = _
  have hold : ∀ id ∈ (g.block b).instrs.toList, id < g.instrs.size := fun id hid =>
    hg.instrs b id (by simpa using hid)
  rw [Array.toList_push, List.filterMap_append, filterMap_push hold]
  simp

theorem body_append_ne {site : Site} {opcode : Opcode} (hg : g.InRange) (h : c ≠ b) :
    (g.append b site opcode).2.body c = g.body c := by
  unfold body
  rw [block_append, if_neg fun hc => h hc.1]
  exact filterMap_push fun id hid => hg.instrs c id (by simpa using hid)

/-- What a block holds stays in it. -/
theorem mem_body_append {site : Site} {opcode : Opcode} {k : Instr} (hg : g.InRange)
    (h : b < g.blocks.size) (hk : k ∈ g.body c) : k ∈ (g.append b site opcode).2.body c := by
  by_cases hc : c = b
  · rw [hc, body_append_self hg h, ← hc]
    exact List.mem_append_left _ hk
  · rwa [body_append_ne hg hc]

/-! ## The next block -/

/-- A block comes next in the order of parsing. -/
def visit (g : Graph) (b : BlockId) : Graph :=
  { g.modifyBlock b ({ · with visited := true }) with order := g.order.push b }

theorem proj_visit {α : Type} (p : Block → α)
    (hp : ∀ y : Block, p { y with visited := true } = p y) (c : BlockId) :
    p ((g.visit b).block c) = p (g.block c) := proj_modifyBlock p hp

theorem visited_visit (hb : b < g.blocks.size) (c : BlockId) :
    ((g.visit b).block c).visited = true ↔ (g.block c).visited = true ∨ c = b := by
  show ((g.modifyBlock b _).block c).visited = true ↔ _
  by_cases hc : c = b
  · rw [hc, block_modifyBlock_self hb]; simp
  · rw [block_modifyBlock_ne hc]; simp [hc]

theorem body_visit (c : BlockId) : (g.visit b).body c = g.body c :=
  body_congr rfl (proj_visit Block.instrs (fun _ => rfl) c)

/-! ## Staying in range -/

theorem InRange.of_blocks {g' : Graph} (hg : g.InRange) (hsize : g.blocks.size ≤ g'.blocks.size)
    (hrest : g' = { g with blocks := g'.blocks })
    (hinstrs : ∀ b, ∀ id ∈ (g'.block b).instrs, id < g.instrs.size)
    (hrefs : ∀ b, ∀ d ∈ (g'.block b).refs, d < g'.blocks.size) : g'.InRange where
  instrs b id hid := by rw [hrest]; exact hinstrs b id hid
  refs := hrefs
  owners i hi := by rw [hrest] at hi; exact Nat.lt_of_lt_of_le (hg.owners i hi) hsize
  order b hb := by rw [hrest] at hb; exact Nat.lt_of_lt_of_le (hg.order b hb) hsize
  start b hb := by rw [hrest] at hb; exact Nat.lt_of_lt_of_le (hg.start b hb) hsize
  entries scope hs x hx b hb := by
    rw [hrest] at hs; exact Nat.lt_of_lt_of_le (hg.entries scope hs x hx b hb) hsize

/-- A change that keeps what a block holds keeps it in range. -/
theorem InRange.modifyBlock {f : Block → Block} (hg : g.InRange)
    (hinstrs : ∀ y, (f y).instrs = y.instrs) (hrefs : ∀ y, (f y).refs = y.refs) :
    (g.modifyBlock b f).InRange := by
  refine hg.of_blocks (Nat.le_of_eq (size_modifyBlock g b f).symm) rfl (fun c id hid => ?_) fun c d hd => ?_
  · rw [proj_modifyBlock Block.instrs hinstrs] at hid; exact hg.instrs c id hid
  · rw [proj_modifyBlock Block.refs hrefs] at hd
    rw [size_modifyBlock]; exact hg.refs c d hd

theorem InRange.append {site : Site} {opcode : Opcode} (hg : g.InRange) (h : b < g.blocks.size) :
    (g.append b site opcode).2.InRange := by
  have hsize : (g.append b site opcode).2.blocks.size = g.blocks.size := size_modifyBlock g b _
  have hinstrs : (g.append b site opcode).2.instrs.size = g.instrs.size + 1 := Array.size_push _
  constructor
  · intro c id hid
    rw [hinstrs]
    rw [block_append] at hid
    split at hid
    · rcases Array.mem_push.1 hid with hid | rfl
      · exact Nat.lt_succ_of_lt (hg.instrs b id hid)
      · exact Nat.lt_succ_self _
    · exact Nat.lt_succ_of_lt (hg.instrs c id hid)
  · intro c d hd
    rw [hsize]
    rw [block_append] at hd
    split at hd
    · exact hg.refs b d hd
    · exact hg.refs c d hd
  · intro i hi
    rw [hsize]
    rcases Array.mem_push.1 hi with hi | rfl
    · exact hg.owners i hi
    · exact h
  · intro c hc; rw [hsize]; exact hg.order c hc
  · intro c hc; rw [hsize]; exact hg.start c hc
  · intro scope hs y hy c hc; rw [hsize]; exact hg.entries scope hs y hy c hc

theorem InRange.addHandlerEdge {d : BlockId} (hg : g.InRange) (hd : d < g.blocks.size) :
    (g.addHandlerEdge b d).InRange := by
  refine hg.of_blocks (Nat.le_of_eq (size_modifyBlock g b _).symm) rfl (fun c id hid => ?_) fun c e he => ?_
  · rw [block_addHandlerEdge] at hid
    split at hid
    · exact hg.instrs b id hid
    · exact hg.instrs c id hid
  · have hsize : (g.addHandlerEdge b d).blocks.size = g.blocks.size := size_modifyBlock g b _
    rw [hsize]
    rw [block_addHandlerEdge] at he
    split at he
    · have hmem : e ∈ (g.block b).refs ∨ e = d := by
        simpa [Block.refs, or_assoc] using he
      exact hmem.elim (hg.refs b e) fun h => h ▸ hd
    · exact hg.refs c e he

theorem InRange.close (hg : g.InRange) (hb : b < g.blocks.size)
    (hx : ∀ d ∈ x.blocks, d < g.blocks.size) : (g.close b x).InRange := by
  refine hg.of_blocks (Nat.le_of_eq size_close.symm) close_eq (fun c id hid => ?_) fun c d hd => ?_
  · rw [block_close] at hid; exact hg.instrs c id hid
  · rw [size_close]
    have hold : ∀ e, e ∈ (g.block c).predecessors ++ (g.block c).handlers → e < g.blocks.size :=
      fun e he => hg.refs c e (by
        simp only [Block.refs, List.append_assoc]; exact List.mem_append_right _ he)
    simp only [Block.refs, List.mem_append] at hd
    rcases hd with (hd | hd) | hd
    · by_cases hcb : c = b
      · subst hcb
        rw [exit_close_self hb] at hd
        exact hx d hd
      · rw [exit_close_ne hcb] at hd
        exact hg.refs c d (by
          simp only [Block.refs, List.append_assoc]; exact List.mem_append_left _ hd)
    · rcases mem_predecessors_close.1 hd with hd | ⟨rfl, -⟩
      · exact hold d (List.mem_append_left _ hd)
      · exact hb
    · rw [block_close] at hd
      exact hold d (List.mem_append_right _ hd)

/-- The only scope gets one more handler. -/
theorem declareHandler_eq {scope : Scope} {x : Handler} (h : g.scopes = #[scope]) :
    g.declareHandler 0 x = { g with scopes := #[scope.declare x] } := by
  simp only [Graph.declareHandler, h]
  rfl

theorem InRange.declareHandler {scope : Scope} {x : Handler} (hg : g.InRange) (h : g.scopes = #[scope])
    (hx : ∀ b, x.entry = some b → b < g.blocks.size) : (g.declareHandler 0 x).InRange := by
  rw [declareHandler_eq h]
  refine ⟨hg.instrs, hg.refs, hg.owners, hg.order, hg.start, fun sc hsc y hy b hb => ?_⟩
  cases show sc = scope.declare x by simpa using hsc
  rcases List.mem_append.1 hy with hy | hy
  · exact hg.entries scope (by rw [h]; simp) y hy b hb
  · cases List.mem_singleton.1 hy
    exact hx b hb

end Graph
end BlockGraph
