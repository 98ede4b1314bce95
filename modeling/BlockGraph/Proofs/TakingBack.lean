import BlockGraph.Proofs.Guards

/-!
# Taking back an inlined method

A method may be inlined straight into a block of its caller, and its instructions are dropped from the block again
if that does not work out. What is kept for this is the last instruction that the block had before. That is enough
because no block lists an instruction twice: indices increase in each list, and each instruction is listed by the
block to which it was appended (`Graph.Listed`). Main statement: `taken_back_exact`.
-/

namespace BlockGraph

namespace Graph

variable {g g' : Graph} {b c : BlockId} {x : Block} {last : Option InstrId}

/-! ## Cutting a list -/

section
variable {i : InstrId} {kept added instrs : Array InstrId}

theorem upTo_of_not_mem (h : i ∉ instrs) : upTo (some i) instrs = instrs := by
  unfold upTo
  simp only [Array.idxOf?_eq_none_iff.2 h]

/-- A list is cut after the first place where the instruction stands. -/
theorem upTo_push_append (h : i ∉ kept) : upTo (some i) (kept.push i ++ added) = kept.push i := by
  have hfirst : (kept.push i ++ added).idxOf? i = some kept.size := by
    obtain ⟨kept⟩ := kept
    obtain ⟨added⟩ := added
    simp only [List.push_toArray, List.append_toArray, List.idxOf?_toArray, List.size_toArray]
    refine List.idxOf?_eq_some_iff.2 ⟨by simp, by simp, fun j hj => ?_⟩
    rw [List.getElem_append_left (by simp; omega), List.getElem_append_left hj]
    exact fun heq => h (by simpa using heq ▸ List.getElem_mem hj)
  unfold upTo
  simp only [hfirst]
  rw [Array.take, Array.extract_append]
  simp

/-- What is left is where the list starts. -/
theorem exists_upTo_append (last : Option InstrId) (instrs : Array InstrId) :
    ∃ dropped, instrs = upTo last instrs ++ dropped := by
  cases last with
  | none => exact ⟨instrs, by simp [upTo]⟩
  | some i =>
    by_cases hi : i ∈ instrs
    · obtain ⟨kept, dropped, rfl, hnew⟩ := Array.eq_push_append_of_mem hi
      exact ⟨dropped, by rw [upTo_push_append hnew]⟩
    · exact ⟨#[], by rw [upTo_of_not_mem hi, Array.append_empty]⟩

/-- Once is enough. -/
theorem upTo_upTo (last : Option InstrId) (instrs : Array InstrId) :
    upTo last (upTo last instrs) = upTo last instrs := by
  cases last with
  | none => rfl
  | some i =>
    by_cases hi : i ∈ instrs
    · obtain ⟨kept, dropped, rfl, hnew⟩ := Array.eq_push_append_of_mem hi
      have hagain : upTo (some i) (kept.push i ++ #[]) = kept.push i := upTo_push_append hnew
      rw [Array.append_empty] at hagain
      rw [upTo_push_append hnew, hagain]
    · rw [upTo_of_not_mem hi, upTo_of_not_mem hi]

/-- Without repetitions in a list, its last instruction tells where what came later starts. -/
theorem upTo_back?_append (h : kept.toList.Nodup) : upTo kept.back? (kept ++ added) = kept := by
  cases hlast : kept.back? with
  | none => rw [Array.back?_eq_none_iff.1 hlast, upTo]
  | some i =>
    obtain ⟨before, rfl⟩ := Array.back?_eq_some_iff.1 hlast
    rw [Array.toList_push, List.nodup_append] at h
    exact upTo_push_append fun hi => h.2.2 i (Array.mem_toList_iff.2 hi) i (by simp) rfl

end

theorem block_cutAfter : (g.cutAfter b last).block c =
    if c = b then { g.block c with instrs := upTo last (g.block c).instrs } else g.block c := by
  unfold cutAfter
  rw [block_modifyBlock]
  by_cases hc : c = b
  · subst hc
    by_cases hlt : c < g.blocks.size
    · rw [if_pos ⟨rfl, hlt⟩, if_pos rfl]
    · obtain ⟨dropped, hblank⟩ := exists_upTo_append last #[]
      rw [if_neg fun h => hlt h.2, if_pos rfl, block_of_size_le (Nat.le_of_not_lt hlt)]
      show default = { (default : Block) with instrs := upTo last #[] }
      rw [(Array.append_eq_empty_iff.1 hblank.symm).1]
      rfl
  · rw [if_neg fun h => hc h.1, if_neg hc]

theorem cutAfter_cutAfter (g : Graph) (b : BlockId) (last : Option InstrId) :
    (g.cutAfter b last).cutAfter b last = g.cutAfter b last := by
  unfold cutAfter modifyBlock
  congr 1
  refine Array.ext_getElem? fun c => ?_
  rw [Array.getElem?_modify, Array.getElem?_modify]
  split
  · cases g.blocks[c]? <;> simp [upTo_upTo]
  · rfl

/-! ## What blocks list -/

/-- Blocks list their instructions in the order of their indices, and list only what was appended to them. -/
structure Listed (g : Graph) : Prop where
  sorted : ∀ b, (g.block b).instrs.toList.Pairwise (· < ·)
  owned : ∀ b, ∀ id ∈ (g.block b).instrs, ∃ i, g.instrs[id]? = some i ∧ i.block = b

/-- The second graph comes of the first one when a block without instructions is added, a block is copied, an
instruction is appended to a block, or scopes are added or changed. -/
inductive Adds (g : Graph) : Graph → Prop
  | newBlock {x : Block} : x.instrs = #[] → Adds g (g.newBlock x).2
  | copyBlock (b : BlockId) : Adds g (g.copyBlock b).2
  | append (b : BlockId) (site : Site) (opcode : Opcode) : Adds g (g.append b site opcode).2
  | scopes (scopes : Array Scope) : Adds g { g with scopes := scopes }

/-- What comes of the empty graph when this is done, and blocks are cut. -/
inductive Filled : Graph → Prop
  | empty : Filled {}
  | add {g g' : Graph} : Filled g → g.Adds g' → Filled g'
  | cutAfter {g : Graph} (b : BlockId) (last : Option InstrId) : Filled g → Filled (g.cutAfter b last)

theorem instrs_newBlock (hx : x.instrs = #[]) : ((g.newBlock x).2.block b).instrs = (g.block b).instrs := by
  rw [block_newBlock]
  split
  · rename_i hb
    rw [hb, block_of_size_le (Nat.le_refl _), hx]
    rfl
  · rfl

namespace Listed

theorem lt_size (h : g.Listed) {id : InstrId} (hid : id ∈ (g.block b).instrs) : id < g.instrs.size := by
  obtain ⟨i, hi, -⟩ := h.owned b id hid
  exact (Array.getElem?_eq_some_iff.1 hi).1

theorem nodup (h : g.Listed) (b : BlockId) : (g.block b).instrs.toList.Nodup := (h.sorted b).imp Nat.ne_of_lt

theorem empty : Listed {} where
  sorted _ := .nil
  owned _ _ hid := absurd hid (Array.not_mem_empty _)

/-- Blocks may list less. -/
theorem of_le (h : g.Listed) (hinstrs : g'.instrs = g.instrs)
    (hblocks : ∀ b, ∃ dropped, (g.block b).instrs = (g'.block b).instrs ++ dropped) : g'.Listed where
  sorted b := by
    obtain ⟨dropped, hb⟩ := hblocks b
    have hsorted := h.sorted b
    rw [hb, Array.toList_append, List.pairwise_append] at hsorted
    exact hsorted.1
  owned b id hid := by
    obtain ⟨dropped, hb⟩ := hblocks b
    rw [hinstrs]
    exact h.owned b id (hb ▸ Array.mem_append_left dropped hid)

theorem newBlock (h : g.Listed) (hx : x.instrs = #[]) : (g.newBlock x).2.Listed :=
  h.of_le rfl fun _ => ⟨#[], by rw [instrs_newBlock hx, Array.append_empty]⟩

theorem cutAfter (h : g.Listed) (b : BlockId) (last : Option InstrId) : (g.cutAfter b last).Listed := by
  refine h.of_le rfl fun c => ?_
  rw [block_cutAfter]
  split
  · exact exists_upTo_append last _
  · exact ⟨#[], Array.append_empty.symm⟩

/-- The new instruction has the greatest index. -/
theorem append (h : g.Listed) (b : BlockId) (site : Site) (opcode : Opcode) :
    (g.append b site opcode).2.Listed := by
  have hold : ∀ c, ∀ id ∈ (g.block c).instrs,
      ∃ i, (g.append b site opcode).2.instrs[id]? = some i ∧ i.block = c := by
    intro c id hid
    obtain ⟨i, hi, hblock⟩ := h.owned c id hid
    refine ⟨i, ?_, hblock⟩
    show (g.instrs.push _)[id]? = some i
    rw [Array.getElem?_push, if_neg (Nat.ne_of_lt (h.lt_size hid)), hi]
  constructor
  · intro c
    rw [block_append]
    split
    · rw [Array.toList_push, List.pairwise_append]
      refine ⟨h.sorted b, List.pairwise_singleton _ _, fun id hid new hnew => ?_⟩
      rw [List.mem_singleton.1 hnew]
      exact h.lt_size (Array.mem_toList_iff.1 hid)
    · exact h.sorted c
  · intro c id hid
    rw [block_append] at hid
    split at hid
    · rename_i hc
      rw [hc.1]
      rcases Array.mem_push.1 hid with hid | rfl
      · exact hold b id hid
      · exact ⟨_, Array.getElem?_push_size, rfl⟩
    · exact hold c id hid

theorem add (h : g.Listed) (hadds : g.Adds g') : g'.Listed := by
  cases hadds with
  | newBlock hx => exact h.newBlock hx
  | copyBlock b => exact h.newBlock rfl
  | append b site opcode => exact h.append b site opcode
  | scopes _ => exact ⟨h.sorted, h.owned⟩

end Listed

theorem Filled.listed (h : g.Filled) : g.Listed := by
  induction h with
  | empty => exact .empty
  | add _ hadds ih => exact ih.add hadds
  | cutAfter b last _ ih => exact ih.cutAfter b last

/-- Blocks only gain instructions. -/
theorem Adds.exists_added (h : g.Adds g') (b : BlockId) :
    ∃ added, (g'.block b).instrs = (g.block b).instrs ++ added := by
  cases h with
  | newBlock hx => exact ⟨#[], by rw [instrs_newBlock hx, Array.append_empty]⟩
  | copyBlock _ => exact ⟨#[], by rw [Graph.copyBlock, instrs_newBlock rfl, Array.append_empty]⟩
  | append d site opcode =>
    rw [block_append]
    split
    · rename_i hb
      rw [← hb.1]
      exact ⟨#[g.instrs.size], Array.push_eq_append⟩
    · exact ⟨#[], Array.append_empty.symm⟩
  | scopes _ => exact ⟨#[], Array.append_empty.symm⟩

/-- How to take back what will be appended to a block from now on. -/
def undoFrom (g : Graph) (b : BlockId) (frame : Frame) : InlineUndo :=
  { block := b, last := (g.block b).instrs.back?, frame := frame }

end Graph

namespace Assembly

variable {s t : Assembly} {n : Nat}

/-- The assembly with another graph. -/
def withGraph (s : Assembly) (g : Graph) : Assembly := { s with graph := g }

/-- What comes of an assembly when its graph is added to, while contexts are put on the chain and taken off it, but
for the `n` outermost ones. -/
inductive Inlines (n : Nat) (s : Assembly) : Assembly → Prop
  | refl : Inlines n s s
  | add {t : Assembly} {g : Graph} : Inlines n s t → t.graph.Adds g → Inlines n s (t.withGraph g)
  | push {t : Assembly} (c : Context) : Inlines n s t → Inlines n s (t.push c)
  | pop {t : Assembly} : Inlines n s t → n < t.chain.length → Inlines n s t.pop

namespace Inlines

theorem filled (h : s.Inlines n t) (hs : s.graph.Filled) : t.graph.Filled := by
  induction h with
  | refl => exact hs
  | add _ hadds ih => exact ih.add hadds
  | push _ _ ih | pop _ _ ih => exact ih

theorem exists_added (h : s.Inlines n t) (b : BlockId) :
    ∃ added, (t.graph.block b).instrs = (s.graph.block b).instrs ++ added := by
  induction h with
  | refl => exact ⟨#[], Array.append_empty.symm⟩
  | add _ hadds ih =>
    obtain ⟨before, hbefore⟩ := ih
    obtain ⟨added, hadded⟩ := hadds.exists_added b
    exact ⟨before ++ added, by rw [← Array.append_assoc, ← hbefore]; exact hadded⟩
  | push _ _ ih | pop _ _ ih => exact ih

/-- The outermost contexts stay. -/
theorem exists_inner (h : s.Inlines n t) {inner base : List Context} (hs : s.chain = inner ++ base)
    (hn : base.length = n) : ∃ inner', t.chain = inner' ++ base := by
  induction h with
  | refl => exact ⟨inner, hs⟩
  | add _ _ ih => exact ih
  | push c _ ih =>
    obtain ⟨inner', ht⟩ := ih
    exact ⟨c :: inner', congrArg (c :: ·) ht⟩
  | @pop t _ hlt ih =>
    obtain ⟨inner', ht⟩ := ih
    -- The chain is longer than `base`, so what is taken off it is one of the inner contexts.
    refine ⟨inner'.tail, ?_⟩
    cases inner' with
    | nil => exact absurd hlt (by rw [ht, List.nil_append, hn]; exact Nat.lt_irrefl n)
    | cons c inner' => exact congrArg List.tail ht

end Inlines

/-- Takes back the inlined method that the context at a level has on record, if it has one. -/
def takeBack (level : Nat) (s : Assembly) : Assembly :=
  match s.chain[level]?.bind (·.undo) with
  | none => s
  | some undo => s.withGraph (s.graph.cutAfter undo.block undo.last)

variable {c : Context} {inner outer : List Context} {undo : InlineUndo}

theorem ask_setUndo (hs : s.chain = inner ++ c :: outer) : s.ask inner.length (.setUndo undo) =
    { s with chain := inner ++ { c with undo := some undo } :: outer } := by
  refine ask_of_yields (P := fun t => t = _) ?_
  rw [hs, List.drop_left, List.take_left]
  exact rfl

theorem takeBack_eq (hs : s.chain = inner ++ c :: outer) (hc : c.undo = some undo) :
    s.takeBack inner.length = s.withGraph (s.graph.cutAfter undo.block undo.last) := by
  unfold takeBack
  rw [hs, List.getElem?_append_right (Nat.le_refl _), Nat.sub_self, List.getElem?_cons_zero, Option.bind_some, hc]

end Assembly

/-- In the second graph a block lists these instructions, and all else is as in the first one. -/
structure Graph.Relists (g : Graph) (b : BlockId) (instrs : Array InstrId) (g' : Graph) : Prop where
  block : g'.block b = { g.block b with instrs := instrs }
  others : ∀ d ≠ b, g'.block d = g.block d
  /-- The instructions are the same, as is all that is not blocks. -/
  rest : g' = { g with blocks := g'.blocks }

/-- To cut a list at the instruction that was its last one once takes away what it has gained since. -/
theorem Graph.Listed.relists {g earlier : Graph} {b : BlockId} {added : Array InstrId} (h : earlier.Listed)
    (hb : (g.block b).instrs = (earlier.block b).instrs ++ added) :
    g.Relists b (earlier.block b).instrs (g.cutAfter b (earlier.block b).instrs.back?) where
  block := by rw [block_cutAfter, if_pos rfl, hb, upTo_back?_append (h.nodup b)]
  others d hd := by rw [block_cutAfter, if_neg hd]
  rest := rfl

open Assembly

/-- **An inlined method can be taken back.** Record a block with its last instruction in some context of the chain.
Then append instructions to any blocks, add and copy blocks, add scopes, and put contexts on the chain and take them
off it, as long as that context stays. The record is still there, and to cut the block at the recorded instruction
gives it the list that it had, changes nothing else, and changes nothing when it is done again. In all graphs that
are filled in this way the lists increase, and each instruction is listed only by the block to which it was
appended. -/
theorem taken_back_exact :
    (∀ g : Graph, g.Filled → g.Listed) ∧
    ∀ {s t : Assembly} {c : Context} {inner outer : List Context} (b : BlockId) (frame : Frame),
      s.graph.Filled → s.chain = inner ++ c :: outer →
      Inlines (outer.length + 1) (s.ask inner.length (.setUndo (s.graph.undoFrom b frame))) t →
      ∃ inner' : List Context,
        t.chain = inner' ++ { c with undo := some (s.graph.undoFrom b frame) } :: outer ∧
        t.graph.Filled ∧ (t.takeBack inner'.length).graph.Filled ∧
        t.graph.Relists b (s.graph.block b).instrs (t.takeBack inner'.length).graph ∧
        (t.takeBack inner'.length).takeBack inner'.length = t.takeBack inner'.length := by
  refine ⟨fun g => Graph.Filled.listed, fun {s t c inner outer} b frame hs hchain hinlines => ?_⟩
  rw [ask_setUndo hchain] at hinlines
  obtain ⟨inner', ht⟩ := hinlines.exists_inner rfl rfl
  obtain ⟨added, hadded⟩ := hinlines.exists_added b
  have hfilled : t.graph.Filled := hinlines.filled hs
  have htaken : t.takeBack inner'.length = t.withGraph (t.graph.cutAfter b (s.graph.block b).instrs.back?) :=
    takeBack_eq ht rfl
  have hagain := takeBack_eq (s := t.takeBack inner'.length) (by rw [htaken]; exact ht) rfl
  refine ⟨inner', ht, hfilled, ?_, ?_, ?_⟩
  · rw [htaken]
    exact hfilled.cutAfter b _
  · rw [htaken]
    exact hs.listed.relists hadded
  · rw [hagain, htaken]
    exact congrArg t.withGraph (Graph.cutAfter_cutAfter t.graph b _)

/-- Two blocks, the first one of which had an instruction between the two that it lists. -/
def recut : Graph :=
  let g := (Graph.newScope {} (.root { name := "recut", code := #[] })).2
  let g := ((g.newBlock { site := .code 0, number := 0 }).2.newBlock { site := .code 4, number := 1 }).2
  let g := ((g.append 0 (.code 0) 0x03).2.append 1 (.code 4) 0xb1).2.append 0 (.code 1) 0x57
  ((g.2.cutAfter 0 (some 0)).append 0 (.code 1) 0x3c).2

/-- A context for its scope. -/
def recutCaller : Context := .nested [] 0 false {} (.ofCode #[]) {} {}

/-- The first block gains two instructions, and a copy of the second block gains one. Meanwhile a context is put on
the chain, and it and the one below it are taken off. -/
theorem recut_taken_back : ∃ t : Assembly, recut.Filled ∧
    Inlines 1 (ask 1 (.setUndo (recut.undoFrom 0 (.blank 0 2 0)))
      { graph := recut, chain := [recutCaller, recutCaller] }) t ∧
    t.chain.length = 1 ∧ (t.graph.block 0).instrs = #[0, 3, 4, 6] ∧ (t.graph.block 2).instrs = #[5] ∧
    (recut.block 0).instrs = #[0, 3] ∧ t.graph.Relists 0 (recut.block 0).instrs (t.takeBack 0).graph := by
  have hfilled : recut.Filled :=
    ((((((Graph.Filled.empty.add (.scopes _)).add (.newBlock rfl)).add (.newBlock rfl)).add (.append 0 _ _)).add
      (.append 1 _ _)).add (.append 0 _ _)).cutAfter 0 _ |>.add (.append 0 _ _)
  have hchain : Assembly.chain { graph := recut, chain := [recutCaller, recutCaller] } =
      [recutCaller] ++ recutCaller :: [] := rfl
  have hinlines : Inlines 1 (ask 1 (.setUndo (recut.undoFrom 0 (.blank 0 2 0)))
      { graph := recut, chain := [recutCaller, recutCaller] }) _ :=
    ((((((Inlines.refl.push recutCaller).add (.append 0 (.code 2) 0x04)).add (.copyBlock 1)).add
      (.append 2 (.code 0) 0x03)).pop (by decide)).pop (by decide)).add (.append 0 (.code 3) 0x60)
  obtain ⟨inner', ht, -, -, hrelists, -⟩ := taken_back_exact.2 0 (.blank 0 2 0) hfilled hchain hinlines
  have hinner : inner'.length = 0 := by
    have hlength := congrArg List.length ht
    rw [List.length_append, List.length_singleton] at hlength
    exact Nat.succ.inj hlength.symm
  rw [hinner] at hrelists
  exact ⟨_, hfilled, hinlines, rfl, by decide +kernel, by decide +kernel, by decide +kernel, hrelists⟩

end BlockGraph
