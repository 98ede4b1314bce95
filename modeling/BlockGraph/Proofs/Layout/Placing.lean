import BlockGraph.Proofs.Graph.Edits
import BlockGraph.Proofs.Layout.Starts

/-!
# Placing the blocks of a layout

A layout has one start for each start of the survey, in order. `Placed` says that a table lists the
blocks of a graph, all of them blank; placing the starts of a layout keeps that, and enters just those
starts (`Placed.place`).
-/

namespace BlockGraph

/-! ## The starts of a layout -/

namespace Start

variable {flagsAt : Nat → BlockFlags} {numbering : Numbering}

theorem map_bci_ofNumbering : ∀ {l : List Nat} {free : Nat},
    (ofNumbering flagsAt numbering free l).map bci = l
  | [], _ => rfl
  | i :: rest, free => by
    unfold ofNumbering
    split
    · rw [List.map_cons, map_bci_ofNumbering]
    · rw [List.map_cons, map_bci_ofNumbering]

theorem flags_of_mem_ofNumbering : ∀ {l : List Nat} {free : Nat} {s : Start},
    s ∈ ofNumbering flagsAt numbering free l → s.flags = flagsAt s.bci
  | [], _, _, hs => by cases hs
  | i :: rest, free, s, hs => by
    unfold ofNumbering at hs
    split at hs
    · rcases List.mem_cons.1 hs with rfl | hs
      · rfl
      · exact flags_of_mem_ofNumbering hs
    · rcases List.mem_cons.1 hs with rfl | hs
      · rfl
      · exact flags_of_mem_ofNumbering hs

end Start

namespace Survey

variable {v : Survey}

theorem map_bci_layout : v.layout.map Start.bci = v.starts := Start.map_bci_ofNumbering

theorem exists_of_layout {code : Array UInt8} {handlers : List Handler} {starts : List Start}
    (h : BlockGraph.layout code handlers = .ok starts) :
    ∃ v, ofMethod code handlers = .ok v ∧ starts = v.layout := by
  unfold BlockGraph.layout at h
  cases hsurvey : ofMethod code handlers with
  | error fault => rw [hsurvey] at h; cases h
  | ok v =>
    rw [hsurvey] at h
    cases h
    exact ⟨v, rfl, rfl⟩

theorem nodup_starts : v.starts.Nodup := List.nodup_range.filter _

/-- No start of a layout is the handler without code. -/
theorem defaultHandler_of_mem_layout {s : Start} (hs : s ∈ v.layout) :
    s.flags.defaultHandler = false := by
  rw [Start.flags_of_mem_ofNumbering hs]; rfl

end Survey

/-! ## The blocks of a layout -/

/-- A table lists the blocks with code of a graph where nothing has been parsed, and `unlocks` are the
others. -/
structure Placed (g : Graph) (t : BlockTable) (unlocks : List BlockId) : Prop where
  blank : ∀ b, g.block b = (g.block b).blankCopy
  get_iff : ∀ bci b, t.get bci = some b ↔ b < g.blocks.size ∧ (g.block b).site = .code bci
  mem_iff : ∀ b, b ∈ unlocks ↔ b < g.blocks.size ∧ (g.block b).site = .unlock
  defaultHandler_iff : ∀ b, b < g.blocks.size →
    ((g.block b).flags.defaultHandler = true ↔ (g.block b).site = .unlock)
  instrs : g.instrs = #[]
  order : g.order = #[]

namespace Placed

variable {g : Graph} {t : BlockTable} {unlocks : List BlockId}

theorem of_empty {size : Nat} (hblocks : g.blocks = #[]) (hinstrs : g.instrs = #[])
    (horder : g.order = #[]) : Placed g (.blank size) [] := by
  have hdefault : ∀ b, g.block b = default := fun b =>
    Graph.block_of_size_le (by rw [hblocks]; exact Nat.zero_le b)
  refine ⟨fun b => by rw [hdefault]; rfl, fun bci b => ?_, fun b => ?_, fun b hb => ?_, hinstrs, horder⟩
  · simp [hblocks]
  · simp [hblocks]
  · rw [hblocks] at hb; cases hb

/-- Only blocks and instructions matter. -/
theorem congr {g' : Graph} (h : Placed g t unlocks) (hblocks : g'.blocks = g.blocks)
    (hinstrs : g'.instrs = g.instrs) (horder : g'.order = g.order) : Placed g' t unlocks := by
  have hblock : ∀ b, g'.block b = g.block b := fun b => by rw [Graph.block, Graph.block, hblocks]
  constructor
  · intro b
    rw [hblock]
    exact h.blank b
  · intro bci b
    rw [hblock, hblocks]
    exact h.get_iff bci b
  · intro b
    rw [hblock, hblocks]
    exact h.mem_iff b
  · intro b hb
    rw [hblocks] at hb
    rw [hblock]
    exact h.defaultHandler_iff b hb
  · exact hinstrs.trans h.instrs
  · exact horder.trans h.order

/-- A new block is listed as what it is. -/
theorem newBlock {y : Block} {t' : BlockTable} {unlocks' : List BlockId} (h : Placed g t unlocks)
    (hblank : y = y.blankCopy) (hflag : y.flags.defaultHandler = true ↔ y.site = .unlock)
    (hget : ∀ bci b, t'.get bci = some b ↔
      t.get bci = some b ∨ (b = g.blocks.size ∧ y.site = .code bci))
    (hmem : ∀ b, b ∈ unlocks' ↔ b ∈ unlocks ∨ (b = g.blocks.size ∧ y.site = .unlock)) :
    Placed (g.newBlock y).2 t' unlocks' := by
  have hsite : ∀ b site, b < (g.newBlock y).2.blocks.size ∧ ((g.newBlock y).2.block b).site = site ↔
      (b < g.blocks.size ∧ (g.block b).site = site) ∨ (b = g.blocks.size ∧ y.site = site) := by
    intro b site
    constructor
    · rintro ⟨hb, hs⟩
      rcases Graph.lt_size_newBlock.1 hb with hb | rfl
      · exact .inl ⟨hb, Graph.block_newBlock_of_lt hb ▸ hs⟩
      · rw [Graph.block_newBlock_self] at hs
        exact .inr ⟨rfl, hs⟩
    · rintro (⟨hb, hs⟩ | ⟨rfl, hs⟩)
      · exact ⟨Graph.lt_size_newBlock.2 (.inl hb), (Graph.block_newBlock_of_lt hb).symm ▸ hs⟩
      · exact ⟨Graph.lt_size_newBlock.2 (.inr rfl), Graph.block_newBlock_self.symm ▸ hs⟩
  refine ⟨fun b => ?_, fun bci b => ?_, fun b => ?_, fun b hb => ?_, h.instrs, h.order⟩
  · rw [Graph.block_newBlock]
    split
    · exact hblank
    · exact h.blank b
  · rw [hget, h.get_iff, hsite]
  · rw [hmem, h.mem_iff, hsite]
  · rcases Graph.lt_size_newBlock.1 hb with hb | rfl
    · rw [Graph.block_newBlock_of_lt hb]
      exact h.defaultHandler_iff b hb
    · rw [Graph.block_newBlock_self]
      exact hflag

theorem place : ∀ (starts : List Start) {g : Graph} {t : BlockTable}, Placed g t unlocks →
    (starts.map Start.bci).Nodup → (∀ s ∈ starts, s.flags.defaultHandler = false) →
    (∀ s ∈ starts, s.bci < t.size ∧ t.get s.bci = none) →
    Placed (g.place t starts).1 (g.place t starts).2 unlocks ∧
      (g.place t starts).1.scopes = g.scopes ∧ (g.place t starts).1.start = g.start ∧
      ∀ bci, ((g.place t starts).2.get bci).isSome = true ↔
        (t.get bci).isSome = true ∨ bci ∈ starts.map Start.bci
  | [], g, t, h, _, _, _ => ⟨h, rfl, rfl, by simp [Graph.place]⟩
  | s :: rest, g, t, h, hnodup, hflags, hfree => by
    obtain ⟨hlt, hnone⟩ := hfree s List.mem_cons_self
    rw [List.map_cons, List.nodup_cons] at hnodup
    have hgetnew : ∀ bci b, (t.set s.bci g.blocks.size).get bci = some b ↔
        t.get bci = some b ∨ (b = g.blocks.size ∧ s.block.site = .code bci) := by
      intro bci b
      rw [BlockTable.get_set]
      by_cases hb : bci = s.bci
      · rw [if_pos ⟨hb, hlt⟩, hb, hnone]
        simp [Start.block, eq_comm]
      · rw [if_neg fun hc => hb hc.1]
        simp [Start.block, Ne.symm hb]
    have hflag := hflags s List.mem_cons_self
    obtain ⟨hplaced, hscopes, hstart, hsome⟩ := place rest (h.newBlock (y := s.block) rfl
      (by simp [Start.block, hflag]) hgetnew (by simp [Start.block])) hnodup.2
      (fun k hk => hflags k (List.mem_cons_of_mem _ hk)) fun k hk => by
        obtain ⟨hklt, hknone⟩ := hfree k (List.mem_cons_of_mem _ hk)
        have hne : k.bci ≠ s.bci := fun he => hnodup.1 (he ▸ List.mem_map_of_mem hk)
        rw [BlockTable.size_set, BlockTable.get_set, if_neg fun hc => hne hc.1]
        exact ⟨hklt, hknone⟩
    refine ⟨hplaced, hscopes, hstart, fun bci => (hsome bci).trans ?_⟩
    rw [BlockTable.get_set, List.map_cons, List.mem_cons]
    by_cases hb : bci = s.bci
    · rw [if_pos ⟨hb, hlt⟩]; simp [hb]
    · rw [if_neg fun hc => hb hc.1]; simp [hb]

end Placed

/-! ## Which block is placed where -/

section
variable {g : Graph} {t : BlockTable} {b : BlockId} {bci : Nat}

theorem Graph.block_place_of_lt : ∀ (starts : List Start) {g : Graph} {t : BlockTable},
    b < g.blocks.size → (g.place t starts).1.block b = g.block b
  | [], _, _, _ => rfl
  | s :: rest, g, t, hb => by
    have hlt : b < (g.newBlock s.block).2.blocks.size := Graph.lt_size_newBlock.2 (.inl hb)
    exact (block_place_of_lt rest hlt).trans (Graph.block_newBlock_of_lt hb)

theorem Graph.get_place_of_not_mem : ∀ (starts : List Start) {g : Graph} {t : BlockTable},
    bci ∉ starts.map Start.bci → (g.place t starts).2.get bci = t.get bci
  | [], _, _, _ => rfl
  | s :: rest, g, t, hb => by
    rw [List.map_cons, List.mem_cons, not_or] at hb
    refine (get_place_of_not_mem rest hb.2).trans ?_
    rw [BlockTable.get_set, if_neg fun hc => hb.1 hc.1]

/-- Placing adds the blocks of the starts behind the blocks that there are, and leaves the rest of a graph
alone. -/
theorem Graph.place_fst : ∀ (starts : List Start) {g : Graph} {t : BlockTable},
    (g.place t starts).1 = { g with blocks := g.blocks ++ (starts.map Start.block).toArray }
  | [], g, _ => by simp [Graph.place]
  | s :: rest, g, t => by
    unfold Graph.place
    simp only [Graph.newBlock]
    rw [place_fst rest]
    simp

theorem Graph.block_place {starts : List Start} {k : Nat} {s : Start} (hk : starts[k]? = some s) :
    (g.place t starts).1.block (g.blocks.size + k) = s.block := by
  rw [Graph.place_fst, Graph.block]
  have hge : ¬ g.blocks.size + k < g.blocks.size := by omega
  simp [Array.getElem?_append, hk, hge]

/-- The blocks of the starts get the next indices, in order. -/
theorem Graph.get_place : ∀ (starts : List Start) {g : Graph} {t : BlockTable},
    (starts.map Start.bci).Nodup → (∀ s ∈ starts, s.bci < t.size) →
    ∀ {k : Nat} {s : Start}, starts[k]? = some s →
      (g.place t starts).2.get s.bci = some (g.blocks.size + k)
  | [], _, _, _, _, _, _, hk => by cases hk
  | x :: rest, g, t, hnodup, hlt, k, s, hk => by
    rw [List.map_cons, List.nodup_cons] at hnodup
    cases k with
    | zero =>
      cases hk
      refine (Graph.get_place_of_not_mem rest hnodup.1).trans ?_
      rw [BlockTable.get_set, if_pos ⟨rfl, hlt _ List.mem_cons_self⟩]
      rfl
    | succ k =>
      have hrest := get_place rest (g := (g.newBlock x.block).2) (t := t.set x.bci g.blocks.size)
        hnodup.2 (fun y hy => by rw [BlockTable.size_set]; exact hlt y (List.mem_cons_of_mem _ hy)) hk
      refine hrest.trans ?_
      simp [Graph.newBlock, Nat.add_comm, Nat.add_left_comm]

/-- A table finds at a start the block of that start. -/
theorem Graph.block_of_get_place : ∀ (starts : List Start) {g : Graph} {t : BlockTable},
    (starts.map Start.bci).Nodup → (∀ s ∈ starts, s.bci < t.size) →
    ∀ s ∈ starts, ∀ b, (g.place t starts).2.get s.bci = some b → (g.place t starts).1.block b = s.block
  | [], _, _, _, _, _, hs, _, _ => by cases hs
  | k :: rest, g, t, hnodup, hlt, s, hs, b, hb => by
    rw [List.map_cons, List.nodup_cons] at hnodup
    rcases List.mem_cons.1 hs with rfl | hs
    · have hget := Graph.get_place_of_not_mem rest (g := (g.newBlock s.block).2)
        (t := t.set s.bci g.blocks.size) hnodup.1
      rw [BlockTable.get_set, if_pos ⟨rfl, hlt s List.mem_cons_self⟩] at hget
      obtain rfl : g.blocks.size = b := Option.some.inj (hget.symm.trans hb)
      exact (Graph.block_place_of_lt rest (Graph.lt_size_newBlock.2 (.inr rfl))).trans
        Graph.block_newBlock_self
    · exact block_of_get_place rest hnodup.2 (fun k hk => by
        rw [BlockTable.size_set]; exact hlt k (List.mem_cons_of_mem _ hk)) s hs b hb

end

/-- The layout of a surveyed method, placed in a graph without blocks. -/
theorem Survey.placed {v : Survey} {g : Graph} {size : Nat} (hsize : v.size = size)
    (hblocks : g.blocks = #[]) (hinstrs : g.instrs = #[]) (horder : g.order = #[]) :
    Placed (g.place (.blank size) v.layout).1 (g.place (.blank size) v.layout).2 [] ∧
      (g.place (.blank size) v.layout).1.scopes = g.scopes ∧
      (g.place (.blank size) v.layout).1.start = g.start ∧
      (∀ bci, ((g.place (.blank size) v.layout).2.get bci).isSome = true ↔ bci ∈ v.starts) ∧
      ∀ s ∈ v.layout, ∀ b, (g.place (.blank size) v.layout).2.get s.bci = some b →
        (g.place (.blank size) v.layout).1.block b = s.block := by
  have hnodup : (v.layout.map Start.bci).Nodup := by rw [map_bci_layout]; exact nodup_starts
  have hlt : ∀ s ∈ v.layout, s.bci < size := by
    intro s hs
    have hmem : s.bci ∈ v.starts := map_bci_layout ▸ List.mem_map_of_mem hs
    rw [starts, List.mem_filter, List.mem_range, hsize] at hmem
    exact hmem.1
  obtain ⟨hplaced, hscopes, hstart, hsome⟩ := (Placed.of_empty hblocks hinstrs horder).place
    v.layout hnodup (fun s hs => defaultHandler_of_mem_layout hs) fun s hs =>
      ⟨(BlockTable.size_blank size).symm ▸ hlt s hs, BlockTable.get_blank _ _⟩
  refine ⟨hplaced, hscopes, hstart, fun bci => (hsome bci).trans ?_, ?_⟩
  · simp [map_bci_layout]
  · exact Graph.block_of_get_place v.layout hnodup fun s hs =>
      (BlockTable.size_blank size).symm ▸ hlt s hs

end BlockGraph
