import BlockGraph.Proofs.Splitting

/-!
# Loops

Flags are set on the starts of the layout by looking at one instruction at a time, and copied with the
blocks, while a loop of the graph may run through several copies and come back by a `ret`. Still every loop
has a flagged block. For a block, take the indices where the calls around it start, outermost first, and
then its own (`Trail`). Control that goes on to a block without the flag makes this list greater, in the
lexicographic order (`Finished.trail_lt`). Main statement: `loop_has_header`.
-/

namespace BlockGraph

variable {m : Method} {pool : ConstantPool} {o : Options} {st : Setting} {home : Homes} {g : Graph}
  {a b : BlockId} {c : Option BlockId} {i : Insn} {t : Nat} {l l' : List Nat}

/-- Where a block stands in the code: the indices where the calls around it start, outermost first, and
its own index. Around no block there is nothing. -/
inductive Trail (home : Homes) (g : Graph) : Option BlockId → List Nat → Prop
  | nil : Trail home g none []
  | snoc {b : BlockId} {l : List Nat} {bci : Nat} : (g.block b).site = .code bci →
    Trail home g (home b) l → Trail home g (some b) (l ++ [bci])

/-- A block where control comes back from the same or a higher index. -/
def Block.IsHeader (b : Block) : Prop := b.flags.loopHeader = true ∧ b.flags.backwardTarget = true

theorem Trail.unique (h : Trail home g c l) (h' : Trail home g c l') : l = l' := by
  induction h generalizing l' with
  | nil => cases h'; rfl
  | snoc hs _ ih =>
    cases h' with
    | snoc hs' hrest =>
      rw [hs] at hs'
      cases hs'
      rw [ih hrest]

/-! ## Where control may go on -/

theorem Exit.mem_successors {x : Exit} :
    b ∈ x.successors ↔ b ∈ x.jumps ∨ (∃ r, x = .jsr b r) ∨ x = .ret b := by
  cases x <;> simp [Exit.successors, Exit.jumps, eq_comm]

theorem exists_exit_of_successor (hab : b ∈ (g.block a).successors) :
    ∃ x, (g.block a).exit = some x := by
  cases hx : (g.block a).exit with
  | none => simp [Block.successors, hx] at hab
  | some x => exact ⟨x, rfl⟩

namespace Finished

variable (h : Finished st home g)
include h

/-- The target of an instruction at the same or a higher index is flagged, in every copy. -/
theorem isHeader_of_target (hi : i ∈ st.survey.insns) (ht : t ∈ i.targets) (hle : t ≤ i.bci)
    (hb : g.LiesAt home c t b) : (g.block b).IsHeader := by
  obtain ⟨s, hs, rfl, hblank⟩ := h.exists_start hb.lt hb.site
  have hflags : (g.block b).flags = st.survey.entryMarks.flagsAt s.bci :=
    (congrArg Block.flags hblank).trans (Start.flags_of_mem_ofNumbering hs)
  have hmark : st.survey.entryMarks.backward.has s.bci = true := by
    refine Marks.has_ofList.2 ⟨?_, List.mem_flatMap.2 ⟨i, hi, List.mem_filter.2 ⟨ht, by simpa using hle⟩⟩⟩
    have hlt := Survey.bci_lt st.surveyed hi
    have hsize := Survey.size_eq st.surveyed
    omega
  unfold Block.IsHeader
  rw [hflags]
  exact ⟨hmark, hmark⟩

/-- A block of the graph that holds code has a trail: by induction on the calls around it, which are
older blocks. -/
theorem exists_trail (hlt : b < g.blocks.size) {bci : Nat} (hsite : (g.block b).site = .code bci) :
    ∃ l, Trail home g (some b) l := by
  induction b using Nat.strongRecOn generalizing bci with
  | ind b ih =>
    cases hb : home b with
    | none => exact ⟨_, .snoc hsite (by rw [hb]; exact .nil)⟩
    | some j =>
      obtain ⟨e, r, hx⟩ := h.called b j hlt hb
      obtain ⟨hlt', bci', hsite'⟩ := h.exists_site hx (by simp)
      obtain ⟨l, hl⟩ := ih j (h.laid.lt_of_home b j hlt hb) hlt' hsite'
      exact ⟨_, .snoc hsite (by rw [hb]; exact hl)⟩

/-- A block with a trail that has been parsed holds a stretch of code from the last index of the trail. -/
theorem exists_stretch (hl : Trail home g (some a) l) {x : Exit} (hx : (g.block a).exit = some x) :
    ∃ p bci i, l = p ++ [bci] ∧ Trail home g (home a) p ∧ i ∈ st.survey.insns ∧ bci ≤ i.bci ∧
      i.bci < i.next ∧ ExitFits home g a i x := by
  cases hl with
  | @snoc _ p bci hsite hp =>
  cases h.settled (h.visited_of_exit hx) with
  | unlock _ hsite' => rw [hsite] at hsite'; cases hsite'
  | @code _ _ i _ hlies hstretch _ _ hx' hfits =>
    cases hlies.site.symm.trans hsite
    cases hx.symm.trans hx'
    exact ⟨p, bci, i, rfl, hp, hstretch.mem, (Survey.bounds_of_follows st.surveyed hstretch.follows).1,
      (Survey.bci_lt_next st.surveyed hstretch.mem).1, hfits⟩

/-- Where a call comes back to lies ahead of all that is called. -/
theorem exists_trail_back {j e r : BlockId} (hl : Trail home g (some j) l)
    (hx : (g.block j).exit = some (.jsr e r)) :
    ∃ l', Trail home g (some r) l' ∧ ∀ more, l ++ more < l' := by
  obtain ⟨p, bci, i, rfl, hp, -, hle, hlt, hfits⟩ := h.exists_stretch hl hx
  cases hfits with
  | call _ _ _ hr =>
    refine ⟨p ++ [i.next], .snoc hr.site (hr.home_eq ▸ hp), fun more => ?_⟩
    rw [List.append_assoc]
    exact List.append_left_lt (List.cons_lt_cons_iff.2 (.inl (by omega)))

/-- Control goes forward in the code, unless to a flagged block: inside a copy to a higher index, into a
subroutine to a longer trail, out of one to a higher index than that of the call. -/
theorem trail_lt (hl : Trail home g (some a) l) (hab : b ∈ (g.block a).successors)
    (hb : ¬ (g.block b).IsHeader) : ∃ l', Trail home g (some b) l' ∧ l < l' := by
  obtain ⟨x, hx⟩ := exists_exit_of_successor hab
  rw [Block.successors, hx] at hab
  obtain ⟨p, bci, i, rfl, hp, hi, hle, hlt, hfits⟩ := h.exists_stretch hl hx
  rcases Exit.mem_successors.1 hab with hjump | ⟨r, rfl⟩ | rfl
  · obtain ⟨t, ht, hleads⟩ := hfits.exists_leads hjump
    have hahead : bci < t := by
      rcases ht with ht | rfl
      · by_contra hback
        exact hb (h.isHeader_of_target hi ht (by omega) hleads.1)
      · omega
    refine ⟨p ++ [t], .snoc hleads.1.site (hleads.1.home_eq ▸ hp), ?_⟩
    exact List.append_left_lt (List.cons_lt_cons_iff.2 (.inl hahead))
  · cases hfits with
    | @call t _ _ _ _ he _ =>
      refine ⟨p ++ [bci] ++ [t], .snoc he.1.site (he.1.home_eq ▸ hl), ?_⟩
      have hlonger : p ++ [bci] ++ [] < p ++ [bci] ++ [t] := List.append_left_lt (List.nil_lt_cons t [])
      simpa using hlonger
  · cases hfits with
    | ret _ hj hcall _ =>
      rw [hj] at hp
      obtain ⟨l', hl', hmore⟩ := h.exists_trail_back hp hcall
      exact ⟨l', hl', hmore [bci]⟩

/-- A walk that enters no flagged block goes forward in the code. -/
theorem trail_lt_of_walk {walk : List BlockId} (hl : Trail home g (some a) l)
    (hwalk : (a :: walk).IsChain fun a b => b ∈ (g.block a).successors)
    (hplain : ∀ b ∈ walk, ¬ (g.block b).IsHeader) (hlast : walk.getLast? = some b) :
    ∃ l', Trail home g (some b) l' ∧ l < l' := by
  induction walk generalizing a l with
  | nil => simp at hlast
  | cons d rest ih =>
    obtain ⟨had, hrest⟩ := List.isChain_cons_cons.1 hwalk
    obtain ⟨l₁, hl₁, hlt⟩ := h.trail_lt hl had (hplain d (by simp))
    cases rest with
    | nil =>
      simp only [List.getLast?_singleton, Option.some.injEq] at hlast
      exact ⟨l₁, hlast ▸ hl₁, hlt⟩
    | cons d' rest =>
      rw [List.getLast?_cons_cons] at hlast
      obtain ⟨l₂, hl₂, hlt'⟩ := ih hl₁ hrest (fun b hb => hplain b (by simp [hb])) hlast
      exact ⟨l₂, hl₂, List.lt_trans hlt hlt'⟩

end Finished

/-- **Every loop has a flagged header.** A walk along the ways that control can take, into subroutines and
out of them as well, that comes back to the block `a` where it began enters a block with both flags. -/
theorem loop_has_header (h : build m pool o = .ok g) {walk : List BlockId}
    (hwalk : (a :: walk).IsChain fun a b => b ∈ (g.block a).successors)
    (hlast : walk.getLast? = some a) :
    ∃ b ∈ walk, (g.block b).flags.loopHeader = true ∧ (g.block b).flags.backwardTarget = true := by
  obtain ⟨st, home, -, hfinished⟩ := finished_of_build h
  by_contra hnone
  have hplain : ∀ b ∈ walk, ¬ (g.block b).IsHeader := fun b hb hflags => hnone ⟨b, hb, hflags⟩
  -- the walk goes on from `a`, so that holds code
  obtain ⟨d, hd⟩ : ∃ d, d ∈ (g.block a).successors := by
    cases walk with
    | nil => simp at hlast
    | cons d rest => exact ⟨d, (List.isChain_cons_cons.1 hwalk).1⟩
  obtain ⟨x, hx⟩ := exists_exit_of_successor hd
  obtain ⟨hlt, bci, hsite⟩ := hfinished.exists_site hx fun hthrow => by
    rw [Block.successors, hx, hthrow] at hd; cases hd
  obtain ⟨l, hl⟩ := hfinished.exists_trail hlt hsite
  obtain ⟨l', hl', hless⟩ := hfinished.trail_lt_of_walk hl hwalk hplain hlast
  rw [hl.unique hl'] at hless
  exact List.lt_irrefl l' hless

/-- A method that calls its subroutine in a loop. -/
def callInLoop : Method where
  name := "again"
  code := #[0xa8, 0, 6, 0xa7, 0xff, 0xfd, 0x4b, 0xa9, 0]

/-- A loop that runs from the copy back to its call, which is where the flags are. -/
theorem callInLoop_header : ∃ g, build callInLoop {} {} = .ok g ∧
    [3, 1, 0, 3].IsChain (fun a b => b ∈ (g.block a).successors) ∧
    (g.block 3).exit = some (.ret 1) ∧
    ∃ b ∈ [1, 0, 3], (g.block b).flags.loopHeader = true ∧ (g.block b).flags.backwardTarget = true := by
  obtain ⟨g, hbuild, hgraph⟩ := exists_build_of_any callInLoop {} {}
    (fun g => [3, 1, 0, 3].IsChain (fun a b => b ∈ (g.block a).successors) ∧
      (g.block 3).exit = some (.ret 1)) (by decide +kernel)
  obtain ⟨hwalk, hret⟩ := of_decide_eq_true hgraph
  exact ⟨g, hbuild, hwalk, hret, loop_has_header hbuild hwalk rfl⟩

end BlockGraph
