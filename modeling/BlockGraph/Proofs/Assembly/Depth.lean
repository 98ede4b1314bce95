import Mathlib.Algebra.BigOperators.Group.Finset.Basic
import Mathlib.Algebra.Order.BigOperators.Group.Finset
import Mathlib.Data.Finset.Card
import BlockGraph.Proofs.Assembly.Invariant

/-!
# How deep calls nest

No subroutine is entered while it is open, so calls that lie one inside the other lead to different
indices of the code, and they nest no deeper than there are such indices (`Core.depth_le`). A block is
known by the copy in which it lies and by the index where it starts, so a graph has no more blocks than
there are lists of starts of that length (`Core.size_le`).
-/

namespace BlockGraph

/-- Where the calls among some instructions lead. -/
def Insn.callTargets (l : List Insn) : Finset Nat :=
  ((l.filter (·.flow = .jsr)).flatMap Insn.targets).toFinset

/-- So many blocks there are at most when `n` blocks are laid out and calls nest `depth` deep:
`1 + n + n² + … + n ^ (depth + 1)`. -/
def blockBound (n depth : Nat) : Nat := ∑ k ∈ Finset.range (depth + 2), n ^ k

/-- A block lies in the copy for the innermost one of some calls that lie one inside the other, as many as
the number says. -/
inductive AtDepth (home : Homes) : Nat → BlockId → Prop
  | root {b : BlockId} : home b = none → AtDepth home 0 b
  | copy {k : Nat} {b j : BlockId} : home b = some j → AtDepth home k j → AtDepth home (k + 1) b

variable {st : Setting} {home : Homes} {path : List BlockId} {s : Assembly} {b c j : BlockId} {k t : Nat}

theorem Insn.mem_callTargets {l : List Insn} :
    t ∈ callTargets l ↔ ∃ i ∈ l, i.flow = .jsr ∧ t ∈ i.targets := by
  simp [callTargets, and_assoc]

/-- All handlers without code start at the same block, at any time. -/
theorem Laid.unlock_unique {home' : Homes} {g g' : Graph} (h : Laid st home g) (h' : Laid st home' g')
    (hb : b < g.blocks.size) (hc : c < g'.blocks.size) (hsb : (g.block b).site = .unlock)
    (hsc : (g'.block c).site = .unlock) : b = c := by
  obtain ⟨-, x, hx, htx, hex⟩ := h.unlock b hb hsb
  obtain ⟨-, y, hy, hty, hey⟩ := h'.unlock c hc hsc
  rw [st.unlock_unique hx hy htx hty, hey] at hex
  exact (Option.some.inj hex).symm

/-- While a block has not been opened there are more blocks than have been. -/
theorem Base.order_size_lt (h : Base st home path s) (hb : b < s.graph.blocks.size)
    (hv : (s.graph.block b).visited = false) : s.graph.order.size < s.graph.blocks.size := by
  have hnew : b ∉ s.graph.order.toList := by
    rw [h.queue.mem_order, hv]
    simp
  have hsub : (b :: s.graph.order.toList).toFinset ⊆ Finset.range s.graph.blocks.size := by
    intro c hc
    rw [Finset.mem_range]
    rcases List.mem_cons.1 (List.mem_toFinset.1 hc) with rfl | hc
    · exact hb
    · exact h.range.order c (by simpa using hc)
  have hle := Finset.card_le_card hsub
  rw [List.toFinset_card_of_nodup (List.nodup_cons.2 ⟨hnew, h.queue.nodup⟩), Finset.card_range] at hle
  simp only [List.length_cons, Array.length_toList] at hle
  omega

namespace Core

variable (h : Core st home path s)
include h

/-! ## Calls one inside the other -/

/-- Copies are made for calls. -/
theorem exists_call (hb : b < s.graph.blocks.size) (hj : home b = some j) :
    ∃ e r, (s.graph.block j).exit = some (.jsr e r) := by
  rcases h.base.called b j hb hj with hmem | hexit
  · obtain ⟨c, -, hfits⟩ := h.calls.exists_of_mem hmem
    obtain ⟨-, e, r, -, -, hexit, -⟩ := hfits.called j rfl
    exact ⟨e, r, hexit⟩
  · exact hexit

/-- The calls around a block lead to different indices. -/
theorem exists_entries (hd : AtDepth home k b) (hb : b < s.graph.blocks.size) :
    ∃ l : List Nat, l.length = k ∧ l.Nodup ∧ ∀ t ∈ l, t ∈ Insn.callTargets st.survey.insns ∧
      ∃ j e r, Under home j b ∧ (s.graph.block j).exit = some (.jsr e r) ∧
        (s.graph.block e).site = .code t := by
  induction hd with
  | root _ => exact ⟨[], rfl, List.nodup_nil, by simp⟩
  | @copy k b j hj _ ih =>
    obtain ⟨l, hlength, hnodup, hl⟩ := ih (Nat.lt_trans (h.base.laid.lt_of_home b j hb hj) hb)
    obtain ⟨e, r, hx⟩ := h.exists_call hb hj
    obtain ⟨i, hi, hf, t, ht, hleads, -⟩ := (h.facts.settled j (by rw [hx]; rfl)).call hx
    have hnew : t ∉ l := by
      intro hmem
      obtain ⟨-, j', e', r', hu, hx', hsite⟩ := hl t hmem
      obtain ⟨e'', r'', hx'', -, hne⟩ := (h.facts.unentered j e r hx).2 j' hu
      rw [hx'] at hx''
      cases hx''
      exact hne (hsite.trans hleads.1.site.symm)
    refine ⟨t :: l, by rw [List.length_cons, hlength], List.nodup_cons.2 ⟨hnew, hnodup⟩, fun u hu => ?_⟩
    rcases List.mem_cons.1 hu with rfl | hu
    · exact ⟨Insn.mem_callTargets.2 ⟨i, hi, hf, by simp [ht]⟩, j, e, r, .copied hj, hx, hleads.1.site⟩
    · obtain ⟨htarget, j', e', r', hu, hx', hsite⟩ := hl u hu
      exact ⟨htarget, j', e', r', .nested hj hu, hx', hsite⟩

/-- Calls nest no deeper than there are indices to which they lead. -/
theorem depth_le (hd : AtDepth home k b) (hb : b < s.graph.blocks.size) :
    k ≤ (Insn.callTargets st.survey.insns).card := by
  obtain ⟨l, rfl, hnodup, hl⟩ := h.exists_entries hd hb
  rw [← List.toFinset_card_of_nodup hnodup]
  exact Finset.card_le_card fun t ht => (hl t (List.mem_toFinset.1 ht)).1

/-! ## Counting blocks -/

theorem exists_atDepth (hb : b < s.graph.blocks.size) : ∃ k, AtDepth home k b := by
  induction b using Nat.strongRecOn with
  | ind b ih =>
    cases hj : home b with
    | none => exact ⟨0, .root hj⟩
    | some j =>
      have hlt := h.base.laid.lt_of_home b j hb hj
      obtain ⟨k, hk⟩ := ih j hlt (Nat.lt_trans hlt hb)
      exact ⟨k + 1, .copy hj hk⟩

/-- Blocks in copies of the same depth are told apart by the starts of the blocks around them. -/
theorem card_le : ∀ (k : Nat) (blocks : Finset BlockId),
    (∀ b ∈ blocks, (∃ bci, s.graph.LiesAt home (home b) bci b) ∧ AtDepth home k b) →
    blocks.card ≤ st.survey.starts.length ^ (k + 1)
  | 0, blocks, hblocks => by
    have hstart : ∀ b ∈ blocks, (s.graph.block b).site.index ∈ st.survey.starts.toFinset := by
      intro b hb
      obtain ⟨⟨bci, hlies⟩, -⟩ := hblocks b hb
      rw [hlies.site, List.mem_toFinset]
      exact h.base.laid.mem_starts hlies
    have hinj : Set.InjOn (fun b => (s.graph.block b).site.index) blocks := by
      intro b hb c hc he
      obtain ⟨⟨i, hb⟩, hdb⟩ := hblocks b hb
      obtain ⟨⟨i', hc⟩, hdc⟩ := hblocks c hc
      cases hdb with
      | root hhb =>
      cases hdc with
      | root hhc =>
      simp only [hb.site, hc.site, Site.index] at he
      subst he
      exact h.base.laid.unique (hhb ▸ hb) (hhc ▸ hc)
    calc blocks.card ≤ st.survey.starts.toFinset.card := Finset.card_le_card_of_injOn _ hstart hinj
      _ ≤ st.survey.starts.length := List.toFinset_card_le _
      _ = st.survey.starts.length ^ (0 + 1) := (Nat.pow_one _).symm
  | k + 1, blocks, hblocks => by
    let calls := blocks.image fun b => (home b).getD 0
    have hcalls := card_le k calls fun j hj => by
      obtain ⟨b, hb, rfl⟩ := Finset.mem_image.1 hj
      obtain ⟨⟨bci, hlies⟩, hd⟩ := hblocks b hb
      cases hd with
      | @copy _ _ j hj hd =>
      obtain ⟨e, r, hx⟩ := h.exists_call hlies.lt hj
      rw [hj]
      cases h.facts.settled j (by rw [hx]; rfl) with
      | code hlies => exact ⟨⟨_, hlies⟩, hd⟩
      | unlock _ _ _ hx' => rw [hx] at hx'; cases hx'
    have hpair : ∀ b ∈ blocks, ((home b).getD 0, (s.graph.block b).site.index) ∈
        calls ×ˢ st.survey.starts.toFinset := by
      intro b hb
      obtain ⟨⟨bci, hlies⟩, -⟩ := hblocks b hb
      rw [Finset.mem_product, hlies.site, List.mem_toFinset]
      exact ⟨Finset.mem_image_of_mem _ hb, h.base.laid.mem_starts hlies⟩
    have hinj : Set.InjOn (fun b => ((home b).getD 0, (s.graph.block b).site.index)) blocks := by
      intro b hb c hc he
      obtain ⟨⟨i, hb⟩, hdb⟩ := hblocks b hb
      obtain ⟨⟨i', hc⟩, hdc⟩ := hblocks c hc
      cases hdb with
      | copy hjb _ =>
      cases hdc with
      | copy hjc _ =>
      simp only [hjb, hjc, Option.getD_some, hb.site, hc.site, Site.index, Prod.mk.injEq] at he
      obtain ⟨rfl, rfl⟩ := he
      exact h.base.laid.unique (hjb ▸ hb) (hjc ▸ hc)
    calc blocks.card ≤ (calls ×ˢ st.survey.starts.toFinset).card :=
          Finset.card_le_card_of_injOn _ hpair hinj
      _ = calls.card * st.survey.starts.toFinset.card := Finset.card_product _ _
      _ ≤ st.survey.starts.length ^ (k + 1) * st.survey.starts.length :=
          Nat.mul_le_mul hcalls (List.toFinset_card_le _)
      _ = st.survey.starts.length ^ (k + 1 + 1) := (Nat.pow_succ ..).symm

/-- A graph has the block that unlocks at most, and in copies of each depth so many blocks. -/
theorem size_le : s.graph.blocks.size ≤
    blockBound st.survey.starts.length (Insn.callTargets st.survey.insns).card := by
  classical
  let n := st.survey.starts.length
  let depth := (Insn.callTargets st.survey.insns).card
  let all := Finset.range s.graph.blocks.size
  let unlocks := all.filter fun b => (s.graph.block b).site = .unlock
  let level := fun k => all.filter fun b => (s.graph.block b).site ≠ .unlock ∧ AtDepth home k b
  have hunlocks : unlocks.card ≤ 1 := by
    refine Finset.card_le_one.2 fun b hb c hc => ?_
    obtain ⟨hb, hsb⟩ := Finset.mem_filter.1 hb
    obtain ⟨hc, hsc⟩ := Finset.mem_filter.1 hc
    exact h.base.laid.unlock_unique h.base.laid (Finset.mem_range.1 hb) (Finset.mem_range.1 hc) hsb hsc
  have hlevel : ∀ k, (level k).card ≤ n ^ (k + 1) := by
    refine fun k => h.card_le k _ fun b hb => ?_
    obtain ⟨hb, hsite, hd⟩ := Finset.mem_filter.1 hb
    refine ⟨?_, hd⟩
    cases hs : (s.graph.block b).site with
    | unlock => exact absurd hs hsite
    | code bci => exact ⟨bci, Finset.mem_range.1 hb, rfl, hs⟩
  have hcover : all ⊆ unlocks ∪ (Finset.range (depth + 1)).biUnion level := by
    intro b hb
    by_cases hs : (s.graph.block b).site = .unlock
    · exact Finset.mem_union_left _ (Finset.mem_filter.2 ⟨hb, hs⟩)
    · obtain ⟨k, hd⟩ := h.exists_atDepth (Finset.mem_range.1 hb)
      have hk := h.depth_le hd (Finset.mem_range.1 hb)
      refine Finset.mem_union_right _ (Finset.mem_biUnion.2 ⟨k, ?_, Finset.mem_filter.2 ⟨hb, hs, hd⟩⟩)
      exact Finset.mem_range.2 (Nat.lt_succ_of_le hk)
  calc s.graph.blocks.size = all.card := (Finset.card_range _).symm
    _ ≤ (unlocks ∪ (Finset.range (depth + 1)).biUnion level).card := Finset.card_le_card hcover
    _ ≤ unlocks.card + ((Finset.range (depth + 1)).biUnion level).card := Finset.card_union_le _ _
    _ ≤ 1 + ∑ k ∈ Finset.range (depth + 1), (level k).card :=
        Nat.add_le_add hunlocks Finset.card_biUnion_le
    _ ≤ 1 + ∑ k ∈ Finset.range (depth + 1), n ^ (k + 1) :=
        Nat.add_le_add_left (Finset.sum_le_sum fun k _ => hlevel k) 1
    _ = blockBound n depth := by
        rw [blockBound, Finset.sum_range_succ' (fun k => n ^ k), Nat.pow_zero, Nat.add_comm]

end Core
end BlockGraph
