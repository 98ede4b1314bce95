import BlockGraph.Proofs.Assembly.Finished

/-!
# Copies of subroutines

Each call of a subroutine has blocks of its own for it: what control reaches from the first of them
without entering or leaving a subroutine comes back to this call only, is shared with no other copy,
and stands right after the call in the order of parsing. Only the block that unlocks belongs to
all copies. Main statement: `copies_private`.
-/

namespace BlockGraph

variable {m : Method} {pool : ConstantPool} {o : Options} {st : Setting} {home : Homes} {g : Graph}
  {a b e j k r t : BlockId}

/-- Control goes from block `a` to block `b` without entering or leaving a subroutine: by a jump, a
branch or a switch, to a handler, or from a call to where that came back to. -/
inductive Graph.Stays (g : Graph) (a b : BlockId) : Prop where
  | jump {x : Exit} : (g.block a).exit = some x → b ∈ x.jumps → g.Stays a b
  | handler : b ∈ (g.block a).handlers → g.Stays a b
  | back {e : BlockId} : (g.block a).exit = some (.jsr e b) → (g.block b).visited = true → g.Stays a b

/-- Control goes from block `a` to block `b`, maybe into a subroutine. -/
inductive Graph.Descends (g : Graph) (a b : BlockId) : Prop where
  | stays : g.Stays a b → g.Descends a b
  | enters {r : BlockId} : (g.block a).exit = some (.jsr b r) → g.Descends a b

/-- The blocks that control reaches inside the copy where it is. -/
abbrev Graph.Reaches (g : Graph) : BlockId → BlockId → Prop := Relation.ReflTransGen g.Stays

/-- The blocks that control reaches inside the copy where it is and those nested in it. -/
abbrev Graph.ReachesBelow (g : Graph) : BlockId → BlockId → Prop := Relation.ReflTransGen g.Descends

/-! ## Where control may go from a closed block -/

/-- A jump, a branch or a switch leads to a target of the last instruction or behind it. -/
theorem ExitFits.exists_leads {i : Insn} {x : Exit} (h : ExitFits home g a i x) (hb : b ∈ x.jumps) :
    ∃ t, (t ∈ i.targets ∨ t = i.next) ∧ Leads home g (home a) t b := by
  cases h with
  | jump _ ht hd =>
    cases List.mem_singleton.1 hb
    exact ⟨_, .inl (by simp [ht]), hd⟩
  | falls _ hd =>
    cases List.mem_singleton.1 hb
    exact ⟨_, .inr rfl, hd⟩
  | branch _ ht hd hd' =>
    rcases List.mem_cons.1 hb with rfl | hb
    · exact ⟨_, .inl (by simp [ht]), hd⟩
    · cases List.mem_singleton.1 hb
      exact ⟨_, .inr rfl, hd'⟩
  | switch _ ht hd hds =>
    rcases List.mem_cons.1 (List.mem_eraseDups.1 hb) with rfl | hb
    · exact ⟨_, .inl (by simp [ht]), hd⟩
    · obtain ⟨t, hmem, hleads⟩ := (exists_of_forall₂ hds).2 b hb
      exact ⟨t, .inl (by simp [ht, hmem]), hleads⟩
  | call | ret | leave | throw => cases hb

theorem ExitFits.jumps {i : Insn} {x : Exit} (h : ExitFits home g a i x) (hb : b ∈ x.jumps) :
    (g.block b).queued = true ∧ Near home g a b := by
  obtain ⟨t, -, hleads⟩ := h.exists_leads hb
  exact ⟨hleads.2, hleads.near⟩

theorem Settled.stays (h : Settled st home g a) (hab : g.Stays a b)
    (hqueued : ∀ b, (g.block b).queued = true → (g.block b).visited = true) :
    (g.block b).visited = true ∧ Near home g a b ∧ (g.block a).site ≠ .unlock := by
  cases h with
  | code hlies _ _ hcaught hx hfits =>
    have hsite : (g.block a).site ≠ .unlock := by rw [hlies.site]; nofun
    cases hab with
    | jump hx' hb =>
      rw [hx] at hx'; cases hx'
      obtain ⟨hq, hnear⟩ := hfits.jumps hb
      exact ⟨hqueued b hq, hnear, hsite⟩
    | handler hb =>
      obtain ⟨hq, _, _, _, _, _, hcatches⟩ := hcaught.sound b hb
      exact ⟨hqueued b hq, hcatches.near, hsite⟩
    | back hx' hv =>
      rw [hx] at hx'; cases hx'
      cases hfits with
      | call _ _ _ hr => exact ⟨hv, .inl ⟨hr.home_eq, _, hr.site⟩, hsite⟩
  | unlock _ _ _ hx hhandlers =>
    -- control never goes on from the block that unlocks
    cases hab with
    | jump hx' hb => rw [hx] at hx'; cases hx'; cases hb
    | handler hb => rw [hhandlers] at hb; cases hb
    | back hx' => rw [hx] at hx'; cases hx'

namespace Finished

variable (h : Finished st home g)
include h

theorem visited_of_stays (hab : g.Stays a b) : (g.block a).visited = true := by
  refine Bool.not_eq_false _ ▸ fun hv => ?_
  obtain ⟨hexit, hhandlers⟩ := h.fresh a hv
  cases hab with
  | jump hx => rw [hexit] at hx; cases hx
  | handler hb => rw [hhandlers] at hb; cases hb
  | back hx => rw [hexit] at hx; cases hx

theorem stays (hab : g.Stays a b) :
    (g.block b).visited = true ∧ Near home g a b ∧ (g.block a).site ≠ .unlock :=
  (h.settled (h.visited_of_stays hab)).stays hab fun b => (h.queued_iff b).1

theorem stays_of_beside (hab : g.Beside a b) : g.Stays a b := by
  rcases hab with hb | hb | ⟨e, hx, hq⟩
  · cases hx : (g.block a).exit with
    | none => rw [hx] at hb; cases hb
    | some x => rw [hx] at hb; exact .jump hx hb
  · exact .handler hb
  · exact .back hx ((h.queued_iff b).1 hq)

/-! ## Blocks that are reached -/

/-- Control stays in the copy where it is, but for the block that unlocks. -/
theorem near_of_reaches (hab : g.Reaches a b) (ha : ∃ bci, (g.block a).site = .code bci)
    (hv : (g.block a).visited = true) : (g.block b).visited = true ∧ Near home g a b := by
  induction hab with
  | refl => exact ⟨hv, .inl ⟨rfl, ha⟩⟩
  | tail _ hbc ih =>
    obtain ⟨hvisited, hnear, hsite⟩ := h.stays hbc
    refine ⟨hvisited, ?_⟩
    rcases ih.2 with ⟨hhome, -⟩ | hunlock
    · exact hnear.imp_left fun hc => ⟨hc.1.trans hhome, hc.2⟩
    · exact absurd hunlock hsite

/-- What control reaches from the first block of a copy lies in that copy. -/
theorem home_of_reaches (hx : (g.block j).exit = some (.jsr e r)) (hb : g.Reaches e b) :
    (g.block b).visited = true ∧ (home b = some j ∨ (g.block b).site = .unlock) := by
  obtain ⟨hv, hhome, hsite⟩ := h.call hx
  obtain ⟨hvisited, hnear⟩ := h.near_of_reaches hb hsite hv
  exact ⟨hvisited, hnear.imp_left fun hb => hb.1.trans hhome⟩

theorem home_of_reaches_start (hs : g.start = some a) (hb : g.Reaches a b) :
    home b = none ∨ (g.block b).site = .unlock := by
  obtain ⟨a', ha', hleads⟩ := h.facts.start
  rw [hs] at ha'; cases ha'
  obtain ⟨-, hnear⟩ := h.near_of_reaches hb ⟨_, hleads.1.site⟩ ((h.queued_iff a).1 hleads.2)
  exact hnear.imp_left fun hb => hb.1.trans hleads.1.home_eq

/-- A `ret` in the copy of a call comes back to that call. -/
theorem ret_eq (hx : (g.block j).exit = some (.jsr e r)) (hb : g.Reaches e b)
    (hret : (g.block b).exit = some (.ret t)) : t = r := by
  obtain ⟨hv, hhome⟩ := h.home_of_reaches hx hb
  obtain ⟨k, e', hk, hx', -⟩ := (h.settled hv).ret hret
  have hhome : home b = some j := hhome.resolve_right (h.site_ne_unlock hret (by simp))
  rw [hhome] at hk
  cases hk
  rw [hx] at hx'
  cases hx'; rfl

/-- What control reaches below the first block of a copy lies in that copy or in one nested in it. -/
theorem under_of_reachesBelow (hx : (g.block j).exit = some (.jsr e r)) (hb : g.ReachesBelow e b) :
    (g.block b).visited = true ∧ (Under home j b ∨ (g.block b).site = .unlock) := by
  induction hb with
  | refl =>
    obtain ⟨hv, hhome, -⟩ := h.call hx
    exact ⟨hv, .inl (.copied hhome)⟩
  | tail _ hbc ih =>
    cases hbc with
    | stays hbc =>
      obtain ⟨hv, hnear, hsite⟩ := h.stays hbc
      have hunder := ih.2.resolve_right hsite
      refine ⟨hv, hnear.imp_left fun hc => ?_⟩
      cases hunder with
      | copied hhome => exact .copied (hc.1.trans hhome)
      | nested hhome hk => exact .nested (hc.1.trans hhome) hk
    | enters hcall =>
      obtain ⟨hv, hhome, -⟩ := h.call hcall
      have hunder := ih.2.resolve_right (h.site_ne_unlock hcall (by simp))
      exact ⟨hv, .inl (.nested hhome hunder)⟩

/-- A block of a copy is reached from the first one. -/
theorem reaches_of_home (hx : (g.block j).exit = some (.jsr e r)) (hv : (g.block b).visited = true)
    (hb : home b = some j) : g.Reaches e b := by
  have hsite : (g.block b).site ≠ .unlock := by
    intro hsite
    rw [(h.laid.unlock b (Graph.lt_of_visited hv) hsite).1] at hb; cases hb
  obtain ⟨a, ha, hreach⟩ := h.facts.origin b ((h.queued_iff b).2 hv) hsite
  rw [hb] at ha
  obtain ⟨r', hx'⟩ := ha
  rw [hx] at hx'; cases hx'
  exact Relation.ReflTransGen.mono (fun c d hcd => h.stays_of_beside hcd) _ _ hreach

theorem reachesBelow_of_under (hx : (g.block j).exit = some (.jsr e r)) (hu : Under home j b)
    (hv : (g.block b).visited = true) : g.ReachesBelow e b := by
  have hinner : ∀ {k e r b}, (g.block k).exit = some (.jsr e r) → home b = some k →
      (g.block b).visited = true → g.ReachesBelow e b := fun hx hb hv =>
    Relation.ReflTransGen.mono (fun _ _ hcd => .stays hcd) _ _ (h.reaches_of_home hx hv hb)
  induction hu with
  | copied hb => exact hinner hx hb hv
  | @nested b k hb _ ih =>
    obtain ⟨e', r', hk⟩ := h.called b k (Graph.lt_of_visited hv) hb
    exact ((ih (h.visited_of_exit hk)).tail (.enters hk)).trans (hinner hk hb hv)

/-- The blocks of a copy and of those nested in it stand together, right after the call. -/
theorem segment (hx : (g.block j).exit = some (.jsr e r)) :
    ∃ pre seg post, g.order.toList = pre ++ j :: (seg ++ post) ∧ seg.head? = some e ∧
      ∀ b, b ∈ seg ↔ g.ReachesBelow e b ∧ (g.block b).flags.defaultHandler = false := by
  obtain ⟨pre, seg, post, horder, hseg, hrest, -, hhead⟩ := h.facts.segments j e r hx
  obtain ⟨hve, hhome, -⟩ := h.call hx
  -- a parsed block of these copies is not one of the others
  have hmem : ∀ b, (g.block b).visited = true → Under home j b → b ∈ seg := by
    intro b hv hu
    have hb := (h.mem_order b).2 hv
    rw [horder] at hb
    by_contra hnot
    exact hrest b (by simpa [hnot] using hb) hu
  refine ⟨pre, seg, post, horder, hhead.resolve_left fun hnil => ?_, fun b => ⟨fun hb => ?_, ?_⟩⟩
  · have he := hmem e hve (.copied hhome)
    rw [hnil] at he; cases he
  · have hv := (h.mem_order b).1 (by rw [horder]; simp [hb])
    have hu := hseg b hb
    refine ⟨h.reachesBelow_of_under hx hu hv, Bool.eq_false_iff.2 fun hflag => ?_⟩
    have hnone := (h.laid.unlock b (Graph.lt_of_visited hv) ((h.defaultHandler_iff hv).1 hflag)).1
    cases hu with
    | copied hb | nested hb => rw [hnone] at hb; cases hb
  · rintro ⟨hb, hflag⟩
    obtain ⟨hv, hu⟩ := h.under_of_reachesBelow hx hb
    refine hmem b hv (hu.resolve_right fun hsite => ?_)
    rw [(h.defaultHandler_iff hv).2 hsite] at hflag; cases hflag

end Finished

/-- **Copies are private.** From the first block `e` of the copy that was made for the call in block
`j`, control comes back to where this call comes back to. It reaches no block that it also reaches from
the beginning or from the first block of another copy, except for the block that unlocks. In the order
of parsing the copy, with those nested in it, stands together right after the call, `e` first. -/
theorem copies_private (h : build m pool o = .ok g) (hexit : (g.block j).exit = some (.jsr e r)) :
    (∀ b t, g.Reaches e b → (g.block b).exit = some (.ret t) → t = r) ∧
    (∀ b, g.Reaches e b → ((∃ s, g.start = some s ∧ g.Reaches s b) ∨
        ∃ k e' r', k ≠ j ∧ (g.block k).exit = some (.jsr e' r') ∧ g.Reaches e' b) →
      (g.block b).flags.defaultHandler = true) ∧
    g.order.toList.Nodup ∧
    ∃ pre seg post, g.order.toList = pre ++ j :: (seg ++ post) ∧ seg.head? = some e ∧
      ∀ b, b ∈ seg ↔ g.ReachesBelow e b ∧ (g.block b).flags.defaultHandler = false := by
  obtain ⟨st, home, -, hfinished⟩ := finished_of_build h
  refine ⟨fun b t hb hret => hfinished.ret_eq hexit hb hret, fun b hb hother => ?_, hfinished.nodup,
    hfinished.segment hexit⟩
  obtain ⟨hv, hhome⟩ := hfinished.home_of_reaches hexit hb
  refine (hfinished.defaultHandler_iff hv).2 (hhome.resolve_left fun hhome => ?_)
  have hsite : (g.block b).site ≠ .unlock := by
    intro hsite
    rw [(hfinished.laid.unlock b (Graph.lt_of_visited hv) hsite).1] at hhome; cases hhome
  rcases hother with ⟨s, hs, hreach⟩ | ⟨k, e', r', hk, hexit', hreach⟩
  · have hnone := (hfinished.home_of_reaches_start hs hreach).resolve_right hsite
    rw [hhome] at hnone; cases hnone
  · have hsome := (hfinished.home_of_reaches hexit' hreach).2.resolve_right hsite
    rw [hhome] at hsome
    cases hsome
    exact hk rfl

/-- A method that calls its subroutine twice. -/
def callTwice : Method where
  name := "twice"
  code := #[0xa8, 0, 7, 0xa8, 0, 4, 0xb1, 0x4b, 0xa9, 0]

theorem callTwice_private : ∃ g, build callTwice {} {} = .ok g ∧
    (g.block 0).exit = some (.jsr 4 1) ∧ (g.block 1).exit = some (.jsr 5 2) ∧
    ∀ b, g.Reaches 4 b → g.Reaches 5 b → (g.block b).flags.defaultHandler = true := by
  obtain ⟨g, hbuild, hexits⟩ := exists_build_of_any callTwice {} {}
    (fun g => (g.block 0).exit = some (.jsr 4 1) ∧ (g.block 1).exit = some (.jsr 5 2))
    (by decide +kernel)
  obtain ⟨hfirst, hsecond⟩ := of_decide_eq_true hexits
  exact ⟨g, hbuild, hfirst, hsecond, fun b hb hb' => (copies_private hbuild hfirst).2.1 b hb
    (.inr ⟨1, 5, 2, by decide, hsecond, hb'⟩)⟩

end BlockGraph
