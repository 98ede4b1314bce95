import BlockGraph.Proofs.Assembly.Preparation

/-!
# Finished graphs

When nothing is left to do, every block that was queued has been parsed and closed. `Finished` says
what is then known of the graph, without the contexts in which it was made. Main statement: a graph that
`build` answers is finished, and a fault is one of those by which a method may be turned down
(`assemble_spec`).
-/

namespace BlockGraph

open Assembly

variable {m : Method} {pool : ConstantPool} {o : Options} {st : Setting} {home : Homes} {g : Graph}
  {s : Assembly} {a b e j r : BlockId}

/-- All blocks of a graph that were queued have been parsed, and no subroutine is open. -/
structure Finished (st : Setting) (home : Homes) (g : Graph) : Prop where
  laid : Laid st home g
  range : g.InRange
  facts : Facts st home [] g
  queued_iff : ∀ b, (g.block b).queued = true ↔ (g.block b).visited = true
  closed : ∀ b, (g.block b).visited = true → (g.block b).exit.isSome = true
  fresh : ∀ b, (g.block b).visited = false → (g.block b).exit = none ∧ (g.block b).handlers = []
  called : ∀ b j, b < g.blocks.size → home b = some j → ∃ e r, (g.block j).exit = some (.jsr e r)
  mem_order : ∀ b, b ∈ g.order.toList ↔ (g.block b).visited = true
  nodup : g.order.toList.Nodup

/-! ## Blocks of a finished graph -/

/-- Where a block may be in the copy of another one: in the same copy, or it is the block that
unlocks. -/
def Near (home : Homes) (g : Graph) (a b : BlockId) : Prop :=
  (home b = home a ∧ ∃ bci, (g.block b).site = .code bci) ∨ (g.block b).site = .unlock

theorem Leads.near {bci : Nat} (h : Leads home g (home a) bci b) : Near home g a b :=
  .inl ⟨h.1.home_eq, bci, h.1.site⟩

theorem Catches.near {x : Handler} (h : Catches home g (home a) x b) : Near home g a b := by
  unfold Catches at h
  cases ht : x.target with
  | code bci => rw [ht] at h; exact .inl ⟨h.home_eq, bci, h.site⟩
  | unlock => rw [ht] at h; exact .inr h.2.2

namespace Finished

variable (h : Finished st home g)
include h

theorem visited_of_exit {x : Exit} (hx : (g.block b).exit = some x) : (g.block b).visited = true := by
  refine Bool.not_eq_false _ ▸ fun hv => ?_
  rw [(h.fresh b hv).1] at hx; cases hx

theorem settled (hb : (g.block b).visited = true) : Settled st home g b :=
  h.facts.settled b (h.closed b hb)

/-- The first block of a copy lies in it. -/
theorem call (hx : (g.block j).exit = some (.jsr e r)) :
    (g.block e).visited = true ∧ home e = some j ∧ ∃ bci, (g.block e).site = .code bci := by
  obtain ⟨_, _, _, bci, _, hleads, -⟩ := (h.settled (h.visited_of_exit hx)).call hx
  exact ⟨(h.queued_iff e).1 hleads.2, hleads.1.home_eq, bci, hleads.1.site⟩

/-- Only the block that unlocks holds no code, and from it control throws. -/
theorem exists_site {x : Exit} (hx : (g.block b).exit = some x) (hthrow : x ≠ .throw) :
    b < g.blocks.size ∧ ∃ bci, (g.block b).site = .code bci := by
  cases h.settled (h.visited_of_exit hx) with
  | code hlies => exact ⟨hlies.lt, _, hlies.site⟩
  | unlock _ _ _ hx' => rw [hx] at hx'; cases hx'; exact absurd rfl hthrow

theorem site_ne_unlock {x : Exit} (hx : (g.block b).exit = some x) (hthrow : x ≠ .throw) :
    (g.block b).site ≠ .unlock := by
  obtain ⟨-, bci, hcode⟩ := h.exists_site hx hthrow
  rw [hcode]
  nofun

theorem defaultHandler_iff (hb : (g.block b).visited = true) :
    (g.block b).flags.defaultHandler = true ↔ (g.block b).site = .unlock :=
  h.laid.defaultHandler_iff b (Graph.lt_of_visited hb)

end Finished

/-! ## What is built -/

theorem Setting.Done.finished (h : st.Done s) : ∃ home, Finished st home s.graph := by
  obtain ⟨home, hinv, hcurrent, hwaiting⟩ := h
  have hqueue := hinv.base.queue
  refine ⟨home, hinv.base.laid, hinv.base.range, hinv.facts, fun b => ⟨fun hb => ?_, hqueue.queued b⟩,
    fun b hb => ?_, fun b hb => ?_, fun b j hb hj => ?_, hqueue.mem_order, hqueue.nodup⟩
  · refine (hqueue.waiting b hb).resolve_right ?_
    rw [hwaiting]; exact List.not_mem_nil
  · refine (hqueue.closed b hb).resolve_right ?_
    rw [hcurrent]; nofun
  · exact ⟨(hqueue.fresh b hb).1, (hqueue.fresh b hb).2.2⟩
  · exact (hinv.base.called b j hb hj).resolve_left List.not_mem_nil

theorem Setting.Done.current_eq_none (h : st.Done s) : s.current = none := by
  obtain ⟨_, -, hcurrent, -⟩ := h
  exact hcurrent

/-- Taking the outermost context off the chain leaves the graph alone. -/
theorem Setting.Done.conclude_spec {bad : Fault → Assembly → Prop} (h : st.Done s) :
    Yields (conclude m) s (fun _ t => t.graph = s.graph) bad := by
  obtain ⟨home, hinv, -, -⟩ := h
  obtain ⟨c, outer, hchain⟩ := hinv.base.contexts.exists_cons
  unfold conclude
  rw [yields_bind, yields_innermost hchain, yields_bind, yields_get]
  rfl

/-- How building the graph of a method may fail: before the first step, or in some step. -/
def Method.Fails (m : Method) (fault : Fault) : Prop :=
  m.Rejects fault ∨ ∃ st : Setting, st.method = m ∧ st.Refuses fault

theorem assemble_spec : Yields (assemble m pool o) {}
    (fun _ t => ∃ st home, st.method = m ∧ Finished st home t.graph ∧
      st.unlocks.length = m.access.isSynchronized.toNat)
    (fun fault t => m.Fails fault ∧ t.Within) := by
  unfold assemble
  refine Yields.bind (prepare_spec.mono (fun _ _ h => h) fun _ _ h => ⟨.inl h.1, h.2⟩) ?_
  rintro - s ⟨st, home, hst, hinv, -, hunlocks, -⟩
  refine Yields.bind (hinv.run.mono (fun _ _ h => h) fun _ _ h => ⟨.inr ⟨st, hst, h.1⟩, h.2⟩) ?_
  intro _ t hdone
  obtain ⟨home', hfinished⟩ := hdone.finished
  exact hdone.conclude_spec.mono (fun _ u hu => ⟨st, home', hst, hu ▸ hfinished, hunlocks⟩) fun _ _ h => h

section

variable {good : Unit → Assembly → Prop} {bad : Fault → Assembly → Prop} {fault : Fault}

/-- What is known of the last assembly is known of the graph. -/
theorem exists_of_build_ok (h : Yields (assemble m pool o) {} good bad) (hbuild : build m pool o = .ok g) :
    ∃ t, t.graph = g ∧ good () t := by
  unfold build at hbuild
  cases hrun : (assemble m pool o).run {} with
  | ok a t => rw [hrun] at hbuild; cases hbuild; exact ⟨t, rfl, h.of_ok hrun⟩
  | error fault t => rw [hrun] at hbuild; cases hbuild

theorem exists_of_build_error (h : Yields (assemble m pool o) {} good bad)
    (hbuild : build m pool o = .error fault) : ∃ t, bad fault t := by
  unfold build at hbuild
  cases hrun : (assemble m pool o).run {} with
  | ok a t => rw [hrun] at hbuild; cases hbuild
  | error fault t => rw [hrun] at hbuild; cases hbuild; exact ⟨t, h.of_error hrun⟩

theorem exists_build_error (h : Yields (assemble m pool o) {} (fun _ _ => False) bad) :
    ∃ fault t, build m pool o = .error fault ∧ bad fault t := by
  cases hbuild : build m pool o with
  | ok g => exact (exists_of_build_ok h hbuild).elim fun _ ht => ht.2.elim
  | error fault =>
    obtain ⟨t, ht⟩ := exists_of_build_error h hbuild
    exact ⟨fault, t, rfl, ht⟩

end

/-- A graph that is built is finished. The method has a handler without code if it is synchronized. -/
theorem finished_and_unlocks_of_build (h : build m pool o = .ok g) : ∃ st home, st.method = m ∧
    Finished st home g ∧ st.unlocks.length = m.access.isSynchronized.toNat := by
  obtain ⟨t, rfl, hfinished⟩ := exists_of_build_ok assemble_spec h
  exact hfinished

theorem finished_of_build (h : build m pool o = .ok g) :
    ∃ st home, st.method = m ∧ Finished st home g := by
  obtain ⟨st, home, hst, hfinished, -⟩ := finished_and_unlocks_of_build h
  exact ⟨st, home, hst, hfinished⟩

theorem assemble_makes : Answers (assemble m pool o) {} fun _ t => t.graph.Making none [] := by
  unfold assemble
  refine Yields.bind (prepare_spec.mono (fun _ _ h => h) fun _ _ _ => trivial) ?_
  rintro - s ⟨st, home, -, hinv, hmakes, -⟩
  refine Yields.bind ((hinv.run.and (hinv.run_makes hmakes)).mono (fun _ _ h => h) fun _ _ _ => trivial) ?_
  rintro - t ⟨hdone, ht⟩
  refine hdone.conclude_spec.mono (fun _ u hu => ?_) fun _ _ h => h
  rw [hu]
  exact hdone.current_eq_none ▸ ht.2

/-- A graph that is built is made by the operations of a graph in the making, and all is closed. -/
theorem making_of_build (h : build m pool o = .ok g) : g.Making none [] := by
  obtain ⟨t, rfl, hmaking⟩ := exists_of_build_ok assemble_makes h
  exact hmaking

/-- A graph that passes a test has been built. -/
theorem exists_build_of_any (m : Method) (pool : ConstantPool) (o : Options) (p : Graph → Bool)
    (h : (build m pool o).toOption.any p = true) : ∃ g, build m pool o = .ok g ∧ p g = true := by
  cases hbuild : build m pool o with
  | ok g => rw [hbuild] at h; exact ⟨g, rfl, h⟩
  | error fault => rw [hbuild] at h; cases h

theorem fails_of_build {fault : Fault} (h : build m pool o = .error fault) : m.Fails fault := by
  obtain ⟨t, hfails, -⟩ := exists_of_build_error assemble_spec h
  exact hfails

end BlockGraph
