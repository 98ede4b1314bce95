import BlockGraph.Proofs.Catching
import BlockGraph.Proofs.Insertion.Preparation
import BlockGraph.Proofs.Insertion.Steps
import BlockGraph.Proofs.Limits

/-!
# What synchronizing a method adds

The graph of a synchronized method is that of the method without the flag and one more block, which
unlocks and throws again. It comes behind the blocks of the layout, so the copies that are made for calls
are numbered one higher. It catches the exceptions of every parsed block, it has the highest depth-first
number, and it is parsed last, whatever the method does. Main statement: `build_synchronized`.
-/

namespace BlockGraph

open Assembly

variable {st : Setting} {home : Homes} {g g' : Graph} {size : Nat} {n : BlockId}

/-! ## The graph of the synchronized method -/

/-- Graph `g'` is `g` with block `n` put in, which unlocks and throws again. It is parsed last, it catches what
every other parsed block throws, and nothing else is different but the names of blocks. -/
structure Graph.AddsUnlock (n : BlockId) (g g' : Graph) : Prop where
  size_eq : g'.blocks.size = g.blocks.size + 1
  start : g'.start = g.start.map (shift n)
  order : g'.order = (g.order.map (shift n)).push n
  instrs : g'.instrs =
    ((g.instrs.map (Instr.shift n)).push ⟨.unlock, .monitorexit, n⟩).push ⟨.unlock, .athrow, n⟩
  block : ∀ b, (g'.block (shift n b)).without n = (g.block b).shift n
  unlock : g'.block n = { Block.unlocking n true with
    visited := true
    instrs := #[g.instrs.size, g.instrs.size + 1]
    exit := some .throw }
  body : g'.body n = [⟨.unlock, .monitorexit, n⟩, ⟨.unlock, .athrow, n⟩]
  number : ∀ b, b < g'.blocks.size → b ≠ n → (g'.block b).number < n
  caught : ∀ b, b ≠ n → (g'.block b).visited = true → n ∈ (g'.block b).handlers

namespace Finished

/-- The block that unlocks is parsed whatever the method does. -/
theorem not_gains {queued : Bool} (h : Finished st home g') : ¬ g.Gains size n queued g' := by
  intro hgains
  obtain ⟨a, hstart, hleads⟩ := h.facts.start
  have hv : (g'.block a).visited = true := (h.queued_iff a).1 hleads.2
  have hunlock : (g'.block n).site = .unlock := by rw [hgains.unlock]; rfl
  have hmem := h.mem_handlers_of_unlock hgains.lt_size hunlock hv (by rw [hleads.1.site]; nofun)
  have hvn := (h.catches_of_mem hv hmem).2.1
  rw [hgains.unlock] at hvn
  cases hvn

/-- Once it is parsed, all is as it should be. -/
theorem addsUnlock (h : Finished st home (g'.parseUnlock n)) (hgains : g.Gains size n true g') :
    g.AddsUnlock n (g'.parseUnlock n) where
  size_eq := Graph.size_parseUnlock.trans hgains.size_eq
  start := hgains.start
  order := congrArg (·.push n) hgains.order
  instrs := by rw [Graph.instrs_parseUnlock, hgains.instrs]
  block b := by rw [Graph.block_parseUnlock_ne (shift_ne n b)]; exact hgains.block b
  unlock := by
    rw [Graph.block_parseUnlock_self hgains.lt_size, hgains.unlock, hgains.instrs, Array.size_map]
    rfl
  body := Graph.body_parseUnlock hgains.lt_size (by rw [hgains.unlock]; rfl)
  number b _ hb := by
    obtain ⟨c, rfl⟩ := exists_shift hb
    rw [Graph.block_parseUnlock_ne hb, hgains.number_eq]
    exact hgains.number c
  caught b hb hv := by
    have hlt : n < (g'.parseUnlock n).blocks.size := by rw [Graph.size_parseUnlock]; exact hgains.lt_size
    have hunlock : ((g'.parseUnlock n).block n).site = .unlock := by
      rw [Graph.block_parseUnlock_self hgains.lt_size, hgains.unlock]
      rfl
    refine h.mem_handlers_of_unlock hlt hunlock hv fun hsite => hb ?_
    exact h.laid.unlock_unique h.laid (Graph.lt_of_visited hv) hlt hsite hunlock

end Finished

/-- Under one limit a method and the synchronized one fail alike, and if the limit allows one more block than the
graph of the one has, the graph of the other is that graph with the block that unlocks. -/
theorem build_gains (m : Method) (pool : ConstantPool) (o : Options) {flags : AccessFlags}
    (hsync : m.access.isSynchronized = false) (hflags : flags.isSynchronized = true) :
    (∀ fault, build m pool o = .error fault → build { m with access := flags } pool o = .error fault) ∧
    ∀ g, build m pool o = .ok g → ∃ starts, layout m.code m.handlers = .ok starts ∧
      (g.order.size < o.blockLimit →
        ∃ g', build { m with access := flags } pool o = .ok g' ∧ g.AddsUnlock starts.length g') := by
  have hpairs := prepare_gains m pool o hsync hflags
  cases hprepare : prepare m pool o {} with
  | error fault s =>
    obtain ⟨s', hprepare'⟩ := hpairs.of_error hprepare
    rw [build_of_prepare_error hprepare, build_of_prepare_error hprepare']
    exact ⟨fun _ h => h, nofun⟩
  | ok _ s =>
    obtain ⟨_, s', hprepare', starts, hlayout, hs⟩ := hpairs.of_ok hprepare
    obtain ⟨st, home, rfl, hinv, -⟩ := prepare_spec.of_ok hprepare
    obtain ⟨r, hruns⟩ := exists_runs hprepare
    obtain ⟨hfails, hends⟩ := hinv.runs_gains hruns hs { st.method with access := flags }
    rw [build_eq_of_runs hprepare hruns]
    refine ⟨fun fault h => ?_, fun g h => ⟨starts, hlayout, fun hlimit => ?_⟩⟩
    · cases r with
      | ok _ t => cases h
      | error fault t =>
        cases h
        obtain ⟨t', hruns'⟩ := hfails fault t rfl
        exact build_eq_of_runs hprepare' hruns'
    · cases r with
      | error fault t => cases h
      | ok _ t =>
        cases h
        rcases hends t rfl with ⟨queued', t', hruns', hgains⟩ | hlast
        · obtain ⟨st', home', -, hfinished⟩ := finished_of_build (build_eq_of_runs hprepare' hruns')
          exact absurd hgains hfinished.not_gains
        · obtain ⟨g', t', hgains, hruns', hgraph⟩ := hlast hlimit
          have hbuild := build_eq_of_runs hprepare' hruns'
          obtain ⟨st', home', -, hfinished⟩ := finished_of_build hbuild
          rw [hgraph] at hfinished
          exact ⟨_, hgraph ▸ hbuild, hfinished.addsUnlock hgains⟩

theorem AccessFlags.isSynchronized_withSynchronized (flags : AccessFlags) :
    flags.withSynchronized.isSynchronized = true := by
  rw [isSynchronized, withSynchronized, Nat.testBit_or, Bool.or_eq_true]
  exact .inr (by decide)

/-- The same method with the flag `SYNCHRONIZED`. -/
def Method.synchronized (m : Method) : Method := { m with access := m.access.withSynchronized }

/-- **Synchronizing a method only adds the block that unlocks.** A method that is refused is refused for the same
reason when it is synchronized. If its graph is built, then under every limit that allows one more block
the graph of the synchronized method is that graph with one more block, which is put in behind the blocks of
the layout: it has the highest depth-first number, it is parsed last, and every other parsed block has it
among its handlers. -/
theorem build_synchronized (m : Method) (pool : ConstantPool) (o : Options)
    (hsync : m.access.isSynchronized = false) :
    (∀ limit fault, build m pool { o with blockLimit := limit } = .error fault →
      build m.synchronized pool { o with blockLimit := limit } = .error fault) ∧
    ∀ limit g, build m pool { o with blockLimit := limit } = .ok g →
      ∃ starts, layout m.code m.handlers = .ok starts ∧ ∀ limit', g.order.size < limit' →
        ∃ g', build m.synchronized pool { o with blockLimit := limit' } = .ok g' ∧
          g.AddsUnlock starts.length g' := by
  have hflag := AccessFlags.isSynchronized_withSynchronized m.access
  refine ⟨fun limit fault h => ?_, fun limit g h => ?_⟩
  · exact (build_gains m pool { o with blockLimit := limit } hsync hflag).1 fault h
  · obtain ⟨starts, hlayout, -⟩ := (build_gains m pool { o with blockLimit := limit } hsync hflag).2 g h
    refine ⟨starts, hlayout, fun limit' hlt => ?_⟩
    have hbuild := build_of_order_size_le (Nat.le_of_lt hlt) h
    obtain ⟨starts', hlayout', hgains⟩ :=
      (build_gains m pool { o with blockLimit := limit' } hsync hflag).2 g hbuild
    cases hlayout.symm.trans hlayout'
    exact hgains hlt

/-- The method that calls its subroutine twice gets a block behind the four of its layout, so the copies of the
subroutine are moved. Six blocks are parsed then, and four are too few for both methods. -/
theorem callTwice_synchronized : callTwice.access.isSynchronized = false ∧
    build callTwice.synchronized {} { blockLimit := 4 } = .error (.bailout (.tooManyBlocks 4)) ∧
    ∃ g g', build callTwice {} {} = .ok g ∧ (g.block 4).exit = some (.ret 1) ∧
      build callTwice.synchronized {} { blockLimit := 6 } = .ok g' ∧ g.AddsUnlock 4 g' ∧
      (g'.block 5).exit = some (.ret 1) := by
  obtain ⟨g, hbuild, hgraph⟩ := exists_build_of_any callTwice {} {}
    (fun g => g.order.size = 5 ∧ (g.block 4).exit = some (.ret 1)) (by decide +kernel)
  obtain ⟨hsize, hexit⟩ := of_decide_eq_true hgraph
  have hlength : (layout callTwice.code callTwice.handlers).toOption.map List.length = some 4 := by
    decide +kernel
  have hlimit : build callTwice {} { blockLimit := 4 } = .error (.bailout (.tooManyBlocks 4)) := by
    rcases build_eq_or_of_le callTwice {} {} (show 4 ≤ 10000 by decide) with heq | ⟨hlimit, -⟩
    · have hle := order_size_le_of_build (heq.trans hbuild)
      rw [hsize] at hle
      exact absurd hle (by decide)
    · exact hlimit
  obtain ⟨hfails, hends⟩ := build_synchronized callTwice {} {} (by decide)
  obtain ⟨starts, hlayout, hadds⟩ := hends 10000 g hbuild
  rw [hlayout] at hlength
  have hstarts : starts.length = 4 := Option.some.inj hlength
  rw [hstarts] at hadds
  obtain ⟨g', hbuild', hadds⟩ := hadds 6 (by rw [hsize]; decide)
  have hexit' : (g'.block 5).exit = ((g.block 4).exit).map (Exit.shift 4) := congrArg Block.exit (hadds.block 4)
  exact ⟨by decide, hfails 4 _ hlimit, g, g', hbuild, hexit, hbuild', hadds, by rw [hexit', hexit]; rfl⟩

end BlockGraph
