import BlockGraph.Proofs.Copies

/-!
# Where exceptions are caught

The handlers of a parsed block are those that protect one of its instructions, in the order in which the
instructions and then the handlers of the scope come, each once. A handler is the same block for all blocks of
a copy, and another one in each copy, but for the block that unlocks. So it does not matter that a
subroutine sees copies of the handlers only, that equal entries are merged, and that contexts without
handlers do not look for them. Main statement: `handlers_exact`.
-/

namespace BlockGraph

variable {m : Method} {pool : ConstantPool} {o : Options} {st : Setting} {home : Homes} {g : Graph}
  {a b d d' : BlockId} {call call' : Option BlockId}

/-- The handlers of a method's scope: its exception table, and then the handler that a synchronized method
is given. -/
def Method.scopeHandlers (m : Method) : List Handler :=
  m.handlers ++
    if m.access.isSynchronized then
      [{ first := 0, limit := m.code.size, target := .unlock, catchType := 0 }]
    else []

/-- A block is parsed in the copy of a subroutine that is made for a call, or outside of subroutines if there
is none: it is reached from the block with which that begins. -/
def Graph.InCopy (g : Graph) (call : Option BlockId) (b : BlockId) : Prop :=
  ∃ e, g.Entry call e ∧ g.Reaches e b

/-- The handlers that protect an instruction start where those of the method's scope do. -/
theorem Setting.targets_protecting (hunlocks : st.unlocks.length = st.method.access.isSynchronized.toNat)
    {bci : Nat} (hbci : bci < st.method.code.size) :
    (st.handlers.filter (·.protects bci)).map (·.target) =
      (st.method.scopeHandlers.filter (·.protects bci)).map (·.target) := by
  have htable : ((st.method.handlers.map st.table.resolve).filter (·.protects bci)).map (·.target) =
      (st.method.handlers.filter (·.protects bci)).map (·.target) := by
    rw [List.filter_map, List.map_map]
    rfl
  unfold Setting.handlers Method.scopeHandlers
  rw [List.filter_append, List.filter_append, List.map_append, List.map_append, htable]
  refine congrArg (_ ++ ·) ?_
  cases hsync : st.method.access.isSynchronized with
  | false =>
    rw [hsync] at hunlocks
    rw [List.length_eq_zero_iff.1 hunlocks]
    rfl
  | true =>
    rw [hsync] at hunlocks
    obtain ⟨x, hx⟩ := List.length_eq_one_iff.1 hunlocks
    obtain ⟨htarget, hprotects⟩ := st.unlock x (by rw [hx]; exact List.mem_singleton_self x)
    have hunlock : Handler.protects
        { first := 0, limit := st.method.code.size, target := .unlock, catchType := 0 } bci = true := by
      simp [Handler.protects, hbci]
    rw [hx, if_pos rfl]
    simp only [List.filter_cons, hprotects bci hbci, hunlock, if_true, List.map_cons, htarget, List.filter_nil]

namespace Finished

variable (h : Finished st home g)
include h

/-! ## Copies -/

/-- A block of a copy lies in it, unless it is the block that unlocks. -/
theorem home_of_inCopy (hb : g.InCopy call b) :
    (g.block b).visited = true ∧ (home b = call ∨ (g.block b).site = .unlock) := by
  obtain ⟨e, he, hreach⟩ := hb
  cases call with
  | none =>
    obtain ⟨s, hs, hleads⟩ := h.facts.start
    cases hs.symm.trans he
    exact ⟨(h.near_of_reaches hreach ⟨_, hleads.1.site⟩ ((h.queued_iff e).1 hleads.2)).1,
      h.home_of_reaches_start hs hreach⟩
  | some j =>
    obtain ⟨r, hx⟩ := he
    exact h.home_of_reaches hx hreach

/-- A parsed block with code belongs to one copy. -/
theorem inCopy_iff (hv : (g.block b).visited = true) (hsite : (g.block b).site ≠ .unlock) :
    g.InCopy call b ↔ call = home b := by
  refine ⟨fun hb => ((h.home_of_inCopy hb).2.resolve_right hsite).symm, fun hcall => ?_⟩
  obtain ⟨e, he, hreach⟩ := h.facts.origin b ((h.queued_iff b).2 hv) hsite
  exact ⟨e, hcall ▸ he, Relation.ReflTransGen.mono (fun _ _ hcd => h.stays_of_beside hcd) _ _ hreach⟩

/-! ## Handlers -/

/-- A handler of a block is one of the scope, as the copy of the block has it. -/
theorem catches_of_mem (hv : (g.block b).visited = true) (hd : d ∈ (g.block b).handlers) :
    (g.block b).site ≠ .unlock ∧ (g.block d).visited = true ∧
      ∃ x ∈ st.handlers, Catches home g (home b) x d := by
  cases h.settled hv with
  | code hlies _ _ hcaught =>
    obtain ⟨hq, x, hx, -, -, -, hcatches⟩ := hcaught.sound d hd
    exact ⟨by rw [hlies.site]; nofun, (h.queued_iff d).1 hq, x, hx, hcatches⟩
  | unlock _ _ _ _ hhandlers => rw [hhandlers] at hd; cases hd

/-- The block that unlocks is a handler of every other parsed block. -/
theorem mem_handlers_of_unlock (hd : d < g.blocks.size) (hunlock : (g.block d).site = .unlock)
    (hv : (g.block b).visited = true) (hsite : (g.block b).site ≠ .unlock) : d ∈ (g.block b).handlers := by
  obtain ⟨-, x, hx, htarget, hentry⟩ := h.laid.unlock d hd hunlock
  cases h.settled hv with
  | code _ hstretch _ hcaught =>
    have hprotects := st.unlock_protects hx htarget (Survey.bci_lt st.surveyed hstretch.mem)
    obtain ⟨e, he, hcatches⟩ := hcaught.complete x hx _ (by simp) hprotects
    rw [Catches, htarget] at hcatches
    cases hentry.symm.trans hcatches.1
    exact he
  | unlock _ hs => exact absurd hs hsite

/-- The handlers of a block start where those do that protect its instructions. -/
theorem handlers_sites (hunlocks : st.unlocks.length = st.method.access.isSynchronized.toNat)
    (hv : (g.block b).visited = true) (hsite : (g.block b).site ≠ .unlock) :
    (g.block b).handlers.map (fun d => (g.block d).site) = ((g.body b).flatMap fun k =>
      (st.method.scopeHandlers.filter (·.protects k.site.index)).map (·.target)).eraseDups := by
  cases h.settled hv with
  | code _ hstretch hbody hcaught =>
    rw [hcaught.listed, hbody]
    refine congrArg List.eraseDups ?_
    rw [Setting.caught, List.flatMap_map]
    refine List.flatMap_congr fun k hk => ?_
    exact st.targets_protecting hunlocks (Survey.bci_lt st.surveyed (hstretch.mem_insns k hk))
  | unlock _ hunlock => exact absurd hunlock hsite

/-- In one copy the index where a handler starts tells which block it is. -/
theorem handler_eq (ha : g.InCopy call a) (hb : g.InCopy call b) (hd : d ∈ (g.block a).handlers)
    (hd' : d' ∈ (g.block b).handlers) (hsite : (g.block d).site = (g.block d').site) : d = d' := by
  obtain ⟨hva, hhome⟩ := h.home_of_inCopy ha
  obtain ⟨hvb, hhome'⟩ := h.home_of_inCopy hb
  obtain ⟨hcode, -, x, hx, hcatches⟩ := h.catches_of_mem hva hd
  obtain ⟨hcode', -, y, hy, hcatches'⟩ := h.catches_of_mem hvb hd'
  rw [hhome.resolve_right hcode] at hcatches
  rw [hhome'.resolve_right hcode'] at hcatches'
  exact h.laid.catches_inj hx hy hcatches hcatches' hsite

/-- A handler with code lies in the copy of the blocks that it protects. -/
theorem home_of_handler (hb : g.InCopy call b) (hd : d ∈ (g.block b).handlers)
    (hflag : (g.block d).flags.defaultHandler = false) : home d = call := by
  obtain ⟨hv, hhome⟩ := h.home_of_inCopy hb
  obtain ⟨hcode, hvd, x, -, hcatches⟩ := h.catches_of_mem hv hd
  rw [hhome.resolve_right hcode] at hcatches
  cases ht : x.target with
  | code bci =>
    rw [Catches, ht] at hcatches
    exact hcatches.home_eq
  | unlock =>
    rw [(h.defaultHandler_iff hvd).2 (hcatches.site.trans ht)] at hflag
    cases hflag

end Finished

/-- **Handlers are exact in every copy.** The handlers of a parsed block with code start where the handlers of
the scope do that protect its instructions, by instruction and then in the order of the scope, each listed at
its first occurrence. They are parsed. Every such block belongs to one copy; in a copy handlers that start at
the same index are the same block, and no two copies share a handler with code. -/
theorem handlers_exact (h : build m pool o = .ok g) :
    (∀ b ∈ g.order, (g.block b).flags.defaultHandler = false →
      (g.block b).handlers.map (fun d => (g.block d).site) = ((g.body b).flatMap fun k =>
        (m.scopeHandlers.filter (·.protects k.site.index)).map (·.target)).eraseDups ∧
      (∀ d ∈ (g.block b).handlers, d ∈ g.order) ∧ ∃! call, g.InCopy call b) ∧
    ∀ call call' a b, g.InCopy call a → g.InCopy call' b →
      ∀ d ∈ (g.block a).handlers, ∀ d' ∈ (g.block b).handlers,
        (call = call' → (g.block d).site = (g.block d').site → d = d') ∧
        (call ≠ call' → (g.block d).flags.defaultHandler = false → d ≠ d') := by
  obtain ⟨st, home, rfl, hfinished, hunlocks⟩ := finished_and_unlocks_of_build h
  have hmem : ∀ b, b ∈ g.order ↔ (g.block b).visited = true := fun b =>
    Array.mem_toList_iff.symm.trans (hfinished.mem_order b)
  refine ⟨fun b hb hflag => ?_, fun call call' a b ha hb d hd d' hd' => ⟨fun hcall hsite => ?_,
    fun hcall hflag heq => ?_⟩⟩
  · have hv := (hmem b).1 hb
    have hsite : (g.block b).site ≠ .unlock := fun hs => by
      rw [(hfinished.defaultHandler_iff hv).2 hs] at hflag; cases hflag
    refine ⟨hfinished.handlers_sites hunlocks hv hsite,
      fun d hd => (hmem d).2 (hfinished.catches_of_mem hv hd).2.1, home b, ?_, fun call hcall => ?_⟩
    · exact (hfinished.inCopy_iff hv hsite).2 rfl
    · exact (hfinished.inCopy_iff hv hsite).1 hcall
  · exact hfinished.handler_eq ha (hcall ▸ hb) hd hd' hsite
  · have hhome := hfinished.home_of_handler ha hd hflag
    rw [heq] at hhome hflag
    exact hcall (hhome.symm.trans (hfinished.home_of_handler hb hd' hflag))

/-- A synchronized method with a handler that protects a call and its subroutine. -/
def lockedCall : Method where
  name := "locked"
  access := ⟨0x0020⟩
  code := #[0xa8, 0, 4, 0xb1, 0x4b, 0xa9, 0, 0xbf]
  handlers := [{ first := 0, limit := 7, target := .code 7, catchType := 0 }]

theorem lockedCall_handlers : ∃ g, build lockedCall {} {} = .ok g ∧ 6 ∈ g.order ∧
    (g.block 6).handlers.map (fun d => (g.block d).site) = [.code 7, .unlock] ∧
    (∃! call, g.InCopy call 6) ∧ ∀ d ∈ (g.block 0).handlers, ∀ d' ∈ (g.block 6).handlers,
      (g.block d).flags.defaultHandler = false → d ≠ d' := by
  obtain ⟨g, hbuild, hgraph⟩ := exists_build_of_any lockedCall {} {}
    (fun g => g.start = some 0 ∧ (g.block 0).exit = some (.jsr 6 1) ∧ 6 ∈ g.order ∧
      (g.block 6).flags.defaultHandler = false ∧ ((g.body 6).flatMap fun k =>
        (lockedCall.scopeHandlers.filter (·.protects k.site.index)).map (·.target)).eraseDups =
          [.code 7, .unlock]) (by decide +kernel)
  obtain ⟨hstart, hexit, horder, hflag, hsites⟩ := of_decide_eq_true hgraph
  obtain ⟨hall, hcopies⟩ := handlers_exact hbuild
  obtain ⟨hlisted, -, hcopy⟩ := hall 6 horder hflag
  exact ⟨g, hbuild, horder, hlisted.trans hsites, hcopy, fun d hd d' hd' =>
    (hcopies none (some 0) 0 6 ⟨0, hstart, .refl⟩ ⟨6, ⟨1, hexit⟩, .refl⟩ d hd d' hd').2 nofun⟩

end BlockGraph
