import BlockGraph.Build
import BlockGraph.Proofs.Assembly.Calling

/-!
# Steps keep the invariant

A step parses an instruction, opens the next block or goes back to the context around. Each keeps the
invariant or refuses the method (`Inv.step`), and so does a run (`Inv.run`), at the end of which
no block waits to be parsed.
-/

namespace BlockGraph

open Assembly

variable {st : Setting} {home home' : Homes} {path : List BlockId} {s t : Assembly} {b j : BlockId}
  {c : Context} {outer : List Context} {m : Method} {o : Options}

/-! ## Going back -/

theorem Base.pop (h : Base st home (j :: path) s) (hchain : s.chain = c :: outer)
    (hagenda : c.agenda.entries = []) {e r : BlockId} (hexit : (s.graph.block j).exit = some (.jsr e r))
    (log : Array Event) : Base st home path { s with chain := outer, log := log } := by
  have hwaiting : Chain.waiting s.chain = Chain.waiting outer := by
    rw [hchain]; simp [Chain.waiting, hagenda]
  refine ⟨h.laid, h.range, h.linked.2.2, (hchain ▸ h.contexts).tail, fun d k hd hk => ?_,
    ⟨(hchain ▸ h.queue.agendas).tail, hwaiting ▸ h.queue.waiting, h.queue.queued, h.queue.mem_order,
      h.queue.nodup, h.queue.counted, h.queue.closed, h.queue.fresh, h.queue.current⟩⟩
  rcases h.called d k hd hk with hmem | hcalled
  · rcases List.mem_cons.1 hmem with rfl | hmem
    · exact .inr ⟨e, r, hexit⟩
    · exact .inl hmem
  · exact .inr hcalled

/-- A closed block is visited. -/
theorem Base.visited_of_exit (h : Base st home path s) {x : Exit}
    (hx : (s.graph.block b).exit = some x) : (s.graph.block b).visited = true := by
  cases hv : (s.graph.block b).visited with
  | true => rfl
  | false => rw [(h.queue.fresh b hv).1] at hx; cases hx

/-- Where a call comes back to is reached from the call once it is queued. -/
theorem Core.origin_back (h : Core st home path s) {e r : BlockId}
    (hexit : (s.graph.block j).exit = some (.jsr e r)) {g' : Graph}
    (hgrows : Grows home s.graph home' g') (hhome : home' r = home j)
    (hq : (g'.block r).queued = true) : Origin home' g' r := by
  have hv := h.base.visited_of_exit hexit
  have hlt := Graph.lt_of_visited hv
  have hsite : (s.graph.block j).site ≠ .unlock := by
    cases h.facts.settled j (by rw [hexit]; rfl) with
    | code hlies => rw [hlies.site]; nofun
    | unlock _ _ _ hx => rw [hexit] at hx; cases hx
  have horigin := (h.facts.origin j (h.base.queue.queued j hv) hsite).grows hlt hgrows
  exact horigin.step (.inr (.inr ⟨e, hgrows.exit j _ hexit, hq⟩)) (hhome.trans (hgrows.home_eq j hlt).symm)

/-- A `ret` in the copy of a call comes back to where the call does. -/
theorem Facts.ret_of_call {g : Graph} (h : Facts st home path g) {e r t : BlockId}
    (hexit : (g.block j).exit = some (.jsr e r)) (hb : home b = some j)
    (hx : (g.block b).exit = some (.ret t)) : t = r ∧ b ∈ (g.block r).predecessors := by
  obtain ⟨k, e', hk, hexit', hp⟩ := (h.settled b (by rw [hx]; rfl)).ret hx
  rw [hb] at hk
  cases hk
  rw [hexit] at hexit'
  cases hexit'
  exact ⟨rfl, hp⟩

/-- Around the innermost subroutine all have begun. -/
theorem Core.visited_of_mem (h : Core st home (j :: path) s) {k e r : BlockId} (hk : k ∈ path)
    (hx : (s.graph.block k).exit = some (.jsr e r)) : (s.graph.block e).visited = true := by
  rcases h.started k (List.mem_cons_of_mem _ hk) e r hx with hv | ⟨hhead, -⟩
  · exact hv
  · have hnodup := h.base.linked.nodup h.base.laid.lt_of_home
    cases hhead
    exact absurd hk (List.nodup_cons.1 hnodup).1

/-- The innermost subroutine is left for good: none of its blocks comes back. -/
theorem Inv.abandon (h : Inv st home (j :: path) s) (hcurrent : s.current = none)
    (hchain : s.chain = c :: outer) (hagenda : c.agenda.entries = []) {e r : BlockId}
    (hexit : (s.graph.block j).exit = some (.jsr e r)) (hnone : (s.graph.block r).predecessors = [])
    (log : Array Event) : Inv st home path { s with chain := outer, log := log } := by
  have hfacts : Facts st home path s.graph := by
    refine h.facts.leave fun b t hb hx => ?_
    have hp := (h.facts.ret_of_call hexit hb hx).2
    rw [hnone] at hp
    cases hp
  refine ⟨⟨h.base.pop hchain hagenda hexit log, hfacts, (hchain ▸ h.calls).tail,
    (hchain ▸ h.addresses).tail, fun k hk e' r' hx => .inl (h.visited_of_mem hk hx)⟩, fun d hd => ?_⟩
  rw [show (_ : Assembly).current = s.current from rfl, hcurrent] at hd
  cases hd

/-- The innermost subroutine is left, and the block after its call waits. -/
theorem Inv.goBack (h : Inv st home (j :: path) s) (hcurrent : s.current = none)
    (hchain : s.chain = c :: outer) (hagenda : c.agenda.entries = []) {e r : BlockId}
    (hexit : (s.graph.block j).exit = some (.jsr e r)) (hresume : c.resume = some r)
    (log : Array Event) : Inv st home path (schedule r { s with chain := outer, log := log }) := by
  obtain ⟨k, hk, -, hlt, hhome⟩ := (hchain ▸ h.base.contexts).head.resume r hresume
  cases hk
  obtain ⟨hbase, hsched, hqueued⟩ := (h.base.pop hchain hagenda hexit log).schedule (b := r) hlt
    (.inr (hhome.trans h.base.linked.2.1))
  have hcurrent' := hsched.current.trans hcurrent
  generalize schedule r { s with chain := outer, log := log } = u at *
  have hgrows : Grows home s.graph home u.graph := hsched.edits.grows
  have hexits : ∀ b, (u.graph.block b).exit = (s.graph.block b).exit := fun b => hsched.edits.exit_eq b
  have hfacts : Facts st home (j :: path) u.graph := by
    refine h.facts.edit h.base.laid h.base.range hsched.edits (fun _ hj => hj) (fun _ hj => .inl hj)
      (by simp) (fun d hd _ => ?_) (by simp) (by simp)
    cases List.mem_singleton.1 hd
    exact h.toCore.origin_back hexit hgrows hhome hqueued
  refine ⟨⟨hbase, hfacts.leave fun b t hb hx => ?_, hsched.calls (hchain ▸ h.calls).tail,
    hsched.addresses (fun b => hsched.edits.body_eq b) (hchain ▸ h.addresses).tail,
    fun k hk e' r' hx => .inl ?_⟩, fun d hd => ?_⟩
  · rw [hexits] at hx
    rw [(h.facts.ret_of_call hexit hb hx).1]
    exact hqueued
  · rw [hexits] at hx
    exact hgrows.visited e' (h.visited_of_mem hk hx)
  · rw [hcurrent'] at hd
    cases hd

theorem Inv.closeContext (h : Inv st home path s) (hcurrent : s.current = none)
    (hagenda : ∀ c ∈ s.chain.head?, c.agenda.entries = []) :
    Yields closeContext s (fun done t => if done then t = s ∧ path = [] else st.InvHolds () t) st.Ends := by
  have hcontexts := h.base.contexts
  obtain ⟨c, outer, hchain⟩ := hcontexts.exists_cons
  rw [hchain] at hcontexts
  cases path with
  | nil =>
    cases hcontexts
    simp [Yields, Assembly.closeContext, hchain]
  | cons j path =>
    obtain ⟨d, rest, rfl⟩ := hcontexts.tail.exists_cons
    obtain ⟨sub, e, r, hs, hsub, hexit, hresume, -⟩ := (hchain ▸ h.calls).head.called j rfl
    have hempty := hagenda c (by rw [hchain]; rfl)
    let left : Assembly := { s with chain := d :: rest, log := s.log.push (.popped c.label) }
    have hstep : Assembly.closeContext s =
        if (s.graph.block r).predecessors.isEmpty = true then
          .ok false left
        else .ok false (schedule r left) := by
      simp only [Assembly.closeContext, hchain, hresume]
      rfl
    unfold Yields
    rw [hstep]
    by_cases hnone : (s.graph.block r).predecessors.isEmpty = true
    · rw [if_pos hnone]
      exact ⟨home, path, h.abandon hcurrent hchain hempty hexit (List.isEmpty_iff.1 hnone) _⟩
    · rw [if_neg hnone]
      exact ⟨home, path, h.goBack hcurrent hchain hempty hexit hresume _⟩

/-! ## Opening a block -/

theorem Graph.InRange.visit {g : Graph} (hg : g.InRange) (hb : b < g.blocks.size) :
    (g.visit b).InRange := by
  have hmodify : (g.modifyBlock b ({ · with visited := true })).InRange :=
    hg.modifyBlock (fun _ => rfl) fun _ => rfl
  refine ⟨hmodify.instrs, hmodify.refs, hmodify.owners, fun d hd => ?_, hmodify.start, hmodify.entries⟩
  show d < (g.modifyBlock b _).blocks.size
  rcases Array.mem_push.1 hd with hd | rfl
  · exact hmodify.order d hd
  · rw [Graph.size_modifyBlock]; exact hb

theorem Queue.visit {n : Nat} {rest : List (BlockId × Nat)} (h : Queue home path s)
    (hnodup : path.Nodup) (hcurrent : s.current = none) (hchain : s.chain = c :: outer)
    (hagenda : c.agenda.entries = (b, n) :: rest) :
    Queue home path { s with
      graph := s.graph.visit b, chain := { c with agenda := ⟨rest⟩ } :: outer, current := some b
      parsedBlocks := s.parsedBlocks + 1 } := by
  have hagendas := hchain ▸ h.agendas
  obtain ⟨hhome, hqueued, hunvisited⟩ := hagendas.head.fits b (by rw [hagenda]; simp)
  have hexit : ∀ d, ((s.graph.visit b).block d).exit = (s.graph.block d).exit :=
    Graph.proj_visit Block.exit fun _ => rfl
  have hsame : ∀ d, ((s.graph.visit b).block d).queued = (s.graph.block d).queued :=
    Graph.proj_visit Block.queued fun _ => rfl
  have hvisited := Graph.visited_visit (Graph.lt_of_queued hqueued)
  have hfits : ∀ call a, AgendaFits home s.graph call a → b ∉ a.entries.map Prod.fst →
      AgendaFits home (s.graph.visit b) call a := by
    intro call a ha hb
    refine ha.congr fun d hd _ => ⟨rfl, hsame d, Bool.eq_iff_iff.2 ((hvisited d).trans ?_),
      Graph.proj_visit Block.number (fun _ => rfl) d⟩
    exact or_iff_left fun he => hb (he ▸ hd)
  constructor
  · obtain ⟨hfits₁, hnodup₁, hranked, hsorted⟩ := hagendas.head
    rw [hagenda] at hfits₁ hnodup₁ hranked hsorted
    have hnot := List.nodup_cons.1 hnodup₁
    have htail : AgendaFits home s.graph path.head? ⟨rest⟩ :=
      ⟨fun d hd => hfits₁ d (List.mem_cons_of_mem _ hd), hnot.2,
        fun e he => hranked e (List.mem_cons_of_mem _ he), (List.pairwise_cons.1 hsorted).2⟩
    refine hagendas.replace hnodup (hfits _ _ htail hnot.1) fun call c' hcall hc => hfits _ _ hc fun hmem =>
      hcall ?_
    exact (hc.fits b hmem).1.symm.trans hhome
  · intro d hd
    rw [hsame] at hd
    have hwaiting := h.waiting d hd
    rw [hchain] at hwaiting
    rw [hvisited]
    simp only [Chain.waiting, List.map_cons, List.flatten_cons, hagenda, List.cons_append,
      List.mem_cons] at hwaiting ⊢
    rcases hwaiting with hv | rfl | hmem
    · exact .inl (.inl hv)
    · exact .inl (.inr rfl)
    · exact .inr hmem
  · intro d hd
    rw [hsame]
    rcases (hvisited d).1 hd with hv | rfl
    · exact h.queued d hv
    · exact hqueued
  · intro d
    show d ∈ (s.graph.order.push b).toList ↔ ((s.graph.visit b).block d).visited = true
    rw [Array.toList_push, List.mem_append, List.mem_singleton, hvisited, h.mem_order]
  · show (s.graph.order.push b).toList.Nodup
    rw [Array.toList_push, List.nodup_append]
    refine ⟨h.nodup, by simp, fun d hd d' hd' he => ?_⟩
    cases List.mem_singleton.1 hd'
    rw [he, h.mem_order, hunvisited] at hd
    cases hd
  · show s.parsedBlocks + 1 = (s.graph.order.push b).size
    rw [Array.size_push, h.counted]
  · intro d hd
    rw [hexit]
    rcases (hvisited d).1 hd with hv | rfl
    · refine .inl ((h.closed d hv).resolve_right fun hcur => ?_)
      rw [hcurrent] at hcur
      cases hcur
    · exact .inr rfl
  · intro d hd
    have hv : (s.graph.block d).visited = false := by
      refine Bool.eq_false_iff.2 fun hv => ?_
      rw [(hvisited d).2 (.inl hv)] at hd
      cases hd
    rw [hexit, Graph.body_visit, Graph.proj_visit Block.handlers fun _ => rfl]
    exact h.fresh d hv
  · intro d hd
    cases hd
    exact ⟨(hvisited b).2 (.inr rfl), (hexit b).trans (h.fresh b hunvisited).1⟩

/-- The next block of the agenda is taken and becomes the open block. -/
theorem Base.visit {n : Nat} {rest : List (BlockId × Nat)} (h : Base st home path s)
    (hcurrent : s.current = none) (hchain : s.chain = c :: outer)
    (hagenda : c.agenda.entries = (b, n) :: rest) :
    Base st home path { s with
      graph := s.graph.visit b, chain := { c with agenda := ⟨rest⟩ } :: outer, current := some b
      parsedBlocks := s.parsedBlocks + 1 } := by
  obtain ⟨-, hqueued, -⟩ := (hchain ▸ h.queue.agendas).head.fits b (by rw [hagenda]; simp)
  have hqueue := h.queue.visit (h.linked.nodup h.laid.lt_of_home) hcurrent hchain hagenda
  refine h.of_grows (grows_visit home) (Graph.size_modifyBlock _ _ _) rfl
    (h.range.visit (Graph.lt_of_queued hqueued)) ?_ hqueue
  rw [hchain]
  rfl

/-- What holds when the next block has been opened. -/
theorem Inv.visit {n : Nat} {rest : List (BlockId × Nat)} (h : Inv st home path s)
    (hcurrent : s.current = none) (hchain : s.chain = c :: outer)
    (hagenda : c.agenda.entries = (b, n) :: rest) :
    Core st home path { s with
      graph := s.graph.visit b, chain := { c with agenda := ⟨rest⟩ } :: outer, current := some b
      parsedBlocks := s.parsedBlocks + 1 } := by
  have hagendas := hchain ▸ h.base.queue.agendas
  obtain ⟨hhome, hqueued, -⟩ := hagendas.head.fits b (by rw [hagenda]; simp)
  have hlt := Graph.lt_of_queued hqueued
  have hgrows := grows_visit (g := s.graph) (b := b) home
  have hexit : ∀ d, ((s.graph.visit b).block d).exit = (s.graph.block d).exit :=
    Graph.proj_visit Block.exit fun _ => rfl
  have hfirst : ∀ j ∈ path, ∀ e r, (s.graph.block j).exit = some (.jsr e r) →
      e = b ∨ (s.graph.block e).visited = true := by
    intro j hj e r hx
    rcases h.started j hj e r hx with hv | ⟨-, -, honly⟩
    · exact .inr hv
    · have := honly c (by rw [hchain]; rfl)
      rw [hagenda] at this
      exact .inl (List.head_eq_of_cons_eq this).symm
  have hcalls : Nest (CallFits st home (s.graph.visit b)) (c :: outer) path :=
    (hchain ▸ h.calls).imp fun _ _ hc => hc.grows hgrows
  have haddresses : Nest (AddressKept st home (s.graph.visit b)) (c :: outer) path :=
    (hchain ▸ h.addresses).imp fun _ _ hc => hc.of_bodies (fun _ _ => rfl) (fun _ d _ _ => Graph.body_visit d) rfl
  refine ⟨h.base.visit hcurrent hchain hagenda, ?_, hcalls.setHead ⟨hcalls.head.root, hcalls.head.called⟩,
    haddresses.setHead ⟨haddresses.head.root, haddresses.head.kept, haddresses.head.lost⟩,
    fun j hj e r hx => .inl ?_⟩
  · refine h.facts.visit (fun j => h.base.linked.under_iff hhome) fun j hj e r hx => ?_
    exact (hfirst j hj e r hx).imp id (h.base.queue.mem_order e).2
  · have hx' : (s.graph.block j).exit = some (.jsr e r) := (hexit j).symm.trans hx
    exact (Graph.visited_visit hlt e).2 (hfirst j hj e r hx').symm

/-- The block that unlocks is parsed at once. -/
theorem Core.unlock (h : Core st home [] s) (hb : s.current = some b)
    (hsite : (s.graph.block b).site = .unlock) (hbody : s.graph.body b = [])
    (hhandlers : (s.graph.block b).handlers = []) : Inv st home [] (parseUnlock b s) := by
  obtain ⟨hbase₁, hedits₁, hbody₁⟩ := h.base.append hb .unlock .monitorexit
  obtain ⟨hbase₂, hedits₂, hbody₂⟩ := hbase₁.append hb .unlock .athrow
  obtain ⟨hbase₃, hedits₃, hexit, hbody₃, hhandlers₃⟩ := hbase₂.close (x := .throw) hb
    (by simp [Exit.blocks])
  have hedits := (hedits₁.trans hedits₂).trans hedits₃
  have hgrows := hedits.grows
  have hlt := Graph.lt_of_visited (h.base.queue.current b hb).1
  have hsame : ∀ (g : Graph) (opcode : Opcode),
      ((g.append b .unlock opcode).2.block b).handlers = (g.block b).handlers := by
    intro g opcode
    rw [Graph.block_append]
    split <;> rfl
  have hsettled : Settled st home (parseUnlock b s).graph b := by
    refine .unlock (hgrows.lt hlt) ((hgrows.site hlt).trans hsite) ?_ hexit ?_
    · refine hbody₃.trans (hbody₂.trans ?_)
      rw [hbody₁, hbody]; rfl
    · refine hhandlers₃.trans ((hsame _ _).trans ((hsame _ _).trans hhandlers))
  refine ⟨⟨hbase₃, ?_, h.calls.imp fun _ _ hc => hc.grows hgrows, ?_, by simp⟩, fun d hd => ?_⟩
  · refine h.facts.edit h.base.laid h.base.range hedits (fun _ hj => hj) (fun _ hj => .inl hj)
      (fun _ => .inl rfl) (by simp) (fun k e r he hx _ _ => ?_) fun c x hc hx => ?_
    · -- no call leads to the block that unlocks
      cases he
      obtain ⟨_, _, _, _, _, hleads, -⟩ := (h.facts.settled k (by rw [hx]; rfl)).call hx
      rw [hleads.1.site] at hsite; cases hsite
    · cases hc
      rw [show ((parseUnlock b s).graph.block b).exit = _ from hexit] at hx
      cases hx
      exact ⟨hsettled, by simp, by simp⟩
  · have haddresses := h.addresses
    show Nest _ s.chain []
    generalize s.chain = chain at haddresses ⊢
    cases haddresses with
    | root hc => exact .root ⟨hc.root, fun j sub n hj => (by cases hj), fun j sub n hj => by cases hj⟩
  · cases hd

/-- The cursor is put on the first instruction of a block with code. -/
theorem Core.begin {bci : Nat} {k : Insn} (h : Core st home path s) (hb : s.current = some b)
    (hchain : s.chain = c :: outer) (hlies : s.graph.LiesAt home path.head? bci b)
    (hbody : s.graph.body b = []) (hhandlers : (s.graph.block b).handlers = [])
    (hlast : ∃ pre, s.graph.order.toList = pre ++ [b]) (hk : k ∈ st.survey.insns) (hbci : k.bci = bci)
    (log : Array Event) :
    Inv st home path { s with
      log := log, chain := { c with cursor := k.cursor st.method.code } :: outer } := by
  have hcode := (hchain ▸ h.base.contexts).head.code
  have hcalls := hchain ▸ h.calls
  have haddresses := hchain ▸ h.addresses
  refine ⟨⟨h.base.rechain rfl rfl rfl ?_ ?_, h.facts, hcalls.setHead ⟨hcalls.head.root, hcalls.head.called⟩,
    haddresses.setHead ⟨haddresses.head.root, haddresses.head.kept, haddresses.head.lost⟩,
    fun j hj e r hx => .inl (h.visited_entry hb hj hx)⟩,
    fun d hd => ?_⟩
  · rw [hchain, List.map_cons, List.map_cons]
    simp only [Context.place, hcode]; rfl
  · rw [hchain]; rfl
  · have hbd : b = d := Option.some.inj (hb.symm.trans hd)
    subst hbd
    refine ⟨bci, [], k, hd, hlies, hbci ▸ .first hk, hbody, ⟨?_, by simp, fun e he => ?_⟩, fun c' hc' => ?_,
      hlast⟩
    · show (s.graph.block b).handlers.map _ = _
      rw [hhandlers]; rfl
    · rw [hhandlers] at he; cases he
    · cases hc'; rfl

theorem Inv.openBlock {n : Nat} {rest : List (BlockId × Nat)} (h : Inv st home path s)
    (hcurrent : s.current = none) (hchain : s.chain = c :: outer)
    (hagenda : c.agenda.entries = (b, n) :: rest) :
    Yields (openBlock m o b) { s with chain := { c with agenda := ⟨rest⟩ } :: outer } st.InvHolds st.Ends := by
  have hcore := h.visit hcurrent hchain hagenda
  obtain ⟨hhome, hqueued, hunvisited⟩ := (hchain ▸ h.base.queue.agendas).head.fits b (by rw [hagenda]; simp)
  have hlt := Graph.lt_of_queued hqueued
  have hkin : ∀ {α : Type} (p : Block → α), (∀ y : Block, p { y with visited := true } = p y) →
      p ((s.graph.visit b).block b) = p (s.graph.block b) := fun p hp => Graph.proj_visit p hp b
  obtain ⟨-, hnil, hnone⟩ := h.base.queue.fresh b hunvisited
  unfold Assembly.openBlock
  rw [yields_bind, yields_modify, yields_bind, yields_get]
  split
  · have hwithin := hcore.base.within
    refine ⟨.bailout _, ?_⟩
    refine ⟨h.base.range.modifyBlock (fun _ => rfl) fun _ => rfl, fun c' hc' => ?_, fun d hd => ?_⟩
    · have hc' := hwithin.contexts c' hc'
      exact ⟨hc'.scope, hc'.table, hc'.copies, hc'.handlers, hc'.agenda, hc'.resume, hc'.continuation⟩
    · have hd : s.current = some d := hd
      rw [hcurrent] at hd; cases hd
  · rw [yields_bind, yields_modify, yields_bind, yields_get]
    show Yields (if ((s.graph.visit b).block b).flags.defaultHandler = true then _ else _) _ _ _
    split
    · rename_i hflag
      have hsite : (s.graph.block b).site = .unlock := (h.base.laid.defaultHandler_iff b hlt).1
        ((hkin (·.flags.defaultHandler) fun _ => rfl).symm.trans hflag)
      obtain rfl : path = [] := by
        have := (h.base.laid.unlock b hlt hsite).1
        rw [hhome] at this
        exact List.head?_eq_none_iff.1 this
      rw [yields_modify]
      exact ⟨home, [], hcore.unlock rfl ((hkin Block.site fun _ => rfl).trans hsite)
        ((Graph.body_visit b).trans hnil) ((hkin Block.handlers fun _ => rfl).trans hnone)⟩
    · rename_i hflag
      have hsite : (s.graph.block b).site ≠ .unlock := fun hsite => hflag
        ((hkin (·.flags.defaultHandler) fun _ => rfl).trans ((h.base.laid.defaultHandler_iff b hlt).2 hsite))
      obtain ⟨bci, hbci⟩ : ∃ bci, (s.graph.block b).site = .code bci := by
        cases hs : (s.graph.block b).site with
        | code bci => exact ⟨bci, rfl⟩
        | unlock => exact absurd hs hsite
      have hlies : s.graph.LiesAt home path.head? bci b := ⟨hlt, hhome, hbci⟩
      obtain ⟨k, hk, hkbci⟩ := Survey.exists_insn_of_mem_starts st.surveyed (h.base.laid.mem_starts hlies)
      have hmove : Cursor.moveTo ((s.graph.visit b).block b).site.index c.cursor =
          .ok k.opcode (k.cursor st.method.code) := by
        rw [hkin Block.site fun _ => rfl, hbci, show (Site.code bci).index = k.bci from hkbci.symm]
        exact Insn.moveTo_of_read (st.read_of_mem hk) (hchain ▸ h.base.contexts).head.code
      rw [yields_bind, yields_innermost rfl, yields_bind, yields_modify]
      refine yields_bind.2 ((yields_withCursor (c := { c with agenda := ⟨rest⟩ }) rfl hmove).2 ?_)
      exact ⟨home, path, hcore.begin rfl rfl ((grows_visit home).liesAt hlies)
        ((Graph.body_visit b).trans hnil) ((hkin Block.handlers fun _ => rfl).trans hnone)
        ⟨s.graph.order.toList, Array.toList_push⟩ hk hkbci _⟩

/-! ## Any step -/

theorem Inv.parseInstr (h : Inv st home path s) (hb : s.current = some b) :
    Yields (parseInstr o b) s st.InvHolds st.Ends := by
  obtain ⟨bci, before, i, hh⟩ := h.opened b hb
  obtain ⟨c, outer, hchain⟩ := h.base.contexts.exists_cons
  have hcursor : c.cursor = i.cursor st.method.code := hh.cursor c (by rw [hchain]; rfl)
  unfold Assembly.parseInstr
  rw [yields_bind, yields_innermost hchain, hcursor]
  refine (h.guard hh).bind fun _ t hg => ?_
  rw [yields_bind, yields_modify]
  have hemit : i.flow ≠ .next →
      Emitted st home path (appendInstr b (.code i.bci) i.opcode t) b bci before i := fun hf =>
    hg.append (Option.not_isSome_iff_eq_none.1 fun hw => hf (Opcode.flow_of_writes hw))
  cases hf : i.flow with
  | next =>
    have hflow : (i.cursor st.method.code).opcode.flow = .next := hf
    simp only [hflow]
    exact hg.next hf
  | branch =>
    have hflow : (i.cursor st.method.code).opcode.flow = .branch := hf
    simp only [hflow]
    exact (hemit (by rw [hf]; nofun)).branch hf
  | goto =>
    have hflow : (i.cursor st.method.code).opcode.flow = .goto := hf
    simp only [hflow]
    exact (hemit (by rw [hf]; nofun)).goto hf
  | switch =>
    have hflow : (i.cursor st.method.code).opcode.flow = .switch := hf
    simp only [hflow]
    exact (hemit (by rw [hf]; nofun)).switch hf
  | jsr =>
    have hflow : (i.cursor st.method.code).opcode.flow = .jsr := hf
    simp only [hflow]
    obtain ⟨entry, htarget, htargets⟩ :=
      Insn.branchTarget_of_read (st.read_of_mem hh.stretch.mem) (.inr (.inr hf))
    rw [yields_bind, yields_ofExcept, htarget]
    exact (hemit (by rw [hf]; nofun)).call o hf htargets
  | ret =>
    have hflow : (i.cursor st.method.code).opcode.flow = .ret := hf
    simp only [hflow]
    exact (hemit (by rw [hf]; nofun)).ret hf
  | leave =>
    have hflow : (i.cursor st.method.code).opcode.flow = .leave := hf
    simp only [hflow]
    exact (hemit (by rw [hf]; nofun)).leave hf
  | throw =>
    have hflow : (i.cursor st.method.code).opcode.flow = .throw := hf
    simp only [hflow]
    exact (hemit (by rw [hf]; nofun)).throw hf

/-- Nothing is left to do: all that is queued has been parsed, and no subroutine is open. -/
def Setting.Done (st : Setting) (t : Assembly) : Prop :=
  ∃ home, Inv st home [] t ∧ t.current = none ∧ Chain.waiting t.chain = []

/-- The blocks of an agenda wait, so none is dropped as parsed. -/
theorem Base.skipVisited_eq (h : Base st home path s) : skipVisited s = s := by
  obtain ⟨c, outer, hchain⟩ := h.contexts.exists_cons
  have hagenda := (hchain ▸ h.queue.agendas).head
  have hskip : c.agenda.skip (fun b => (s.graph.block b).visited) = c.agenda := by
    cases hentries : c.agenda with
    | mk entries =>
      cases entries with
      | nil => rfl
      | cons e rest =>
        have hv := (hagenda.fits e.1 (by rw [hentries]; simp)).2.2
        simp [Agenda.skip, hv]
  simp only [skipVisited, modifyInnermost, hchain, hskip]
  rw [← hchain]

theorem takeNext_nil (hchain : s.chain = c :: outer) (hentries : c.agenda.entries = []) :
    takeNext s = (none, s) := by
  simp only [takeNext, hchain, Agenda.pop, hentries]
  rw [← hchain]

theorem takeNext_cons (hchain : s.chain = c :: outer) {n : Nat} {rest : List (BlockId × Nat)}
    (hentries : c.agenda.entries = (b, n) :: rest) :
    takeNext s = (some b, { s with chain := { c with agenda := ⟨rest⟩ } :: outer }) := by
  simp only [takeNext, hchain, Agenda.pop, hentries]

/-- While a block is open an instruction of it is parsed. -/
theorem yields_step_some (hcurrent : s.current = some b) {good : Bool → Assembly → Prop}
    {bad : Fault → Assembly → Prop} :
    Yields (step m o) s good bad ↔ Yields (parseInstr o b) s (fun _ t => good false t) bad := by
  unfold Assembly.step
  rw [yields_bind, yields_get]
  simp only [hcurrent]
  exact yields_bind

/-- With an empty agenda the innermost context is closed. -/
theorem Base.yields_step_nil (h : Base st home path s) (hcurrent : s.current = none)
    (hchain : s.chain = c :: outer) (hentries : c.agenda.entries = [])
    {good : Bool → Assembly → Prop} {bad : Fault → Assembly → Prop} :
    Yields (step m o) s good bad ↔ Yields closeContext s good bad := by
  unfold Assembly.step
  rw [yields_bind, yields_get]
  simp only [hcurrent]
  rw [yields_bind, yields_modify, h.skipVisited_eq, yields_bind, yields_modifyGet,
    takeNext_nil hchain hentries]

/-- Else the first block of the agenda is opened. -/
theorem Base.yields_step_cons (h : Base st home path s) (hcurrent : s.current = none)
    (hchain : s.chain = c :: outer) {n : Nat} {rest : List (BlockId × Nat)}
    (hentries : c.agenda.entries = (b, n) :: rest) {good : Bool → Assembly → Prop}
    {bad : Fault → Assembly → Prop} :
    Yields (step m o) s good bad ↔ Yields (openBlock m o b)
      { s with chain := { c with agenda := ⟨rest⟩ } :: outer } (fun _ t => good false t) bad := by
  unfold Assembly.step
  rw [yields_bind, yields_get]
  simp only [hcurrent]
  rw [yields_bind, yields_modify, h.skipVisited_eq, yields_bind, yields_modifyGet,
    takeNext_cons hchain hentries, hcurrent]
  exact yields_bind

theorem Inv.step (h : Inv st home path s) :
    Yields (step m o) s (fun done t => if done then st.Done t else st.InvHolds () t) st.Ends := by
  cases hcurrent : s.current with
  | some b => exact (yields_step_some hcurrent).2 (h.parseInstr hcurrent)
  | none =>
    obtain ⟨c, outer, hchain⟩ := h.base.contexts.exists_cons
    cases hentries : c.agenda.entries with
    | nil =>
      rw [h.base.yields_step_nil hcurrent hchain hentries]
      refine (h.closeContext hcurrent fun c' hc' => ?_).mono (fun done t ht => ?_) fun _ _ hb => hb
      · rw [hchain] at hc'; cases hc'; exact hentries
      · cases done with
        | false => exact ht
        | true =>
          obtain ⟨rfl, rfl⟩ := ht
          refine ⟨home, h, hcurrent, ?_⟩
          have hnest := hchain ▸ h.base.contexts
          cases hnest
          rw [hchain]
          simp [Chain.waiting, hentries]
    | cons e rest =>
      rw [h.base.yields_step_cons hcurrent hchain hentries]
      exact h.openBlock hcurrent hchain hentries

/-! ## Runs -/

/-- A run leaves nothing to do, or the method is refused. -/
theorem Inv.run : ∀ {fuel : Nat} {home : Homes} {path : List BlockId} {s : Assembly},
    Inv st home path s → Yields (run m o fuel) s (fun _ t => st.Done t) st.Ends
  | 0, _, _, _, h => ⟨.bailout _, h.base.within⟩
  | fuel + 1, _, _, s, h => by
    unfold Assembly.run
    refine h.step.bind fun done t ht => ?_
    cases done with
    | true => exact ht
    | false =>
      obtain ⟨home', path', ht⟩ := ht
      exact ht.run

end BlockGraph
