import BlockGraph.Proofs.Transcript.Brackets

/-!
# What the transcript tells

The transcript of a graph in the making tells which contexts are on the chain, which blocks wait in them and
which have been parsed (`LogAgrees`). Each thing that is done keeps that, or is itself told.
-/

namespace BlockGraph

open Assembly Transcript

/-! ## Graphs -/

namespace Graph

/-- The blocks with code that have been parsed, in order. -/
def codeOrder (g : Graph) : List BlockId := g.order.toList.filter fun b => !(g.block b).flags.defaultHandler

/-- How many blocks that have been parsed leave the method. -/
def leaves (g : Graph) : Nat := g.order.toList.countP fun b => (g.block b).exit == some .leave

/-- The order of parsing is the same, and what is queued stays so and keeps flags and exit. -/
structure Spares (g g' : Graph) : Prop where
  order : g'.order = g.order
  kept : ∀ b, (g.block b).queued = true → (g'.block b).queued = true ∧
    (g'.block b).flags = (g.block b).flags ∧ (g'.block b).exit = (g.block b).exit

variable {g g' : Graph} {b d : BlockId} {x : Exit}

theorem Spares.refl (g : Graph) : g.Spares g := ⟨rfl, fun _ hb => ⟨hb, rfl, rfl⟩⟩

theorem Extends.spares (h : g.Extends g') : g.Spares g' where
  order := h.order_eq
  kept b hb := by rw [h.block_eq b (lt_of_queued hb)]; exact ⟨hb, rfl, rfl⟩

theorem spares_enqueue (g : Graph) (d : BlockId) : g.Spares (g.modifyBlock d ({ · with queued := true })) where
  order := rfl
  kept b hb := by
    refine ⟨?_, proj_modifyBlock Block.flags fun _ => rfl, proj_modifyBlock Block.exit fun _ => rfl⟩
    rw [block_modifyBlock]
    split
    · rfl
    · exact hb

theorem spares_addHandlerEdge (g : Graph) (b d : BlockId) : g.Spares (g.addHandlerEdge b d) where
  order := rfl
  kept c hc := by
    rw [block_addHandlerEdge]
    split
    · rename_i hcb; rw [← hcb.1]; exact ⟨hc, rfl, rfl⟩
    · exact ⟨hc, rfl, rfl⟩

theorem spares_append (g : Graph) (b : BlockId) (site : Site) (opcode : Opcode) :
    g.Spares (g.append b site opcode).2 where
  order := rfl
  kept c hc := by
    rw [block_append]
    split
    · rename_i hcb; rw [← hcb.1]; exact ⟨hc, rfl, rfl⟩
    · exact ⟨hc, rfl, rfl⟩

theorem spares_visited (g : Graph) (b : BlockId) : g.Spares (g.modifyBlock b ({ · with visited := true })) where
  order := rfl
  kept c hc := by
    refine ⟨?_, proj_modifyBlock Block.flags fun _ => rfl, proj_modifyBlock Block.exit fun _ => rfl⟩
    exact (proj_modifyBlock (f := ({ · with visited := true })) Block.queued fun _ => rfl).trans hc

theorem Spares.leaves_eq (h : g.Spares g') (hq : ∀ b ∈ g.order.toList, (g.block b).queued = true) :
    g'.leaves = g.leaves := by
  unfold leaves
  rw [h.order]
  refine List.countP_congr fun b hb => ?_
  rw [(h.kept b (hq b hb)).2.2]

/-- Block `b` is open, and it is the last one in the order of parsing. -/
structure Opened (g : Graph) (b : BlockId) : Prop where
  last : ∃ pre, g.order.toList = pre ++ [b] ∧ b ∉ pre
  exit : (g.block b).exit = none

theorem Opened.of_spares (h : g.Opened b) (hg : g.Spares g')
    (hq : ∀ b ∈ g.order.toList, (g.block b).queued = true) : g'.Opened b := by
  obtain ⟨pre, hlast, hnot⟩ := h.last
  refine ⟨⟨pre, hg.order ▸ hlast, hnot⟩, ?_⟩
  rw [(hg.kept b (hq b (by rw [hlast]; simp))).2.2]
  exact h.exit

/-- Closing the open block counts if control leaves the method there. -/
theorem Opened.leaves_close (h : g.Opened b) (hb : b < g.blocks.size) :
    (g.close b x).leaves = g.leaves + if x = .leave then 1 else 0 := by
  obtain ⟨pre, hlast, hnot⟩ := h.last
  have hsame : pre.countP (fun c => ((g.close b x).block c).exit == some .leave) =
      pre.countP fun c => (g.block c).exit == some .leave := by
    refine List.countP_congr fun c hc => ?_
    rw [exit_close_ne (by rintro rfl; exact hnot hc)]
  unfold leaves
  rw [show (g.close b x).order = g.order by rw [close_eq], hlast, List.countP_append, List.countP_append,
    hsame, List.countP_singleton, List.countP_singleton, exit_close_self hb, h.exit]
  by_cases hx : x = .leave <;> simp [hx]

end Graph

/-! ## Chains -/

namespace Chain

theorem returns_cons (c : Context) (outer : List Context) : returns (c :: outer) =
    if c.isSubroutine = true ∧ outer ≠ [] then returns outer else c.returns := by
  cases outer <;> simp [returns]

theorem countReturn_cons (c : Context) (outer : List Context) : countReturn (c :: outer) =
    if c.isSubroutine = true ∧ outer ≠ [] then c :: countReturn outer
    else { c with returns := c.returns + 1 } :: outer := by
  cases outer <;> simp [countReturn]

/-- How many returns are counted depends on what the contexts are called and on what each has counted. -/
theorem returns_congr : ∀ {chain chain' : List Context},
    chain'.map (fun c => (c.label, c.returns)) = chain.map (fun c => (c.label, c.returns)) →
    returns chain' = returns chain
  | [], chain', h => by rw [List.map_eq_nil_iff.1 h]
  | c :: outer, chain', h => by
    obtain ⟨c', outer', rfl, hsame, hrest⟩ := List.map_eq_cons_iff.1 h
    obtain ⟨hlabel, hreturns⟩ := Prod.mk.injEq .. ▸ hsame
    have hsub : c'.isSubroutine = c.isSubroutine := by
      have := congrArg (fun l : ContextLabel => l.entry.isSome) hlabel
      simpa [Context.label, Context.isSubroutine] using this
    have hnil : outer' = [] ↔ outer = [] := by
      rw [← List.map_eq_nil_iff, hrest, List.map_eq_nil_iff]
    simp only [returns_cons, hsub, returns_congr hrest, hreturns, ne_eq, hnil]

theorem returns_countReturn : ∀ {chain : List Context}, chain ≠ [] →
    returns (countReturn chain) = returns chain + 1
  | [], h => absurd rfl h
  | c :: outer, _ => by
    rw [countReturn_cons, returns_cons]
    by_cases hinner : c.isSubroutine = true ∧ outer ≠ []
    · have hne : countReturn outer ≠ [] := fun hnil => hinner.2 (List.map_eq_nil_iff.1
        ((map_countReturn Context.scope (fun _ _ => rfl) outer).symm.trans (congrArg _ hnil)))
      rw [if_pos hinner, if_pos hinner, returns_cons, if_pos ⟨hinner.1, hne⟩, returns_countReturn hinner.2]
    · rw [if_neg hinner, if_neg hinner, returns_cons]
      exact if_neg hinner

end Chain

/-! ## What is told -/

/-- What the transcript tells of a context. -/
def Context.logged (c : Context) : ContextLabel × Agenda × Nat := (c.label, c.agenda, c.returns)

/-- The transcript agrees with these contexts and with the graph: it tells that the contexts are open, which
blocks wait in them and which have been parsed. -/
structure Assembly.LogAgrees (chain : List Context) (s : Assembly) : Prop where
  around : around [] s.log.toList = some (chain.map Context.label)
  faithful : Faithful s.log.toList
  /-- A block that waits has been announced for its context. -/
  waits : ∀ (k : Nat) c, chain[k]? = some c → ∀ b ∈ c.agenda.entries.map Prod.fst,
    Announced s.log.toList ((chain.take k).map Context.label) c.label b
  scheduled : ∀ b ∈ scheduled s.log.toList, (s.graph.block b).queued = true
  queued : ∀ b ∈ s.graph.order.toList, (s.graph.block b).queued = true
  parsed : parsed s.log.toList = s.graph.codeOrder
  returns : Chain.returns chain = s.graph.leaves

/-- Remarks have been added to the transcript. -/
def Assembly.Remarks (s t : Assembly) : Prop :=
  ∃ added : List Event, t.log.toList = s.log.toList ++ added ∧ ∀ e ∈ added, e.isRemark = true

theorem Assembly.Remarks.of_eq {s t : Assembly} (h : t.log = s.log) : s.Remarks t := ⟨[], by simp [h], by simp⟩

theorem Assembly.Remarks.note (s : Assembly) {e : Event} (he : e.isRemark = true) : s.Remarks (s.note e) :=
  ⟨[e], Array.toList_push, by simpa using he⟩

namespace Assembly.LogAgrees

variable {s t : Assembly} {chain chain' outer : List Context} {c : Context} {b d : BlockId} {x : Exit}

/-- Nothing is told, and of the contexts and the blocks nothing changes that would have to be. -/
theorem frame (h : LogAgrees chain s) (hlog : s.Remarks t)
    (hchain : chain'.map (fun c => (c.label, c.agenda)) = chain.map fun c => (c.label, c.agenda))
    (horder : t.graph.order = s.graph.order)
    (hkept : ∀ b, (s.graph.block b).queued = true →
      (t.graph.block b).queued = true ∧ (t.graph.block b).flags = (s.graph.block b).flags)
    (hreturns : Chain.returns chain' = t.graph.leaves) : LogAgrees chain' t := by
  obtain ⟨added, hlog, hadded⟩ := hlog
  have hlabels : chain'.map Context.label = chain.map Context.label := by
    have := congrArg (List.map Prod.fst) hchain
    simpa [Function.comp_def] using this
  constructor
  · rw [hlog, hlabels, around_append, h.around]
    exact around_of_isRemark hadded
  · exact hlog ▸ h.faithful.append hadded
  · intro k c' hc' b hb
    have hget := congrArg (·[k]?) hchain
    simp only [List.getElem?_map, hc', Option.map_some] at hget
    obtain ⟨c, hc, hsame⟩ := Option.map_eq_some_iff.1 hget.symm
    obtain ⟨hlabel, hagenda⟩ := Prod.mk.injEq .. ▸ hsame
    rw [hlog, ← hlabel, List.map_take, hlabels, ← List.map_take]
    exact (h.waits k c hc b (hagenda ▸ hb)).append (around_of_isRemark hadded)
  · intro b hb
    rw [hlog, scheduled_append, scheduled_of_isRemark hadded, List.append_nil] at hb
    exact (hkept b (h.scheduled b hb)).1
  · intro b hb
    exact (hkept b (h.queued b (horder ▸ hb))).1
  · rw [hlog, parsed_append, parsed_of_isRemark hadded, List.append_nil, h.parsed]
    unfold Graph.codeOrder
    rw [horder]
    refine List.filter_congr fun b hb => ?_
    rw [(hkept b (h.queued b hb)).2]
  · exact hreturns

theorem spare (h : LogAgrees chain s) (hlog : s.Remarks t)
    (hchain : chain'.map Context.logged = chain.map Context.logged)
    (hgraph : s.graph.Spares t.graph) : LogAgrees chain' t := by
  refine h.frame hlog ?_ hgraph.order (fun b hb => ⟨(hgraph.kept b hb).1, (hgraph.kept b hb).2.1⟩) ?_
  · have := congrArg (List.map fun x : ContextLabel × Agenda × Nat => (x.1, x.2.1)) hchain
    simpa [Function.comp_def, Context.logged] using this
  · rw [hgraph.leaves_eq h.queued, ← h.returns]
    refine Chain.returns_congr ?_
    have := congrArg (List.map fun x : ContextLabel × Agenda × Nat => (x.1, x.2.2)) hchain
    simpa [Function.comp_def, Context.logged] using this

/-! ## What is done to contexts -/

/-- A block is put on the agenda, and that is told. -/
theorem schedule (h : LogAgrees s.chain s) (hd : d < s.graph.blocks.size) :
    LogAgrees (schedule d s).chain (Assembly.schedule d s) := by
  unfold Assembly.schedule
  cases hchain : s.chain with
  | nil => exact h
  | cons c outer =>
    simp only
    split
    · exact h
    · rename_i hfree
      rw [hchain] at h
      have hnew : (s.graph.block d).queued = false := by
        simp only [Bool.or_eq_true, not_or, Bool.not_eq_true] at hfree
        exact hfree.1.1
      have hlog : (s.log.push (.scheduling d (s.graph.block d).number c.label)).toList =
          s.log.toList ++ [.scheduling d (s.graph.block d).number c.label] := Array.toList_push
      have hgraph := Graph.spares_enqueue s.graph d
      constructor
      · rw [hlog, around_append, h.around]
        rfl
      · rw [hlog]
        refine h.faithful.concat ⟨⟨_, h.around⟩, fun hmem => ?_⟩
        rw [h.scheduled d hmem] at hnew
        cases hnew
      · intro k c' hc' b hb
        rw [hlog]
        cases k with
        | zero =>
          cases hc'
          obtain ⟨entry, hentry, rfl⟩ := List.mem_map.1 hb
          rcases Agenda.mem_insertEntry.1 hentry with rfl | hentry
          · exact announced_scheduling _ _ _ _
          · exact (h.waits 0 c rfl _ (List.mem_map_of_mem hentry)).append rfl
        | succ k => exact (h.waits (k + 1) c' hc' b hb).append rfl
      · intro b hb
        rw [hlog, scheduled_append] at hb
        rcases List.mem_append.1 hb with hb | hb
        · exact (hgraph.kept b (h.scheduled b hb)).1
        · cases List.mem_singleton.1 hb
          exact (queued_enqueue hd d).2 (.inr rfl)
      · intro b hb
        exact (hgraph.kept b (h.queued b hb)).1
      · rw [hlog, parsed_append]
        refine (List.append_nil _).trans (h.parsed.trans (List.filter_congr fun b hb => ?_))
        rw [(hgraph.kept b (h.queued b hb)).2.1]
      · refine (Eq.trans (Chain.returns_congr ?_) h.returns).trans (hgraph.leaves_eq h.queued).symm
        rfl

/-- An entry tells that contexts are put on the chain or taken off it. -/
theorem tell {e : Event} (h : LogAgrees chain s) (he : e.scheduled? = none ∧ e.parsed? = none)
    (hafter : after (chain.map Context.label) e = some (chain'.map Context.label))
    (hwaits : ∀ (k : Nat) c, chain'[k]? = some c → ∀ b ∈ c.agenda.entries.map Prod.fst,
      Announced (s.log.toList ++ [e]) ((chain'.take k).map Context.label) c.label b)
    (hreturns : Chain.returns chain' = Chain.returns chain) : LogAgrees chain' (s.note e) := by
  have hlog : (s.note e).log.toList = s.log.toList ++ [e] := Array.toList_push
  obtain ⟨hscheduled, hparsed⟩ := he
  have hfits : e.Fits s.log.toList := by cases e <;> trivial
  refine ⟨?_, hlog ▸ h.faithful.concat hfits, fun k c hc b hb => hlog ▸ hwaits k c hc b hb, fun b hb => ?_,
    h.queued, ?_, hreturns.trans h.returns⟩
  · rw [hlog, around_append, h.around]
    exact (around_singleton _ e).trans hafter
  · rw [hlog, scheduled_append, Transcript.scheduled, Transcript.scheduled, List.filterMap_cons_none hscheduled,
      List.filterMap_nil, List.append_nil] at hb
    exact h.scheduled b hb
  · rw [hlog, parsed_append, Transcript.parsed, Transcript.parsed, List.filterMap_cons_none hparsed,
      List.filterMap_nil, List.append_nil]
    exact h.parsed

/-- The context of a subroutine is put on the chain, and that is told. -/
theorem push (h : LogAgrees outer s) (houter : outer ≠ []) (hagenda : c.agenda = {})
    (hsub : c.isSubroutine = true) : LogAgrees (c :: outer) (s.note (.pushed c.label)) := by
  refine h.tell ⟨rfl, rfl⟩ rfl (fun k c' hc' b hb => ?_) ?_
  · cases k with
    | zero => cases hc'; rw [hagenda] at hb; cases hb
    | succ k => exact (h.waits k c' hc' b hb).append rfl
  · rw [Chain.returns_cons, if_pos ⟨hsub, houter⟩]

/-- The context of a subroutine is taken off the chain, and that is told. -/
theorem pop (h : LogAgrees (c :: outer) s) (houter : outer ≠ []) (hsub : c.isSubroutine = true) :
    LogAgrees outer (s.note (.popped c.label)) := by
  have hpop : ∀ labels, after (c.label :: labels) (.popped c.label) = some labels := fun _ => if_pos rfl
  refine h.tell ⟨rfl, rfl⟩ (hpop _) (fun k c' hc' b hb => ?_) ?_
  · exact (h.waits (k + 1) c' hc' b hb).append ((around_singleton _ _).trans (hpop _))
  · rw [Chain.returns_cons, if_pos ⟨hsub, houter⟩]

/-! ## What is done to blocks -/

/-- The open block is closed. A return is counted if control leaves the method there. -/
theorem close (h : LogAgrees chain s) (hb : s.graph.Opened b) (hgraph : t.graph = s.graph.close b x)
    (hlog : t.log = s.log)
    (hchain : chain'.map (fun c => (c.label, c.agenda)) = chain.map fun c => (c.label, c.agenda))
    (hreturns : Chain.returns chain' = Chain.returns chain + if x = .leave then 1 else 0) :
    LogAgrees chain' t := by
  obtain ⟨pre, hlast, -⟩ := hb.last
  have hlt := Graph.lt_of_queued (h.queued b (by rw [hlast]; simp))
  refine h.frame (.of_eq hlog) hchain (by rw [hgraph, Graph.close_eq]) (fun c hc => ?_) ?_
  · rw [hgraph, Graph.block_close]
    exact ⟨hc, rfl⟩
  · rw [hreturns, h.returns, hgraph, hb.leaves_close hlt]

theorem finish (h : LogAgrees chain s) (hb : s.graph.Opened b) (hx : x ≠ .leave) :
    LogAgrees chain (finishBlock b x s) :=
  h.close hb rfl rfl rfl (by rw [if_neg hx]; rfl)

/-- The first block of the agenda comes next in the order of parsing, and that is told if it has code. -/
theorem visit {n : Nat} {rest : List (BlockId × Nat)} (h : LogAgrees (c :: outer) s)
    (hagenda : c.agenda.entries = (b, n) :: rest) (hqueued : (s.graph.block b).queued = true)
    (hnew : b ∉ s.graph.order.toList) (hexit : (s.graph.block b).exit = none)
    (hgraph : t.graph = s.graph.visit b)
    (hlog : t.log.toList = s.log.toList ++ if (s.graph.block b).flags.defaultHandler then []
      else [.parsing b (s.graph.block b).site.index c.label]) :
    LogAgrees ({ c with agenda := ⟨rest⟩ } :: outer) t := by
  have hflags : ∀ d, ((s.graph.visit b).block d).flags = (s.graph.block d).flags :=
    Graph.proj_visit Block.flags fun _ => rfl
  have horder : (s.graph.visit b).order.toList = s.graph.order.toList ++ [b] := Array.toList_push
  have hannounced := h.waits 0 c rfl b (by rw [hagenda]; exact List.mem_cons_self)
  have hcode : t.graph.codeOrder =
      s.graph.codeOrder ++ if (s.graph.block b).flags.defaultHandler then [] else [b] := by
    unfold Graph.codeOrder
    rw [hgraph, horder, List.filter_append]
    simp only [hflags, List.filter_cons, List.filter_nil]
    cases (s.graph.block b).flags.defaultHandler <;> rfl
  generalize hagrees : (if (s.graph.block b).flags.defaultHandler then ([] : List Event)
    else [.parsing b (s.graph.block b).site.index c.label]) = told at hlog
  have haround : ∀ opened, Transcript.around opened told = some opened := by
    intro opened
    rw [← hagrees]
    split <;> rfl
  constructor
  · rw [hlog, around_append, h.around]
    exact haround _
  · rw [hlog, ← hagrees]
    split
    · rw [List.append_nil]
      exact h.faithful
    · refine h.faithful.concat ⟨⟨_, h.around⟩, fun hmem => hnew ?_, hannounced⟩
      rw [h.parsed] at hmem
      exact (List.mem_filter.1 hmem).1
  · intro k c' hc' d hd
    rw [hlog]
    cases k with
    | zero =>
      cases hc'
      have hd' : d ∈ c.agenda.entries.map Prod.fst := by rw [hagenda]; exact List.mem_cons_of_mem _ hd
      exact (h.waits 0 c rfl d hd').append (haround _)
    | succ k => exact (h.waits (k + 1) c' hc' d hd).append (haround _)
  · intro d hd
    have hnone : Transcript.scheduled told = [] := by rw [← hagrees]; split <;> rfl
    rw [hlog, scheduled_append, hnone, List.append_nil] at hd
    rw [hgraph, Graph.proj_visit Block.queued fun _ => rfl]
    exact h.scheduled d hd
  · intro d hd
    rw [hgraph, horder, List.mem_append, List.mem_singleton] at hd
    rw [hgraph, Graph.proj_visit Block.queued fun _ => rfl]
    exact hd.elim (h.queued d) fun he => he ▸ hqueued
  · rw [hlog, parsed_append, h.parsed, hcode, ← hagrees]
    split <;> rfl
  · have hreturns : Chain.returns ({ c with agenda := ⟨rest⟩ } :: outer) = Chain.returns (c :: outer) :=
      Chain.returns_congr rfl
    unfold Graph.leaves
    rw [hreturns, h.returns, hgraph, horder, List.countP_append, List.countP_singleton]
    simp [Graph.leaves, Graph.proj_visit Block.exit fun _ => rfl, hexit]

end Assembly.LogAgrees

end BlockGraph
