import BlockGraph.Proofs.Nesting
import BlockGraph.Proofs.Transcript.Agreement

/-!
# Transcripts are faithful

While the graph of a method is made the transcript tells the chain of contexts, what waits in them and what
has been parsed, after each step and where a step fails. Main statement: `transcript_faithful`.
-/

namespace BlockGraph

open Assembly Transcript

variable {m : Method} {pool : ConstantPool} {o : Options} {st : Setting} {home : Homes} {path : List BlockId}
  {s t : Assembly} {b : BlockId} {c : Context} {outer : List Context} {label : ContextLabel}

/-! ## While a block is open -/

theorem Context.map_logged_of_withoutCopies {chain chain' : List Context}
    (h : chain'.map withoutCopies = chain.map withoutCopies) : chain'.map logged = chain.map logged := by
  have hsame : logged ∘ withoutCopies = logged := by
    funext c
    simp [logged, label, withoutCopies, Function.comp_def]
  have := congrArg (List.map logged) h
  rwa [List.map_map, List.map_map, hsame] at this

theorem map_logged_modifyInnermost {f : Context → Context} (hf : ∀ c, (f c).logged = c.logged) (s : Assembly) :
    (s.modifyInnermost f).chain.map Context.logged = s.chain.map Context.logged ∧
      (s.modifyInnermost f).log = s.log ∧ (s.modifyInnermost f).graph = s.graph := by
  unfold modifyInnermost
  cases hchain : s.chain with
  | nil => rw [hchain]; exact ⟨rfl, rfl, rfl⟩
  | cons c outer => exact ⟨congrArg (· :: outer.map Context.logged) (hf c), rfl, rfl⟩

/-- Block `b` is open, and the transcript agrees with the whole chain. -/
structure Assembly.OpenLogAgrees (b : BlockId) (s : Assembly) : Prop where
  agrees : LogAgrees s.chain s
  opened : s.graph.Opened b
  nonempty : s.chain ≠ []

/-- Block `b` is open, and the transcript agrees with the chain but for the innermost context, in which
nothing waits. -/
def Assembly.OuterLogAgrees (b : BlockId) (label : ContextLabel) (s : Assembly) : Prop :=
  ∃ inner outer, s.chain = inner :: outer ∧ inner.label = label ∧ inner.agenda = {} ∧
    inner.isSubroutine = true ∧ outer ≠ [] ∧ LogAgrees outer s ∧ s.graph.Opened b

theorem Assembly.OpenLogAgrees.spare (h : s.OpenLogAgrees b) (hlog : s.Remarks t)
    (hchain : t.chain.map Context.logged = s.chain.map Context.logged) (hgraph : s.graph.Spares t.graph) :
    t.OpenLogAgrees b where
  agrees := h.agrees.spare hlog hchain hgraph
  opened := h.opened.of_spares hgraph h.agrees.queued
  nonempty hnil := h.nonempty (by rw [hnil] at hchain; exact List.map_eq_nil_iff.1 hchain.symm)

theorem Assembly.OuterLogAgrees.spare (h : s.OuterLogAgrees b label) (hlog : s.Remarks t)
    (hchain : t.chain.map Context.logged = s.chain.map Context.logged) (hgraph : s.graph.Spares t.graph) :
    t.OuterLogAgrees b label := by
  obtain ⟨inner, outer, hs, hlabel, hagenda, hsub, houter, hagrees, hopened⟩ := h
  rw [hs] at hchain
  obtain ⟨inner', outer', ht, hsame, hrest⟩ := List.map_eq_cons_iff.1 hchain
  have hlabel' : inner'.label = inner.label := congrArg Prod.fst hsame
  have hsub' : inner'.isSubroutine = inner.isSubroutine := by
    have := congrArg (fun l : ContextLabel => l.entry.isSome) hlabel'
    simpa [Context.label, Context.isSubroutine] using this
  refine ⟨inner', outer', ht, hlabel'.trans hlabel,
    (congrArg (fun x : ContextLabel × Agenda × Nat => x.2.1) hsame).trans hagenda, hsub'.trans hsub, fun hnil => ?_,
    hagrees.spare hlog hrest hgraph, hopened.of_spares hgraph hagrees.queued⟩
  rw [hnil] at hrest
  exact houter (List.map_eq_nil_iff.1 hrest.symm)

theorem steady_of_spare {P : Assembly → Prop} (h : ∀ {s t : Assembly}, P s → s.Remarks t →
    t.chain.map Context.logged = s.chain.map Context.logged → s.graph.Spares t.graph → P t) : Steady P where
  onlyCopies hcopies hs := h hs hcopies.log (Context.map_logged_of_withoutCopies hcopies.chain) hcopies.graph.spares
  setHandlers hs hP := by
    obtain ⟨hchain, hlog, hgraph⟩ := map_logged_modifyInnermost (f := fun c =>
      { c with subroutine := c.subroutine.map ({ · with handlers := hs }) }) (fun c => by
        simp [Context.logged, Context.label, Function.comp_def]) _
    exact h hP (.of_eq hlog) hchain (hgraph ▸ .refl _)
  note he hP := h hP (.note _ he) rfl (.refl _)

theorem steady_outerLogAgrees (b : BlockId) (label : ContextLabel) : Steady (OuterLogAgrees b label) :=
  steady_of_spare OuterLogAgrees.spare

theorem spares_schedule (d : BlockId) (s : Assembly) : s.graph.Spares (schedule d s).graph := by
  unfold schedule
  cases s.chain with
  | nil => exact .refl _
  | cons c outer =>
    simp only
    split
    · exact .refl _
    · exact Graph.spares_enqueue _ _

theorem schedule_ne_nil (h : s.chain ≠ []) (d : BlockId) : (schedule d s).chain ≠ [] := by
  unfold schedule
  split
  · exact h
  · simp only
    split
    · exact h
    · exact List.cons_ne_nil _ _

theorem Assembly.OpenLogAgrees.append (h : s.OpenLogAgrees b) (site : Site) (opcode : Opcode) :
    (appendInstr b site opcode s).OpenLogAgrees b := h.spare (.of_eq rfl) rfl (Graph.spares_append _ _ _ _)

theorem Assembly.OpenLogAgrees.modifyInnermost (h : s.OpenLogAgrees b) {f : Context → Context}
    (hf : ∀ c, (f c).logged = c.logged) :
    (s.modifyInnermost f).OpenLogAgrees b := by
  obtain ⟨hchain, hlog, hgraph⟩ := map_logged_modifyInnermost hf s
  exact h.spare (.of_eq hlog) hchain (hgraph ▸ .refl _)

theorem lasting_openLogAgrees (b : BlockId) : Lasting b (OpenLogAgrees b) where
  toSteady := steady_of_spare OpenLogAgrees.spare
  schedule hd h := ⟨h.agrees.schedule hd, h.opened.of_spares (spares_schedule _ _) h.agrees.queued,
    schedule_ne_nil h.nonempty _⟩
  link _ h := h.spare (.of_eq rfl) rfl (Graph.spares_addHandlerEdge _ _ _)
  moveCursor _ h := h.modifyInnermost fun _ => rfl
  keepLocal _ h := h.modifyInnermost fun _ => rfl

/-- The transcript agrees with some chain. -/
def Assembly.LogAgreesWithSome (_ : Fault) (s : Assembly) : Prop := ∃ chain, LogAgrees chain s

theorem Inv.parseInstr_logAgrees (h : Inv st home path s) (hs : LogAgrees s.chain s) (hb : s.current = some b) :
    Yields (Assembly.parseInstr o b) s (fun _ t => LogAgrees t.chain t) LogAgreesWithSome := by
  obtain ⟨c, outer, hchain⟩ := h.base.contexts.exists_cons
  obtain ⟨bci, before, i, hh⟩ := h.opened b hb
  obtain ⟨pre, hlast⟩ := hh.last
  have hopened : s.graph.Opened b := by
    refine ⟨⟨pre, hlast, fun hmem => ?_⟩, (h.base.queue.current b hb).2⟩
    have hnodup := h.base.queue.nodup
    rw [hlast, List.nodup_append] at hnodup
    exact hnodup.2.2 b hmem b (List.mem_singleton_self b) rfl
  have hholds : HoldsBounded (OpenLogAgrees b) s := ⟨⟨hs, hopened, by rw [hchain]; simp⟩, h.base.within.bounded⟩
  have hbad : ∀ (fault : Fault) (t : Assembly), t.OpenLogAgrees b → LogAgreesWithSome fault t :=
    fun _ _ ht => ⟨_, ht.agrees⟩
  refine parseInstr_yields (lasting_openLogAgrees b) (lasting_openLogAgrees b) hholds hchain
    (fun t ht => ht.append _ _)
    (fun x t hx ht => ht.agrees.finish ht.opened hx)
    (fun t ht => ht.agrees.close (x := .leave) ht.opened rfl rfl (Chain.map_countReturn _ (fun _ _ => rfl) _)
      (Chain.returns_countReturn ht.nonempty))
    (fun entry back t ht => ?_) (fun t ht => ht.agrees) hbad hbad
  refine callSubroutine_yields (lasting_openLogAgrees b).toSteady (steady_outerLogAgrees b)
    (lasting_openLogAgrees b).toSteady
    (fun inner u hinner hu => ?_) (fun label u hu => ?_) (fun first back u hu hlt => ?_) hbad (fun label _ u hu => ?_)
    hbad ht entry back
  · exact ⟨inner, u.chain, rfl, rfl, hinner.agenda, hinner.isSubroutine, hu.nonempty,
      hu.agrees.spare (.of_eq rfl) rfl (.refl _), hu.opened⟩
  · obtain ⟨inner, outer, hu, rfl, hagenda, hsub, houter, hagrees, hopened⟩ := hu
    exact ⟨hu ▸ hagrees.push houter hagenda hsub, hopened, hu ▸ List.cons_ne_nil _ _⟩
  · have hclosed : LogAgrees u.chain (finishBlock b (.jsr first back) u) := hu.agrees.finish hu.opened (by simp)
    exact hclosed.schedule (s := finishBlock b (.jsr first back) u) (by rwa [finishBlock, Graph.size_close])
  · obtain ⟨_, outer, -, -, -, -, -, hagrees, -⟩ := hu
    exact ⟨outer, hagrees⟩

/-! ## Contexts and blocks that come and go -/

theorem Inv.closeContext_logAgrees (h : Inv st home path s) (hs : LogAgrees s.chain s) :
    Yields Assembly.closeContext s (fun _ t => LogAgrees t.chain t) LogAgreesWithSome := by
  have hcontexts := h.base.contexts
  unfold Yields Assembly.closeContext
  cases hchain : s.chain with
  | nil => exact ⟨_, hs⟩
  | cons c outer =>
    cases outer with
    | nil => exact hs
    | cons d outer =>
      rw [hchain] at hs hcontexts
      have hsub : c.isSubroutine = true := by
        cases hcontexts with
        | @call _ _ j path hfits _ =>
          obtain ⟨sub, hsub, -⟩ := hfits.copies j rfl
          rw [Context.isSubroutine, hsub]; rfl
      have hpopped : LogAgrees (d :: outer) { s.note (.popped c.label) with chain := d :: outer } :=
        (hs.pop (List.cons_ne_nil d outer) hsub).spare (.of_eq rfl) rfl (.refl _)
      cases hresume : c.resume with
      | none =>
        simp only [hresume]
        exact hpopped
      | some r =>
        simp only [hresume]
        by_cases hnone : ((s.note (.popped c.label)).graph.block r).predecessors.isEmpty = true
        · rw [if_pos hnone]
          exact hpopped
        · rw [if_neg hnone]
          exact hpopped.schedule
            ((h.base.within.contexts c (by rw [hchain]; exact List.mem_cons_self)).resume r hresume)

theorem Inv.openBlock_logAgrees {n : Nat} {rest : List (BlockId × Nat)} (h : Inv st home path s)
    (hs : LogAgrees s.chain s) (hchain : s.chain = c :: outer) (hagenda : c.agenda.entries = (b, n) :: rest) :
    Yields (Assembly.openBlock m o b) { s with chain := { c with agenda := ⟨rest⟩ } :: outer }
      (fun _ t => LogAgrees t.chain t) LogAgreesWithSome := by
  obtain ⟨-, hqueued, hnew⟩ := (hchain ▸ h.base.queue.agendas).head.fits b (by rw [hagenda]; simp)
  obtain ⟨hexit, -, -⟩ := h.base.queue.fresh b hnew
  have hnot : b ∉ s.graph.order.toList := fun hmem => by
    rw [h.base.queue.mem_order, hnew] at hmem
    cases hmem
  have hagrees : LogAgrees (c :: outer) s := hchain ▸ hs
  have hopened : (s.graph.visit b).Opened b :=
    ⟨⟨_, Array.toList_push, hnot⟩, (Graph.proj_visit Block.exit (fun _ => rfl) b).trans hexit⟩
  have hflags : ((s.graph.visit b).block b).flags = (s.graph.block b).flags :=
    Graph.proj_visit Block.flags (fun _ => rfl) b
  have hsite : ((s.graph.visit b).block b).site = (s.graph.block b).site :=
    Graph.proj_visit Block.site (fun _ => rfl) b
  unfold Assembly.openBlock
  rw [yields_bind, yields_modify, yields_bind, yields_get]
  split
  · exact ⟨c :: outer, hagrees.spare (.note _ rfl) rfl (Graph.spares_visited _ _)⟩
  · rw [yields_bind, yields_modify, yields_bind, yields_get]
    show Yields (if ((s.graph.visit b).block b).flags.defaultHandler = true then _ else _) _ _ _
    rw [hflags]
    split
    · rename_i hdefault
      rw [yields_modify]
      have hvisited : OpenLogAgrees b { s with
          graph := s.graph.visit b
          chain := { c with agenda := ⟨rest⟩ } :: outer
          parsedBlocks := s.parsedBlocks + 1 } :=
        ⟨hagrees.visit hagenda hqueued hnot hexit rfl (by rw [if_pos hdefault, List.append_nil]), hopened,
          List.cons_ne_nil _ _⟩
      have happended := (hvisited.append .unlock .monitorexit).append .unlock .athrow
      exact happended.agrees.finish happended.opened (by simp)
    · rename_i hcode
      rw [yields_bind, yields_innermost rfl, yields_bind, yields_modify, yields_bind]
      have hvisited : ∀ cursor current, LogAgrees ({ c with agenda := ⟨rest⟩, cursor := cursor } :: outer) { s with
          graph := s.graph.visit b
          log := s.log.push (.parsing b ((s.graph.visit b).block b).site.index c.label)
          chain := { c with agenda := ⟨rest⟩, cursor := cursor } :: outer
          current := current
          parsedBlocks := s.parsedBlocks + 1 } := by
        intro cursor current
        refine (hagrees.visit hagenda hqueued hnot hexit (t := { s with
          graph := s.graph.visit b
          log := s.log.push (.parsing b ((s.graph.visit b).block b).site.index c.label) }) rfl ?_).spare
            (.of_eq rfl) rfl (.refl _)
        rw [if_neg hcode, ← hsite]
        exact Array.toList_push
      unfold Yields withCursor
      simp only [note]
      cases Cursor.moveTo _ c.cursor with
      | error fault cursor => exact ⟨_, hvisited cursor s.current⟩
      | ok opcode cursor => exact hvisited cursor (some b)

theorem Inv.step_logAgrees (h : Inv st home path s) (hs : LogAgrees s.chain s) :
    Yields (Assembly.step m o) s (fun _ t => LogAgrees t.chain t) LogAgreesWithSome := by
  cases hcurrent : s.current with
  | some b => exact (yields_step_some hcurrent).2 (h.parseInstr_logAgrees hs hcurrent)
  | none =>
    obtain ⟨c, outer, hchain⟩ := h.base.contexts.exists_cons
    cases hentries : c.agenda.entries with
    | nil =>
      rw [h.base.yields_step_nil hcurrent hchain hentries]
      exact h.closeContext_logAgrees hs
    | cons e rest =>
      rw [h.base.yields_step_cons hcurrent hchain hentries]
      exact h.openBlock_logAgrees hs hchain hentries

/-! ## Runs -/

theorem Inv.run_logAgrees : ∀ {fuel : Nat} {home : Homes} {path : List BlockId} {s : Assembly},
    Inv st home path s → LogAgrees s.chain s →
    Yields (Assembly.run m o fuel) s (fun _ t => st.Done t ∧ LogAgrees t.chain t) LogAgreesWithSome
  | 0, _, _, _, _, hs => ⟨_, hs⟩
  | fuel + 1, _, _, s, h, hs => by
    unfold Assembly.run
    refine Yields.bind ((h.step.and (h.step_logAgrees hs)).mono (fun _ _ ht => ht) fun _ _ ht => ht.2) ?_
    rintro done t ⟨ht, hagrees⟩
    cases done with
    | true => exact ⟨ht, hagrees⟩
    | false =>
      obtain ⟨home', path', ht⟩ := ht
      exact ht.run_logAgrees hagrees

/-! ## The beginning and the end -/

/-- Nothing has been parsed, only remarks have been made, and there are at least `n` blocks. -/
structure Assembly.Outset (n : Nat) (s : Assembly) : Prop where
  chain : s.chain = []
  order : s.graph.order = #[]
  remarks : ∀ e ∈ s.log.toList, e.isRemark = true
  size : n ≤ s.graph.blocks.size

theorem Assembly.Outset.agrees {n : Nat} (h : s.Outset n) : LogAgrees [] s where
  around := around_of_isRemark h.remarks
  faithful := faithful_nil.append h.remarks
  waits k c hc := by cases hc
  scheduled b hb := by rw [scheduled_of_isRemark h.remarks] at hb; cases hb
  queued b hb := by rw [h.order] at hb; cases hb
  parsed := by rw [parsed_of_isRemark h.remarks, Graph.codeOrder, h.order]; rfl
  returns := by rw [Graph.leaves, h.order]; rfl

theorem Assembly.Outset.note {n : Nat} {e : Event} (h : s.Outset n) (he : e.isRemark = true) :
    (s.note e).Outset n := by
  refine ⟨h.chain, h.order, fun e' he' => ?_, h.size⟩
  rw [show (s.note e).log.toList = s.log.toList ++ [e] from Array.toList_push] at he'
  rcases List.mem_append.1 he' with he' | he'
  · exact h.remarks e' he'
  · exact List.mem_singleton.1 he' ▸ he

theorem declareHandlers_outset {scope : ScopeId} {table : BlockTable} {n : Nat} :
    ∀ (l : List Handler) {s : Assembly}, s.Outset n →
    Yields (declareHandlers pool scope table l) s (fun _ t => t.Outset n) LogAgreesWithSome
  | [], _, h => h
  | x :: rest, s, h => by
    rw [declareHandlers]
    cases x.entryIndex?.bind table.get with
    | none => exact ⟨_, h.agrees⟩
    | some entry =>
      simp only
      rw [yields_bind, yields_modify]
      have hnoted := h.note (e := .handler (pool.caughtName x.catchType) x.first x.limit entry) rfl
      exact declareHandlers_outset rest ⟨hnoted.chain, hnoted.order, hnoted.remarks, hnoted.size⟩

theorem Assembly.Outset.declareUnlock {n : Nat} (h : s.Outset n) (scope : ScopeId) :
    (declareUnlock m scope s).Outset n := by
  have hnoted := h.note (e := .unlockHandler s.graph.blocks.size) rfl
  refine ⟨hnoted.chain, hnoted.order, hnoted.remarks, Nat.le_trans h.size ?_⟩
  show s.graph.blocks.size ≤ (s.graph.newBlock (unlockBlock s.graph)).2.blocks.size
  rw [Graph.size_newBlock]
  exact Nat.le_succ _

/-- The outermost context is put on the chain with the block at the beginning, and both is told. -/
theorem Assembly.Outset.enter {n : Nat} {start : BlockId} {scope : ScopeId} {table : BlockTable} (h : s.Outset n)
    (hstart : start < n) : Yields (do
      modify fun s => { s with graph := { s.graph with start := some start } }
      let root := (← get).newContext scope table (.ofCode m.code) pool o
      modify fun s => (s.note (.pushed root.label)).push root
      modify (schedule start)) s (fun _ t => LogAgrees t.chain t) LogAgreesWithSome := by
  rw [yields_bind, yields_modify, yields_bind, yields_get]
  simp only
  rw [yields_bind, yields_modify, yields_modify]
  let started : Assembly := { s with graph := { s.graph with start := some start } }
  let root := started.newContext scope table (.ofCode m.code) pool o
  have houtset : started.Outset n := ⟨h.chain, h.order, h.remarks, h.size⟩
  have hroot : LogAgrees [root] (started.note (.pushed root.label)) := by
    refine houtset.agrees.tell ⟨rfl, rfl⟩ rfl (fun k c hc b hb => ?_) rfl
    cases k with
    | zero => cases hc; cases hb
    | succ k => cases hc
  have hpushed : LogAgrees (root :: s.chain) ((started.note (.pushed root.label)).push root) := by
    rw [h.chain]
    exact hroot.spare (.of_eq rfl) rfl (.refl _)
  exact hpushed.schedule (Nat.lt_of_lt_of_le hstart h.size)

theorem prepare_logAgrees : Yields (prepare m pool o) {} (fun _ t => LogAgrees t.chain t) LogAgreesWithSome := by
  have hbegun : (begun m).Outset 0 := ⟨rfl, rfl, by simp [begun, Event.isRemark], Nat.zero_le _⟩
  unfold prepare
  rw [yields_bind, yields_modify, yields_bind, yields_modifyGet]
  show Yields _ (begun m) _ _
  rw [yields_bind, yields_ofExcept]
  cases hsurvey : Survey.ofMethod m.code m.handlers with
  | error fault =>
    rw [layout, hsurvey]
    exact ⟨_, hbegun.agrees⟩
  | ok v =>
    obtain ⟨hplaced, -⟩ := Survey.declared hsurvey
    rw [show layout m.code m.handlers = .ok v.layout by rw [layout, hsurvey]; rfl]
    simp only
    rw [yields_bind, yields_modifyGet]
    generalize (begun m).graph.place (.blank m.code.size) v.layout = p at *
    obtain ⟨g, table⟩ := p
    let placed : Assembly := { begun m with
      graph := g, log := (begun m).log ++ (Start.events v.layout m.code.size).toArray }
    have hlaid : placed.Outset g.blocks.size := by
      refine ⟨rfl, hplaced.order, fun e he => ?_, Nat.le_refl _⟩
      rcases List.mem_append.1 (Array.toList_append ▸ he) with he | he
      · exact hbegun.remarks e he
      · simp only [Start.events, List.mem_append, List.mem_map, List.mem_singleton] at he
        rcases he with ⟨_, -, rfl⟩ | rfl <;> rfl
    show Yields _ placed _ _
    refine (declareHandlers_outset m.handlers hlaid).bind fun _ t ht => ?_
    cases hstart : table.get 0 with
    | none =>
      split
      · exact ⟨_, (ht.declareUnlock _).agrees⟩
      · exact ⟨_, ht.agrees⟩
    | some start =>
      have hlt := ((hplaced.get_iff 0 start).1 hstart).1
      split
      · rw [yields_bind, yields_modify]
        exact (ht.declareUnlock _).enter hlt
      · exact ht.enter hlt

/-! ## Whole transcripts -/

/-- A transcript tells all of the making of a graph. -/
structure Transcript.Complete (l : List Event) (g : Graph) (name : String) : Prop where
  wellNested : WellNested l
  faithful : Faithful l
  parsed : parsed l = g.codeOrder
  last : l.getLast? = some (.finished g.order.size g.leaves name)

/-- In the end the outermost context is popped, and the last entry counts what has been parsed. -/
theorem Assembly.LogAgrees.complete (h : LogAgrees [c] s) (name : String) : Complete
    (s.log.toList ++ [.popped c.label] ++ [.finished s.graph.order.size s.graph.leaves name]) s.graph name where
  wellNested := by
    have hpopped : Transcript.around ([c].map Context.label) [.popped c.label] = some [] := around_popped [c.label]
    rw [WellNested, around_append, around_append, h.around, Option.bind_some, hpopped]
    rfl
  faithful := (h.faithful.concat (e := .popped c.label) trivial).concat
    (e := .finished s.graph.order.size s.graph.leaves name) trivial
  parsed := by
    rw [parsed_append, parsed_append, h.parsed]
    exact (List.append_nil _).trans (List.append_nil _)
  last := List.getLast?_concat

theorem Setting.Done.conclude_logAgrees (h : st.Done s) (hs : LogAgrees s.chain s) :
    Yields (conclude m) s (fun _ t => Complete t.log.toList t.graph m.name) LogAgreesWithSome := by
  obtain ⟨home, hinv, -, -⟩ := h
  obtain ⟨c, hchain⟩ : ∃ c, s.chain = [c] := by
    have hcontexts := hinv.base.contexts
    generalize s.chain = chain at hcontexts ⊢
    cases hcontexts with
    | root hc => exact ⟨_, rfl⟩
  have hreturns := hs.returns
  have hcounted : s.parsedBlocks = s.graph.order.size := hinv.base.queue.counted
  rw [hchain] at hs
  unfold conclude
  rw [yields_bind, yields_innermost hchain, yields_bind, yields_get, yields_bind, yields_modify, yields_modify,
    hreturns]
  have hlog : ((s.log.push (.popped c.label)).push (.finished s.graph.order.size s.graph.leaves m.name)).toList =
      s.log.toList ++ [.popped c.label] ++ [.finished s.graph.order.size s.graph.leaves m.name] := by
    rw [Array.toList_push, Array.toList_push]
  show Complete ((s.log.push (.popped c.label)).push
    (.finished s.parsedBlocks s.graph.leaves m.name)).toList s.graph m.name
  rw [hcounted, hlog]
  exact hs.complete m.name

theorem assemble_logAgrees : Yields (assemble m pool o) {}
    (fun _ t => Complete t.log.toList t.graph m.name) LogAgreesWithSome := by
  unfold assemble
  refine Yields.bind ((prepare_spec.and prepare_logAgrees).mono (fun _ _ h => h) fun _ _ h => h.2) ?_
  rintro - s ⟨⟨st, home, -, hinv, -⟩, hagrees⟩
  exact (hinv.run_logAgrees hagrees).bind fun _ t ht => ht.1.conclude_logAgrees ht.2

/-- **The transcript is faithful, and well nested.** Whether a graph is built or not, the contexts that are said to
be pushed and popped begin a well-nested sequence. Where a block is said to be scheduled or parsed, the innermost open
context is named; neither is said of a block twice, and a block that is parsed was scheduled between the same
push and pop. If a graph is built, the sequence is well nested, the blocks that are said to be parsed are those of
the order of parsing that have code, in that order, and the last entry counts the blocks of that order and
those of them where control leaves the method. -/
theorem transcript_faithful (m : Method) (pool : ConstantPool) (o : Options) :
    (∃ rest, WellNested (transcript m pool o ++ rest)) ∧ Faithful (transcript m pool o) ∧
    ∀ g, build m pool o = .ok g → WellNested (transcript m pool o) ∧
      parsed (transcript m pool o) = g.codeOrder ∧
      (transcript m pool o).getLast? = some (.finished g.order.size g.leaves m.name) := by
  have hagrees : Yields (assemble m pool o) {} _ _ := assemble_logAgrees
  unfold transcript build
  unfold Yields at hagrees
  rw [show (assemble m pool o).run {} = assemble m pool o {} from rfl]
  cases hassemble : assemble m pool o {} with
  | ok a t =>
    rw [hassemble] at hagrees
    refine ⟨⟨[], by rw [List.append_nil]; exact hagrees.wellNested⟩, hagrees.faithful, fun g hg => ?_⟩
    cases hg
    exact ⟨hagrees.wellNested, hagrees.parsed, hagrees.last⟩
  | error fault t =>
    rw [hassemble] at hagrees
    obtain ⟨chain, hagrees⟩ := hagrees
    exact ⟨⟨_, wellNested_of_around hagrees.around⟩, hagrees.faithful, nofun⟩

/-- Two subroutines are open, one inside the other. -/
theorem innerStore_transcript : ∃ g, build innerStore {} {} = .ok g ∧ WellNested (transcript innerStore {} {}) ∧
    parsed (transcript innerStore {} {}) = [0, 5, 8, 6, 1] ∧
    (transcript innerStore {} {}).getLast? = some (.finished 5 1 "inner") := by
  obtain ⟨g, hbuild, hgraph⟩ := exists_build_of_any innerStore {} {}
    (fun g => g.codeOrder = [0, 5, 8, 6, 1] ∧ g.order.size = 5 ∧ g.leaves = 1) (by decide +kernel)
  obtain ⟨horder, hsize, hleaves⟩ := of_decide_eq_true hgraph
  obtain ⟨hnested, hparsed, hlast⟩ := (transcript_faithful innerStore {} {}).2.2 g hbuild
  rw [hsize, hleaves] at hlast
  exact ⟨g, hbuild, hnested, hparsed.trans horder, hlast⟩

end BlockGraph
