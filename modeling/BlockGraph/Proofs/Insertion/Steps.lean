import BlockGraph.Proofs.Insertion.Actions
import BlockGraph.Proofs.Runs

/-!
# Steps beside one more block

A step goes the same way with a block that unlocks put in, and the block is queued from the first
instruction on. Only when nothing else is left to do it is parsed as well. So a run that fails fails in the
same way, and a run that ends goes on by one block, if the limit on blocks allows that (`Inv.runs_gains`).
-/

namespace BlockGraph

open Assembly

variable {size : Nat} {n : BlockId} {queued : Bool} {st : Setting} {home : Homes} {path : List BlockId}
  {m m' : Method} {o : Options} {s s' t : Assembly} {b : BlockId} {c : Context} {outer : List Context}

/-! ## Edges to handlers -/

theorem Assembly.Gains.linkEntries : ∀ (entries : List BlockId) {s s' : Assembly}, s.Gains size n queued s' →
    (linkEntries b entries s).Gains size n queued (linkEntries (shift n b) (entries.map (shift n)) s')
  | [], _, _, h => h
  | d :: entries, s, s', h =>
    have hedge : Assembly.Gains size n queued { s with graph := s.graph.addHandlerEdge b d }
        { s' with graph := s'.graph.addHandlerEdge (shift n b) (shift n d) } :=
      ⟨h.graph.addHandlerEdge d, h.chain, h.current, h.parsedBlocks⟩
    linkEntries entries (hedge.schedule d)

/-- The last edge leads to the block that was put in. -/
theorem Assembly.Gains.linkEntries_unlock (h : s.Gains size n queued s') (entries : List BlockId) :
    (BlockGraph.linkEntries b entries s).Gains size n true
      (BlockGraph.linkEntries (shift n b) (entries.map (shift n) ++ [n]) s') := by
  unfold BlockGraph.linkEntries
  rw [List.foldl_append]
  have hlinked := h.linkEntries (b := b) entries
  have hedge : Assembly.Gains size n queued (BlockGraph.linkEntries b entries s)
      { BlockGraph.linkEntries (shift n b) (entries.map (shift n)) s' with
        graph := (BlockGraph.linkEntries (shift n b) (entries.map (shift n)) s').graph.addHandlerEdge
          (shift n b) n } :=
    ⟨hlinked.graph.addHandlerEdge_unlock, hlinked.chain, hlinked.current, hlinked.parsedBlocks⟩
  exact hedge.schedule_unlock

theorem Assembly.Gains.visibleHandlers (h : s.Gains size n queued s') (hscope : c.scope = 0)
    (waiting : List (BlockId × Nat)) : (c.shift size n waiting).visibleHandlers s'.graph =
      (c.visibleHandlers s.graph).map fun hs => hs.map (Handler.shift n) ++ [.unlocking size n] := by
  have hsub' : (c.shift size n waiting).subroutine = c.subroutine.map (Subroutine.shift size n) := rfl
  unfold Context.visibleHandlers
  cases hsub : c.subroutine with
  | none =>
    simp only [hsub', hsub, Option.map_none]
    have hscope' : (c.shift size n waiting).scope = 0 := hscope
    rw [hscope, hscope', h.graph.declared]
    rfl
  | some sub =>
    simp only [hsub', hsub, Option.map_some, Subroutine.shift]
    cases sub.handlers <;> rfl

theorem entries_shift (hs : List Handler) {bci : Nat} (hbci : bci < size) :
    ((hs.map (Handler.shift n) ++ [Handler.unlocking size n]).filter (·.protects bci)).filterMap (·.entry) =
      ((hs.filter (·.protects bci)).filterMap (·.entry)).map (shift n) ++ [n] := by
  have hprotects : (Handler.unlocking size n).protects bci = true := by
    simp [Handler.unlocking, Handler.protects, hbci]
  have hentries : ((hs.map (Handler.shift n)).filter (·.protects bci)).filterMap (·.entry) =
      ((hs.filter (·.protects bci)).filterMap (·.entry)).map (shift n) := by
    rw [List.filter_map, List.filterMap_map, List.map_filterMap]
    rfl
  have hlast : [Handler.unlocking size n].filter (·.protects bci) = [.unlocking size n] := by simp [hprotects]
  rw [List.filter_append, List.filterMap_append, hentries, hlast]
  rfl

/-- An instruction gets the edges that it got without the block, and one to the block. -/
theorem Assembly.Gains.linkHandlers (hs : s.Gains size n queued s') (h : Inv st home path s) {bci : Nat}
    (hbci : bci < size) : Pairs (Assembly.linkHandlers b bci) (Assembly.linkHandlers (shift n b) bci) s s'
      fun _ t _ t' => t.Gains size n true t' := by
  obtain ⟨c, outer, waiting, outer', hchain, hchain', hscope, -⟩ := hs.exists_cons
  have hfits := (hchain ▸ h.base.contexts).head
  obtain ⟨handlers, hvisible, hsees⟩ := exists_visibleHandlers h.base.laid hfits (hchain ▸ h.calls).head
  have hleft : Yields (Assembly.linkHandlers b bci) s (fun _ t => t = BlockGraph.linkEntries b
      ((handlers.filter (·.protects bci)).filterMap (·.entry)) s) fun _ _ => False := by
    unfold Assembly.linkHandlers
    rw [yields_bind, yields_innermost hchain]
    split
    · rw [yields_bind, yields_get, yields_bind, yields_ofExcept, hvisible]
      rfl
    · rename_i hguarded
      -- a context that is not guarded sees no handlers
      have hnone : st.handlers = [] := by
        rw [hfits.guarded] at hguarded
        simpa using hguarded
      rw [hnone] at hsees
      cases hsees
      rw [yields_pure]
      rfl
  have hright : Yields (Assembly.linkHandlers (shift n b) bci) s' (fun _ t => t = BlockGraph.linkEntries (shift n b)
      (((handlers.filter (·.protects bci)).filterMap (·.entry)).map (shift n) ++ [n]) s') fun _ _ => False := by
    unfold Assembly.linkHandlers
    have hguarded : (c.shift size n waiting).guarded = true := rfl
    rw [yields_bind, yields_innermost hchain', if_pos hguarded, yields_bind, yields_get, yields_bind,
      yields_ofExcept, hs.visibleHandlers hscope, hvisible]
    show BlockGraph.linkEntries _ _ s' = _
    rw [entries_shift handlers hbci]
  refine .of_yields hleft hright (fun _ t _ t' ht ht' => ?_) (fun _ _ _ _ _ h => h) (fun _ _ _ _ h _ => h)
    fun _ _ _ _ h _ => h.elim
  rw [ht, ht']
  exact hs.linkEntries_unlock _

/-! ## Instructions -/

/-- A block leads to the start at an index. -/
theorem alike_goto (b : BlockId) (bci : Nat) : Alike size n queued
    (do
      let next ← scheduleAt bci
      modify (finishBlock b (.goto next)))
    (do
      let next ← scheduleAt bci
      modify (finishBlock (shift n b) (.goto next))) fun _ _ => True := by
  refine (alike_scheduleAt bci).bind_eq fun next => ?_
  exact alike_finish b (.goto next)

/-- A block goes on with the next instruction, or leads to the start that it reaches. -/
theorem alike_next (b : BlockId) (cursor : Cursor) : Alike size n queued
    (do
      if ((← innermost).table.get cursor.next).isSome then
        let next ← scheduleAt cursor.next
        modify (finishBlock b (.goto next))
      else if (← withCursor Cursor.advance).isNone then
        throw (.malformed cursor.position .fallsOff))
    (do
      if ((← innermost).table.get cursor.next).isSome then
        let next ← scheduleAt cursor.next
        modify (finishBlock (shift n b) (.goto next))
      else if (← withCursor Cursor.advance).isNone then
        throw (.malformed cursor.position .fallsOff)) fun _ _ => True := by
  refine alike_innermost.bind fun d _ hd => ?_
  obtain ⟨-, waiting, rfl⟩ := hd
  have htable : ((d.shift size n waiting).table.get cursor.next).isSome = (d.table.get cursor.next).isSome := by
    rw [Context.shift, BlockTable.get_map, Option.isSome_map]
  rw [htable]
  split
  · exact alike_goto b cursor.next
  · refine (alike_withCursor _).bind_eq fun opcode => ?_
    split
    · exact alike_throw _
    · exact alike_pure trivial

theorem Inv.parseInstr_gains (h : Inv st home path s) (hs : s.Gains st.method.code.size n queued s')
    (hb : s.current = some b) : Pairs (Assembly.parseInstr o b) (Assembly.parseInstr o (shift n b)) s s'
      fun _ t _ t' => t.Gains st.method.code.size n true t' := by
  obtain ⟨bci, before, i, hh⟩ := h.opened b hb
  obtain ⟨c, outer, waiting, outer', hchain, hchain', -⟩ := hs.exists_cons
  have hcursor : c.cursor = i.cursor st.method.code := hh.cursor c (by rw [hchain]; rfl)
  have hbci : c.cursor.position < st.method.code.size := by
    rw [hcursor]
    exact Survey.bci_lt st.surveyed hh.stretch.mem
  have hinnermost : Pairs innermost innermost s s' fun d t d' t' =>
      d = c ∧ t = s ∧ d' = c.shift st.method.code.size n waiting ∧ t' = s' := by
    simp only [Pairs, innermost, hchain, hchain']
    exact ⟨trivial, trivial, trivial, trivial⟩
  unfold Assembly.parseInstr
  refine hinnermost.bind fun d t d' t' hd => ?_
  obtain ⟨rfl, rfl, rfl, rfl⟩ := hd
  have hsame : (d.shift st.method.code.size n waiting).cursor = d.cursor := rfl
  simp only [hsame]
  refine (hs.linkHandlers h hbci).bind fun _ t _ t' ht => ?_
  refine Pairs.mono ((?_ : Alike st.method.code.size n true _ _ fun _ _ => True) t t' ht) fun _ _ _ _ h => h.2
  refine (alike_append b _ _).bind fun _ _ _ => ?_
  generalize d.cursor = cursor
  cases cursor.opcode.flow with
  | branch =>
    refine (alike_ofExcept _).bind_eq fun target => ?_
    refine (alike_scheduleAt target).bind_eq fun taken => ?_
    refine (alike_scheduleAt cursor.next).bind_eq fun notTaken => ?_
    exact alike_finish b (.branch taken notTaken)
  | goto =>
    refine (alike_ofExcept _).bind_eq fun target => ?_
    exact alike_goto b target
  | switch =>
    refine (alike_ofExcept _).bind_eq fun targets => ?_
    refine (alike_scheduleAt targets.1).bind_eq fun fallback => ?_
    refine (alike_scheduleAll targets.2).bind_eq fun cases => ?_
    exact alike_finish b (.switch fallback cases)
  | jsr =>
    refine (alike_ofExcept _).bind_eq fun target => ?_
    exact alike_callSubroutine o b target cursor.next
  | ret =>
    refine (alike_ofExcept _).bind_eq fun slot => ?_
    refine (alike_returnTarget slot).bind_eq fun target => ?_
    exact alike_finish b (.ret target)
  | leave => exact alike_countReturn.bind fun _ _ _ => alike_finish b .leave
  | throw => exact alike_finish b .throw
  | next =>
    cases cursor.opcode.writtenSlots? with
    | none => exact alike_next b cursor
    | some width =>
      refine (alike_ofExcept _).bind_eq fun slot => ?_
      exact (alike_trackStore _ _ slot width).bind fun _ _ _ => alike_next b cursor

/-! ## Blocks -/

theorem alike_openBlock (m m' : Method) (o : Options) (b : BlockId) : Alike size n queued
    (openBlock m o b) (openBlock m' o (shift n b)) fun _ _ => True := by
  unfold openBlock
  refine (alike_modify fun s s' hs => ?_).bind fun _ _ _ => ?_
  · exact ⟨hs.graph.visit, hs.chain, hs.current, congrArg (· + 1) hs.parsedBlocks⟩
  refine alike_get.bind fun s s' hs => ?_
  rw [hs.parsedBlocks]
  split
  · exact (alike_note _ _).bind fun _ _ _ => alike_throw_bind _
  · refine (alike_modify fun t t' ht => ?_).bind fun _ _ _ => ?_
    · exact ⟨ht.graph.pushOrder b, ht.chain, ht.current, ht.parsedBlocks⟩
    refine alike_get.bind fun t t' ht => ?_
    have hsite : (t'.graph.block (shift n b)).site = (t.graph.block b).site := ht.graph.site_eq b
    simp only [ht.graph.flags_eq, hsite]
    split
    · refine alike_modify fun u u' hu => ⟨?_, hu.chain, rfl, hu.parsedBlocks⟩
      exact ((hu.graph.append .unlock Opcode.monitorexit).append .unlock Opcode.athrow).close .throw
    · refine alike_innermost.bind fun c _ _ => (alike_note _ _).bind fun _ _ _ => ?_
      refine (alike_withCursor _).bind fun _ _ _ => alike_modify fun u u' hu => ?_
      exact ⟨hu.graph, hu.chain, rfl, hu.parsedBlocks⟩

theorem alike_closeContext :
    Alike size n queued closeContext closeContext fun done done' => done = done' := by
  rintro ⟨d, chain, current, parsed⟩ ⟨d', chain', current', parsed'⟩ ⟨hgraph, hchain, hcurrent, hparsed⟩
  cases hchain with
  | root hscope hagenda => exact ⟨rfl, hgraph, .root hscope hagenda, hcurrent, hparsed⟩
  | @call c outer outer' hscope hrest =>
    obtain ⟨e, inner, rfl⟩ := Chain.Gains.exists_head hrest
    obtain ⟨-, waiting, inner', rfl, -⟩ := Chain.Gains.exists_cons hrest
    have hpopped : Assembly.Gains size n true ⟨d.note (.popped c.label), e :: inner, current, parsed⟩
        ⟨d'.note (.popped (c.shift size n []).label), e.shift size n waiting :: inner', current', parsed'⟩ :=
      ⟨hgraph, hrest, hcurrent, hparsed⟩
    have hresume' : (c.shift size n []).resume = c.resume.map (shift n) := rfl
    cases hresume : c.resume with
    | none =>
      rw [hresume] at hresume'
      simp only [Pairs, closeContext, hresume, hresume', Option.map_none]
      exact ⟨trivial, hpopped⟩
    | some r =>
      rw [hresume] at hresume'
      have hleft : closeContext ⟨d, c :: e :: inner, current, parsed⟩ =
          if (d.graph.block r).predecessors.isEmpty then
            .ok false ⟨d.note (.popped c.label), e :: inner, current, parsed⟩
          else .ok false (schedule r ⟨d.note (.popped c.label), e :: inner, current, parsed⟩) := by
        simp only [closeContext, hresume]
        rfl
      have hright : closeContext ⟨d', c.shift size n [] :: e.shift size n waiting :: inner', current', parsed'⟩ =
          if (d'.graph.block (shift n r)).predecessors.isEmpty then
            .ok false
              ⟨d'.note (.popped (c.shift size n []).label), e.shift size n waiting :: inner', current', parsed'⟩
          else .ok false (schedule (shift n r)
            ⟨d'.note (.popped (c.shift size n []).label), e.shift size n waiting :: inner', current',
              parsed'⟩) := by
        simp only [closeContext, hresume', Option.map_some]
        rfl
      rw [Graph.Gains.predecessors_eq hgraph, List.isEmpty_map] at hright
      simp only [Pairs, hleft, hright]
      by_cases hnone : (d.graph.block r).predecessors.isEmpty = true
      · simp only [if_pos hnone]
        exact ⟨trivial, hpopped⟩
      · simp only [if_neg hnone]
        exact ⟨trivial, hpopped.schedule r⟩

/-! ## Steps -/

/-- Dropping from the front goes no further than to what is not dropped. -/
theorem dropWhile_map_append {α β : Type} {f : α → β} {p : α → Bool} {q : β → Bool} {waiting : List β}
    (hpq : ∀ a, q (f a) = p a) (hwaiting : ∀ e ∈ waiting, q e = false) :
    ∀ l : List α, (l.map f ++ waiting).dropWhile q = (l.dropWhile p).map f ++ waiting
  | [] => by
    cases waiting with
    | nil => rfl
    | cons e rest => simp [hwaiting e List.mem_cons_self]
  | a :: l => by
    have hrest := dropWhile_map_append hpq hwaiting l
    by_cases hp : p a = true
    · simp [hpq, hp, hrest]
    · simp [hpq, hp]

/-- The block that was put in is not dropped. -/
theorem Assembly.Gains.skipVisited (h : s.Gains size n queued s') :
    (Assembly.skipVisited s).Gains size n queued (Assembly.skipVisited s') := by
  obtain ⟨c, outer, waiting, outer', hchain, hchain', hscope, hwaiting, hexchange⟩ := h.exists_cons
  unfold Assembly.skipVisited modifyInnermost
  simp only [hchain, hchain']
  refine ⟨h.graph, ?_, h.current, h.parsedBlocks⟩
  have hskip := hexchange { c with agenda := c.agenda.skip fun b => (s.graph.block b).visited } hscope
    fun e he => .inl ((List.dropWhile_sublist _).subset he)
  have hentries : (c.agenda.entries.map (Prod.map (shift n) id) ++ waiting).dropWhile
      (fun e => (s'.graph.block e.1).visited) =
      (c.agenda.entries.dropWhile fun e => (s.graph.block e.1).visited).map (Prod.map (shift n) id) ++
        waiting := by
    refine dropWhile_map_append (f := Prod.map (shift n) id) (fun e => h.graph.visited_eq e.1) (fun e he => ?_) _
    rw [hwaiting e he]
    show (s'.graph.block n).visited = false
    rw [h.graph.unlock]
    rfl
  show Chain.Gains size n queued _ ({ c.shift size n waiting with agenda := ⟨_⟩ } :: outer')
  rw [Context.shift, hentries]
  exact hskip

/-- While no block is open, a step goes the same way, unless there is nothing left to do but to parse the block
that was put in. -/
theorem Assembly.Gains.step (hs : s.Gains size n queued s') (hcurrent : s.current = none) (m m' : Method)
    (o : Options) :
    Pairs (step m o) (step m' o) s s' (fun done t done' t' => done = done' ∧ t.Gains size n queued t') ∨
      ∃ c t t', step m o s = .ok true t ∧ step m' o s' = (openBlock m' o n >>= fun _ => pure false) t' ∧
        t.graph.Gains size n true t'.graph ∧ t'.parsedBlocks = t.parsedBlocks ∧ t'.chain = [c] ∧
        c.agenda.entries = [] := by
  have hcurrent' : s'.current = none := by rw [hs.current, hcurrent]; rfl
  have hskipped := hs.skipVisited
  have hstep := step_of_none (m := m) (o := o) hcurrent
  have hstep' := step_of_none (m := m') (o := o) hcurrent'
  generalize Assembly.skipVisited s = t at hskipped hstep
  generalize Assembly.skipVisited s' = t' at hskipped hstep'
  obtain ⟨c, outer, waiting, outer', hchain, hchain', hscope, hwaiting, hexchange⟩ := hskipped.exists_cons
  have hentries' : (c.shift size n waiting).agenda.entries =
      c.agenda.entries.map (Prod.map (shift n) id) ++ waiting := rfl
  cases hentries : c.agenda.entries with
  | cons e rest =>
    obtain ⟨b, number⟩ := e
    rw [hentries, List.map_cons, List.cons_append] at hentries'
    rw [takeNext_cons hchain hentries] at hstep
    rw [takeNext_cons hchain' hentries'] at hstep'
    have htaken : Assembly.Gains size n queued { t with chain := { c with agenda := ⟨rest⟩ } :: outer }
        { t' with chain := ({ c with agenda := ⟨rest⟩ } : Context).shift size n waiting :: outer' } := by
      refine ⟨hskipped.graph, hexchange _ hscope fun e he => .inl ?_, hskipped.current, hskipped.parsedBlocks⟩
      rw [hentries]
      exact List.mem_cons_of_mem _ he
    have hopen : Alike size n queued (openBlock m o b >>= fun _ => pure false)
        (openBlock m' o (shift n b) >>= fun _ => pure false) fun done done' => done = done' :=
      (alike_openBlock m m' o b).bind fun _ _ _ => alike_pure rfl
    exact .inl ((hopen _ _ htaken).of_eq hstep hstep')
  | nil =>
    have hchains := hskipped.chain
    rw [hchain, hchain'] at hchains
    rw [hentries, List.map_nil, List.nil_append] at hentries'
    rw [takeNext_nil hchain hentries] at hstep
    rcases hchains.waiting_cases with rfl | ⟨rfl, rfl, rfl, rfl⟩
    · rw [takeNext_nil hchain' hentries'] at hstep'
      exact .inl ((alike_closeContext _ _ hskipped).of_eq hstep hstep')
    · rw [takeNext_cons hchain' hentries'] at hstep'
      refine .inr ⟨_, t, _, ?_, hstep', hskipped.graph, hskipped.parsedBlocks, rfl, rfl⟩
      rw [hstep]
      show closeContext t = _
      simp only [closeContext, hchain]

/-- A step goes the same way, unless there is nothing left to do but to parse the block that was put in. -/
theorem Inv.step_gains (h : Inv st home path s) (hs : s.Gains st.method.code.size n queued s') (m m' : Method)
    (o : Options) :
    (∃ queued', Pairs (Assembly.step m o) (Assembly.step m' o) s s'
      fun done t done' t' => done = done' ∧ t.Gains st.method.code.size n queued' t') ∨
      ∃ c t t', Assembly.step m o s = .ok true t ∧
        Assembly.step m' o s' = (Assembly.openBlock m' o n >>= fun _ => pure false) t' ∧
        t.graph.Gains st.method.code.size n true t'.graph ∧ t'.parsedBlocks = t.parsedBlocks ∧ t'.chain = [c] ∧
        c.agenda.entries = [] := by
  cases hcurrent : s.current with
  | none => exact (hs.step hcurrent m m' o).imp (fun hpairs => ⟨queued, hpairs⟩) id
  | some b =>
    have hcurrent' : s'.current = some (shift n b) := by rw [hs.current, hcurrent]; rfl
    have hparse : Pairs (Assembly.parseInstr o b >>= fun _ => pure false)
        (Assembly.parseInstr o (shift n b) >>= fun _ => pure false) s s'
        fun done t done' t' => done = done' ∧ t.Gains st.method.code.size n true t' :=
      (h.parseInstr_gains hs hcurrent).bind fun _ _ _ _ ht => ⟨rfl, ht⟩
    exact .inl ⟨true, hparse.of_eq (step_of_some hcurrent) (step_of_some hcurrent')⟩

/-! ## The last block -/

/-- The block that was put in is parsed if the limit allows one more block, and then all is done. -/
theorem runs_unlock (hflag : (s.graph.block n).flags.defaultHandler = true)
    (hlimit : s.parsedBlocks < o.blockLimit) (hchain : s.chain = [c]) (hentries : c.agenda.entries = [])
    (hstep : Assembly.step m o s' = (openBlock m o n >>= fun _ => pure false) s) :
    ∃ t, m.Runs o s' (.ok () t) ∧ t.graph = s.graph.parseUnlock n := by
  have hopen : Yields (openBlock m o n) s (fun _ t => t.graph = s.graph.parseUnlock n ∧ t.chain = [c] ∧
      t.current = none) fun _ _ => False := by
    unfold openBlock
    rw [yields_bind, yields_modify, yields_bind, yields_get]
    split
    · rename_i hlt
      exact absurd hlimit (Nat.not_lt.2 (Nat.le_of_lt_succ hlt))
    · rw [yields_bind, yields_modify, yields_bind, yields_get]
      have hflag' : ((s.graph.visit n).block n).flags.defaultHandler = true := by
        rw [Graph.proj_visit (fun y => y.flags.defaultHandler) fun _ => rfl]
        exact hflag
      show Yields (if ((s.graph.visit n).block n).flags.defaultHandler = true then _ else _) _ _ _
      rw [if_pos hflag', yields_modify]
      exact ⟨rfl, hchain, rfl⟩
  obtain ⟨_, t, hopen, hgraph, hchain', hcurrent⟩ := hopen.exists_ok
  have hopened : Assembly.step m o s' = .ok false t := by
    rw [hstep]
    simp only [bind, EStateM.bind, hopen]
    rfl
  have hskip : skipVisited t = t := by
    have hagenda : c.agenda.skip (fun b => (t.graph.block b).visited) = c.agenda := by
      rw [Agenda.skip, hentries, List.dropWhile_nil, ← hentries]
    simp only [skipVisited, modifyInnermost, hchain', hagenda]
    rw [← hchain']
  have hends : Assembly.step m o t = .ok true t := by
    rw [step_of_none hcurrent, hskip, takeNext_nil hchain' hentries]
    show closeContext t = _
    simp only [closeContext, hchain']
  exact ⟨t, .goes hopened (.ends hends), hgraph⟩

/-! ## Runs -/

/-- A run that fails fails with the block put in as well. A run that ends does so too, or it goes on for the
block, if the limit allows that. -/
theorem Inv.runs_gains {r : EStateM.Result Fault Assembly Unit} (hruns : m.Runs o s r) (h : Inv st home path s)
    (hs : s.Gains st.method.code.size n queued s') (m' : Method) :
    (∀ fault t, r = .error fault t → ∃ t', m'.Runs o s' (.error fault t')) ∧
    ∀ t, r = .ok () t →
      (∃ queued' t', m'.Runs o s' (.ok () t') ∧ t.graph.Gains st.method.code.size n queued' t'.graph) ∨
      (t.graph.order.size < o.blockLimit → ∃ g' t', t.graph.Gains st.method.code.size n true g' ∧
        m'.Runs o s' (.ok () t') ∧ t'.graph = g'.parseUnlock n) := by
  induction hruns generalizing home path queued s' with
  | @fails s t fault hstep =>
    refine ⟨fun fault' u hu => ?_, nofun⟩
    cases hu
    rcases h.step_gains hs m m' o with ⟨_, hpairs⟩ | ⟨_, _, _, hdone, -⟩
    · obtain ⟨t', ht'⟩ := hpairs.of_error hstep
      exact ⟨t', .fails ht'⟩
    · rw [hstep] at hdone; cases hdone
  | @ends s t hstep =>
    refine ⟨nofun, fun u hu => ?_⟩
    cases hu
    rcases h.step_gains hs m m' o with
      ⟨queued', hpairs⟩ | ⟨c, u, u', hdone, hnext, hgraph, hparsed, hchain, hentries⟩
    · obtain ⟨done', t', ht', rfl, hgains⟩ := hpairs.of_ok hstep
      exact .inl ⟨queued', t', .ends ht', hgains.graph⟩
    · rw [hstep] at hdone
      cases hdone
      refine .inr fun hlimit => ?_
      have hcounted : u'.parsedBlocks = t.graph.order.size :=
        hparsed.trans ((h.moves.of_ok hstep).eq_of_done ▸ h.base.queue.counted)
      have hflag : (u'.graph.block n).flags.defaultHandler = true := by rw [hgraph.unlock]; rfl
      obtain ⟨t', hruns', ht'⟩ := runs_unlock hflag (hcounted ▸ hlimit) hchain hentries hnext
      exact ⟨u'.graph, t', hgraph, hruns', ht'⟩
  | @goes s t r hstep hrest ih =>
    obtain ⟨home', path', hinv⟩ := h.step.of_ok hstep
    rcases h.step_gains hs m m' o with ⟨queued', hpairs⟩ | ⟨_, _, _, hdone, -⟩
    · obtain ⟨done', t', ht', rfl, hgains⟩ := hpairs.of_ok hstep
      obtain ⟨hfails, hends⟩ := ih hinv hgains
      refine ⟨fun fault u hu => ?_, fun u hu => ?_⟩
      · obtain ⟨u', hu'⟩ := hfails fault u hu
        exact ⟨u', .goes ht' hu'⟩
      · rcases hends u hu with ⟨q, u', hu', hgraph⟩ | hlast
        · exact .inl ⟨q, u', .goes ht' hu', hgraph⟩
        · refine .inr fun hlimit => ?_
          obtain ⟨g', u', hgraph, hu', heq⟩ := hlast hlimit
          exact ⟨g', u', hgraph, .goes ht' hu', heq⟩
    · rw [hstep] at hdone; cases hdone

end BlockGraph
