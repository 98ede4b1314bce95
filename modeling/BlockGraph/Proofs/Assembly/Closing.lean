import BlockGraph.Proofs.Assembly.Emission

/-!
# Closing a block

The second half of parsing an instruction, when that is not a call: the blocks that it leads to are put
on the agenda and the open block is closed (`Emitted.close`), or the next instruction is one of the
same block (`Emitted.proceed`).
-/

namespace BlockGraph

open Assembly

variable {st : Setting} {home home' : Homes} {path : List BlockId} {s t : Assembly} {b : BlockId}
  {bci : Nat} {before : List Insn} {i : Insn} {new : List BlockId} {x : Exit} {bad : Fault → Assembly → Prop}

/-- What a successful step leads to. -/
def Setting.InvHolds (st : Setting) (_ : Unit) (t : Assembly) : Prop := ∃ home path, Inv st home path t

/-- A `ret` uses a local that has not been written since the subroutine began. -/
theorem Emitted.retKept {g' : Graph} (h : Emitted st home path s b bci before i)
    (hgrows : Grows home s.graph home' g') (hbody : ∀ b, g'.body b = s.graph.body b)
    (horder : g'.order = s.graph.order) (hclosed : (g'.block b).exit.isSome = true)
    {c : Context} {outer : List Context} (hchain : s.chain = c :: outer) {n : Nat} {j : BlockId}
    (hslot : (i.cursor st.method.code).localSlot = .ok n) (hj : path.head? = some j)
    (hlocal : c.returnLocal = some n) : RetKept st home' g' b := by
  have hh := h.holds
  obtain ⟨sub, e, r, -, hsub, hexit, -, hlies, -, -⟩ := (hchain ▸ h.calls).head.called j hj
  obtain ⟨hsaves, -, hkept⟩ := (hchain ▸ h.addresses).head.kept j sub n hj hsub hlocal
  obtain ⟨pre, hlast⟩ := hh.last
  refine ⟨i.inBlock b, i.bci, i, n, j, e, r, sub.entry, ?_, rfl, st.read_of_mem hh.stretch.mem, hslot, ?_,
    hgrows.exit j _ hexit, hgrows.liesAt hlies, hsaves, pre, [], horder ▸ hlast, fun c hc => ?_⟩
  · rw [hbody, hh.body, List.map_append]; simp
  · rw [hgrows.home_eq b hh.lies.lt, hh.lies.home_eq, hj]
  · rw [← hlast] at hc
    have hv := (h.base.queue.mem_order c).1 hc
    constructor
    · rcases h.base.queue.closed c hv with hx | hcurrent
      · exact hgrows.isSome_exit hx
      · rw [hh.current] at hcurrent; cases hcurrent; exact hclosed
    · intro hc
      rw [hgrows.home_eq c (Graph.lt_of_visited hv)] at hc
      unfold KeepsLocal
      rw [hbody]
      exact hkept c hc

/-- The open block is closed after the blocks to which it leads have been put on the agenda. -/
theorem Emitted.close (h : Emitted st home path s b bci before i) (hbase : Base st home' path t)
    (hsched : CopiedAndQueued none new home s home' t)
    (hnew : ∀ d ∈ new, d ∈ x.jumps ∧ home' d = path.head?)
    (hblocks : ∀ d ∈ x.blocks, d < t.graph.blocks.size)
    (hfits : ExitFits home' (finishBlock b x t).graph b i x) (hjsr : ∀ e r, x ≠ .jsr e r)
    (hret : ∀ d, x = .ret d → ∃ n j, (i.cursor st.method.code).localSlot = .ok n ∧
      path.head? = some j ∧ ∀ c ∈ s.chain.head?, c.returnLocal = some n) :
    Inv st home' path (finishBlock b x t) := by
  have hh := h.holds
  have hcurrent : t.current = some b := hsched.current.trans hh.current
  obtain ⟨hbase', hedits', hexit, hbody', hhandlers'⟩ := hbase.close hcurrent hblocks
  have hedits : Edits (some b) new home s.graph home' (finishBlock b x t).graph :=
    (hsched.edits.touch.trans hedits').mono (by simp)
  have hgrows := hedits.grows
  have hgrows' := hedits'.grows
  have hbody : ∀ c, (finishBlock b x t).graph.body c = s.graph.body c := by
    intro c
    by_cases hc : b = c
    · rw [← hc, hbody']; exact hsched.edits.body_eq b
    · exact hedits.body c fun he => hc (Option.some.inj he)
  have hhandlers : ((finishBlock b x t).graph.block b).handlers = (s.graph.block b).handlers :=
    hhandlers'.trans (hsched.edits.handlers_eq b)
  have hhome : home' b = path.head? := (hgrows.home_eq b hh.lies.lt).trans hh.lies.home_eq
  have hsettled : Settled st home' (finishBlock b x t).graph b :=
    .code (hhome ▸ hgrows.liesAt hh.lies) hh.stretch ((hbody b).trans hh.body)
      (hh.caught.grows hh.lies.lt hgrows hhandlers) hexit hfits fun d hd =>
        Graph.mem_predecessors_close.2 (.inr ⟨rfl, hd, hblocks d (Exit.mem_blocks hd)⟩)
  refine ⟨⟨hbase', ?_, ?_, ?_, fun j hj e r hx => .inl ?_⟩, nofun⟩
  · refine h.facts.edit h.base.laid h.base.range hedits (fun _ hj => hj) (fun _ hj => .inl hj)
      (fun _ => .inr fun y hy ht d hd => hgrows.queued d (h.unlock y hy ht d hd))
      (fun d hd _ => ?_) (fun k e r _ _ hnil hne => absurd ((hbody e).trans hnil) hne) fun c y hc hy => ?_
    · obtain ⟨hjump, hd⟩ := hnew d hd
      refine ((h.origin_open hh).grows hh.lies.lt hgrows).step (.inl ?_) (hd.trans hhome.symm)
      rw [hexit]; exact hjump
    · cases hc
      rw [hexit] at hy
      cases hy
      refine ⟨hsettled, fun d hd => ?_, fun e r he => absurd he (hjsr e r)⟩
      obtain ⟨n, j, hslot, hj, hlocal⟩ := hret d hd
      obtain ⟨c, outer, hchain⟩ := h.base.contexts.exists_cons
      refine ⟨⟨j, hhome.trans hj, List.mem_of_mem_head? hj⟩, ?_⟩
      exact h.retKept hgrows hbody hedits.order (by rw [hexit]; rfl) hchain hslot hj
        (hlocal c (by rw [hchain]; rfl))
  · exact (hsched.calls h.calls).imp fun _ _ hc => hc.grows hgrows'
  · have hkept := hsched.addresses (fun c => hsched.edits.body_eq c) h.addresses
    refine hkept.imp fun _ _ hc => hc.of_bodies (fun _ _ => rfl) (fun _ c _ _ => ?_) rfl
    rw [hbody]; exact (hsched.edits.body_eq c).symm
  · have hjb : some b ≠ some j := by
      intro he
      cases he; rw [hexit] at hx; cases hx; exact hjsr e r rfl
    exact hgrows.visited e (h.visited_entry hh.current hj ((hedits.exit j hjb).symm.trans hx))

/-! ## By kind of instruction -/

theorem Emitted.target_mem_starts (h : Emitted st home path s b bci before i) {t : Nat}
    (ht : t ∈ i.targets) : t ∈ st.survey.starts :=
  Survey.target_mem_starts st.surveyed h.holds.stretch.mem ht

theorem Emitted.home_head (h : Emitted st home path s b bci before i)
    (hsched : CopiedAndQueued none new home s home' t) : home' b = path.head? :=
  (hsched.edits.grows.home_eq b h.holds.lies.lt).trans h.holds.lies.home_eq

theorem Emitted.next_mem_starts (h : Emitted st home path s b bci before i)
    (hf : i.fallsThrough = true) (he : i.endsBlock = true) : i.next ∈ st.survey.starts :=
  Survey.next_mem_starts st.surveyed h.holds.stretch.mem he
    (Survey.next_lt st.surveyed h.holds.stretch.mem hf)

/-- Closing a block leaves blocks where they are. -/
theorem Leads.close {call : Option BlockId} {pos : Nat} {d : BlockId}
    (h : Leads home t.graph call pos d) (hbase : Base st home path t) (hb : t.current = some b)
    (hblocks : ∀ d ∈ x.blocks, d < t.graph.blocks.size) :
    Leads home (finishBlock b x t).graph call pos d :=
  h.grows (hbase.close hb hblocks).2.1.grows

theorem Emitted.goto (h : Emitted st home path s b bci before i) (hf : i.flow = .goto) :
    Yields (do
      let target ← Assembly.ofExcept (i.cursor st.method.code).branchTarget
      let next ← scheduleAt target
      modify (finishBlock b (.goto next))) s st.InvHolds st.Ends := by
  have hread := st.read_of_mem h.holds.stretch.mem
  obtain ⟨target, htarget, htargets⟩ := Insn.branchTarget_of_read hread (.inr (.inl hf))
  rw [yields_bind, yields_ofExcept, htarget]
  refine (scheduleAt_spec h.base (h.target_mem_starts (by rw [htargets]; simp))).bind ?_
  rintro d t ⟨home', hbase, hsched, hleads⟩
  rw [yields_modify]
  have hcurrent := hsched.current.trans h.holds.current
  have hblocks : ∀ c ∈ (Exit.goto d).blocks, c < t.graph.blocks.size := by
    simpa [Exit.blocks] using hleads.1.lt
  refine ⟨home', path, h.close hbase hsched ?_ hblocks ?_ nofun nofun⟩
  · intro c hc
    cases List.mem_singleton.1 hc
    exact ⟨List.mem_singleton_self _, hleads.1.home_eq⟩
  · refine .jump hf htargets ?_
    rw [h.home_head hsched]
    exact hleads.close hbase hcurrent hblocks

theorem Emitted.falls (h : Emitted st home path s b bci before i) (hf : i.flow = .next)
    (hnext : i.next ∈ st.survey.starts) :
    Yields (do
      let next ← scheduleAt i.next
      modify (finishBlock b (.goto next))) s st.InvHolds bad := by
  refine (scheduleAt_spec h.base hnext).bind ?_
  rintro d t ⟨home', hbase, hsched, hleads⟩
  rw [yields_modify]
  have hcurrent := hsched.current.trans h.holds.current
  have hblocks : ∀ c ∈ (Exit.goto d).blocks, c < t.graph.blocks.size := by
    simpa [Exit.blocks] using hleads.1.lt
  refine ⟨home', path, h.close hbase hsched ?_ hblocks ?_ nofun nofun⟩
  · intro c hc
    cases List.mem_singleton.1 hc
    exact ⟨List.mem_singleton_self _, hleads.1.home_eq⟩
  · refine .falls hf ?_
    rw [h.home_head hsched]
    exact hleads.close hbase hcurrent hblocks

theorem Emitted.branch (h : Emitted st home path s b bci before i) (hf : i.flow = .branch) :
    Yields (do
      let target ← Assembly.ofExcept (i.cursor st.method.code).branchTarget
      let taken ← scheduleAt target
      let notTaken ← scheduleAt i.next
      modify (finishBlock b (.branch taken notTaken))) s st.InvHolds st.Ends := by
  have hread := st.read_of_mem h.holds.stretch.mem
  obtain ⟨target, htarget, htargets⟩ := Insn.branchTarget_of_read hread (.inl hf)
  rw [yields_bind, yields_ofExcept, htarget]
  refine (scheduleAt_spec h.base (h.target_mem_starts (by rw [htargets]; simp))).bind ?_
  rintro d t ⟨home₁, hbase₁, hquiet₁, hleads₁⟩
  have hnext : i.next ∈ st.survey.starts := h.next_mem_starts (by rw [Insn.fallsThrough, hf]; rfl)
    (by rw [Insn.endsBlock, hf]; rfl)
  refine (scheduleAt_spec hbase₁ hnext).bind ?_
  rintro d' t' ⟨home', hbase, hquiet₂, hleads'⟩
  rw [yields_modify]
  have hsched := hquiet₁.trans hquiet₂
  have hleads := hleads₁.grows hquiet₂.edits.grows
  have hcurrent := hsched.current.trans h.holds.current
  have hblocks : ∀ c ∈ (Exit.branch d d').blocks, c < t'.graph.blocks.size := by
    simpa [Exit.blocks] using ⟨hleads.1.lt, hleads'.1.lt⟩
  refine ⟨home', path, h.close hbase hsched ?_ hblocks ?_ nofun nofun⟩
  · intro c hc
    rcases List.mem_cons.1 hc with rfl | hc
    · exact ⟨by simp [Exit.jumps, Exit.successors], hleads'.1.home_eq⟩
    · cases List.mem_singleton.1 hc
      exact ⟨by simp [Exit.jumps, Exit.successors], hleads.1.home_eq⟩
  · refine .branch hf htargets ?_ ?_ <;> rw [h.home_head hsched]
    · exact hleads.close hbase hcurrent hblocks
    · exact hleads'.close hbase hcurrent hblocks

theorem Emitted.switch (h : Emitted st home path s b bci before i) (hf : i.flow = .switch) :
    Yields (do
      let (fallback, cases) ← Assembly.ofExcept (i.cursor st.method.code).jumpTable
      let fallback ← scheduleAt fallback
      let cases ← cases.mapM scheduleAt
      modify (finishBlock b (.switch fallback cases))) s st.InvHolds st.Ends := by
  have hread := st.read_of_mem h.holds.stretch.mem
  obtain ⟨target, targets, htable, htargets⟩ := Insn.jumpTable_of_read hread hf
  rw [yields_bind, yields_ofExcept, htable]
  refine (scheduleAt_spec h.base (h.target_mem_starts (by rw [htargets]; simp))).bind ?_
  rintro d t ⟨home₁, hbase₁, hquiet₁, hleads₁⟩
  have hstarts : ∀ u ∈ targets, u ∈ st.survey.starts := fun u hu =>
    h.target_mem_starts (by rw [htargets]; simp [hu])
  refine (scheduleAll_spec hbase₁ hstarts).bind ?_
  rintro ds t' ⟨home', hbase, hquiet₂, hall⟩
  rw [yields_modify]
  have hsched := hquiet₁.trans hquiet₂
  have hleads := hleads₁.grows hquiet₂.edits.grows
  have hcurrent := hsched.current.trans h.holds.current
  have hcases : ∀ c ∈ ds, ∃ u, Leads home' t'.graph path.head? u c := by
    intro c hc
    obtain ⟨u, -, hu⟩ := (exists_of_forall₂ hall).2 c hc
    exact ⟨u, hu⟩
  have hblocks : ∀ c ∈ (Exit.switch d ds).blocks, c < t'.graph.blocks.size := by
    intro c hc
    rcases List.mem_cons.1 hc with rfl | hc
    · exact hleads.1.lt
    · obtain ⟨u, hu⟩ := hcases c hc
      exact hu.1.lt
  refine ⟨home', path, h.close hbase hsched ?_ hblocks ?_ nofun nofun⟩
  · intro c hc
    rcases List.mem_append.1 hc with hc | hc
    · obtain ⟨u, hu⟩ := hcases c hc
      exact ⟨List.mem_eraseDups.2 (List.mem_cons_of_mem _ hc), hu.1.home_eq⟩
    · cases List.mem_singleton.1 hc
      exact ⟨List.mem_eraseDups.2 List.mem_cons_self, hleads.1.home_eq⟩
  · refine .switch hf htargets ?_ ?_ <;> rw [h.home_head hsched]
    · exact hleads.close hbase hcurrent hblocks
    · exact hall.imp fun _ _ hu => hu.close hbase hcurrent hblocks

theorem Emitted.throw (h : Emitted st home path s b bci before i) (hf : i.flow = .throw) :
    st.InvHolds () (finishBlock b .throw s) :=
  ⟨home, path, h.close h.base (.refl none home s) (by simp) (by simp [Exit.blocks]) (.throw hf) nofun
    nofun⟩

/-- Counting a return changes nothing but counters. -/
theorem Chain.map_countReturn {α : Type} (f : Context → α)
    (hf : ∀ c n, f { c with returns := n } = f c) : ∀ chain : List Context,
    (Chain.countReturn chain).map f = chain.map f
  | [] => rfl
  | [c] => by simp [countReturn, hf]
  | c :: d :: outer => by
    unfold countReturn
    split
    · rw [List.map_cons, List.map_cons, map_countReturn f hf (d :: outer)]
    · rw [List.map_cons, hf]; rfl

theorem Emitted.leave (h : Emitted st home path s b bci before i) (hf : i.flow = .leave) :
    st.InvHolds () (finishBlock b .leave (countReturn s)) := by
  have hmap : ∀ {α : Type} (f : Context → α), (∀ c n, f { c with returns := n } = f c) →
      (countReturn s).chain.map f = s.chain.map f := fun f hf => Chain.map_countReturn f hf s.chain
  have hbase : Base st home path (countReturn s) :=
    h.base.rechain rfl rfl rfl (hmap _ fun _ _ => rfl) (hmap _ fun _ _ => rfl)
  have hsched : CopiedAndQueued none [] home s home (countReturn s) :=
    ⟨.refl _ _ _, rfl, rfl, hmap _ fun _ _ => rfl⟩
  exact ⟨home, path, h.close hbase hsched (by simp) (by simp [Exit.blocks]) (.leave hf) nofun nofun⟩

/-- A `ret` comes back to the continuation of the innermost call, if it is not refused. -/
theorem returnTarget_spec (h : Core st home path s) {c : Context} {outer : List Context}
    (hchain : s.chain = c :: outer) (slot : Nat) :
    Yields (returnTarget slot) s (fun target t => t = s ∧ c.returnLocal = some slot ∧
      ∃ j e, path.head? = some j ∧ (s.graph.block j).exit = some (.jsr e target)) st.Ends := by
  have hfits := (hchain ▸ h.base.contexts).head
  have hcalls := (hchain ▸ h.calls).head
  unfold returnTarget
  rw [yields_bind, yields_innermost hchain]
  cases hcall : path.head? with
  | none =>
    have hsub : c.isSubroutine = false := by simp [Context.isSubroutine, hfits.root hcall]
    simp only [hsub, Bool.not_false, if_true]
    exact ⟨.bailout _, h.base.within⟩
  | some j =>
    obtain ⟨sub, e, r, hs, hsub, hexit, hresume, -⟩ := hcalls.called j hcall
    have hsub : c.isSubroutine = true := by simp [Context.isSubroutine, hsub]
    simp only [hsub, Bool.not_true, Bool.false_eq_true, if_false]
    by_cases hlocal : c.returnLocal = some slot
    · simp only [hlocal, ne_eq, not_true_eq_false, if_false, hresume]
      exact ⟨rfl, trivial, j, e, rfl, hexit⟩
    · simp only [ne_eq, hlocal, not_false_eq_true, if_true]
      exact ⟨.bailout _, (h.base.note _).within⟩

theorem Emitted.ret (h : Emitted st home path s b bci before i) (hf : i.flow = .ret) :
    Yields (do
      let slot ← Assembly.ofExcept (i.cursor st.method.code).localSlot
      let target ← returnTarget slot
      modify (finishBlock b (.ret target))) s st.InvHolds st.Ends := by
  obtain ⟨c, outer, hchain⟩ := h.base.contexts.exists_cons
  have hread := st.read_of_mem h.holds.stretch.mem
  obtain ⟨slot, hslot⟩ := Insn.exists_localSlot hread
    (show i.opcode.usesLocal = true by
      unfold Opcode.usesLocal
      rw [show i.opcode.flow = .ret from hf]; simp)
  rw [yields_bind, yields_ofExcept, hslot]
  refine (returnTarget_spec h.toCore hchain slot).bind ?_
  rintro target t ⟨rfl, hlocal, j, e, hj, hexit⟩
  rw [yields_modify]
  have hlt : target < t.graph.blocks.size := by
    refine h.base.range.refs j target ?_
    simp [Block.refs, hexit, Exit.blocks]
  have hblocks : ∀ d ∈ (Exit.ret target).blocks, d < t.graph.blocks.size := by
    simpa [Exit.blocks] using hlt
  obtain ⟨-, hedits, -⟩ := h.base.close h.holds.current hblocks
  refine ⟨home, path, h.close h.base (.refl none home t) (by simp) hblocks ?_ (by simp) fun d hd => ?_⟩
  · refine .ret hf (h.holds.lies.home_eq.trans hj) (hedits.grows.exit j _ hexit) ?_
    exact Graph.mem_predecessors_close.2 (.inr ⟨rfl, List.mem_singleton_self _, hlt⟩)
  · refine ⟨slot, j, hslot, hj, fun c' hc' => ?_⟩
    rw [hchain] at hc'
    cases hc'
    exact hlocal

/-! ## Going on in the same block -/

/-- The cursor moves to the next instruction of the block. -/
theorem Emitted.proceed (h : Emitted st home path s b bci before i) (hf : i.flow = .next)
    (hnext : i.next ∉ st.survey.starts) :
    Yields (withCursor Cursor.advance) s (fun o t => o.isNone = false ∧ st.InvHolds () t) bad := by
  obtain ⟨c, outer, hchain⟩ := h.base.contexts.exists_cons
  have hh := h.holds
  have hcursor : c.cursor = i.cursor st.method.code := hh.cursor c (by rw [hchain]; rfl)
  have hlt := Survey.next_lt st.surveyed hh.stretch.mem (by rw [Insn.fallsThrough, hf]; rfl)
  obtain ⟨k, hk, hkbci⟩ := Survey.exists_insn_of_next st.surveyed hh.stretch.mem hlt
  have hadvance : Cursor.advance c.cursor = .ok (some k.opcode) (k.cursor st.method.code) := by
    have hmove := Insn.moveTo_of_read (st.read_of_mem hk) (c := i.cursor st.method.code) rfl
    rw [hkbci] at hmove
    have hlt' : (i.cursor st.method.code).next < (i.cursor st.method.code).code.size := hlt
    rw [hcursor, Cursor.advance, if_pos hlt']
    simp only [Functor.map, EStateM.map]
    rw [show (i.cursor st.method.code).next = i.next from rfl, hmove]
  rw [yields_withCursor hchain hadvance]
  have hcode : c.cursor.code = (k.cursor st.method.code).code := by rw [hcursor]; rfl
  refine ⟨rfl, home, path, ⟨⟨h.base.rechain rfl rfl rfl ?_ ?_, h.facts, ?_, ?_, fun j hj e r hx => .inl ?_⟩,
    fun d hd => ⟨bci, before ++ [i], k, ?_⟩⟩⟩
  · rw [hchain, List.map_cons, List.map_cons]
    simp only [Context.place, hcode]
  · rw [hchain]; rfl
  · exact (hchain ▸ h.calls).setHead ⟨(hchain ▸ h.calls).head.root, (hchain ▸ h.calls).head.called⟩
  · have haddresses := hchain ▸ h.addresses
    exact haddresses.setHead ⟨haddresses.head.root, haddresses.head.kept, haddresses.head.lost⟩
  · exact h.visited_entry hh.current hj hx
  · have hbd : b = d := Option.some.inj (hh.current.symm.trans hd)
    subst hbd
    refine ⟨hd, hh.lies, hh.stretch.snoc hk hkbci hf hnext, hh.body, hh.caught, fun c' hc' => ?_, hh.last⟩
    cases hc'; rfl

/-- An instruction that does not end a block by itself is followed by the next one, in this block or in one of
its own. -/
theorem next_spec (h : Emitted st home path s b bci before i) (hf : i.flow = .next) : Yields (do
    if ((← innermost).table.get i.next).isSome then
      let next ← scheduleAt i.next
      modify (finishBlock b (.goto next))
    else if (← withCursor Cursor.advance).isNone then
      throw (.malformed i.bci .fallsOff)) s st.InvHolds bad := by
  obtain ⟨c, outer, hchain⟩ := h.base.contexts.exists_cons
  have htable : c.table = st.table := (hchain ▸ h.base.contexts).head.table
  rw [yields_bind, yields_innermost hchain, htable]
  split
  · rename_i hstart
    exact h.falls hf ((st.isSome_get i.next).1 hstart)
  · rename_i hstart
    refine (h.proceed hf fun hmem => hstart ((st.isSome_get i.next).2 hmem)).bind ?_
    rintro o t ⟨ho, hgoes⟩
    rw [ho]
    exact hgoes

theorem Guarded.next (h : Guarded st home path s b bci before i) (hf : i.flow = .next) :
    Yields (do
      if let some width := i.opcode.writtenSlots? then
        let slot ← Assembly.ofExcept (i.cursor st.method.code).localSlot
        trackStore i.opcode i.bci slot width
      if ((← innermost).table.get i.next).isSome then
        let next ← scheduleAt i.next
        modify (finishBlock b (.goto next))
      else if (← withCursor Cursor.advance).isNone then
        throw (.malformed i.bci .fallsOff)) (appendInstr b (.code i.bci) i.opcode s) st.InvHolds st.Ends := by
  cases hwidth : i.opcode.writtenSlots? with
  | none => exact next_spec (h.append hwidth) hf
  | some width =>
    obtain ⟨slot, hslot⟩ := Insn.exists_localSlot (st.read_of_mem h.holds.stretch.mem)
      (show i.opcode.usesLocal = true by simp [Opcode.usesLocal, hwidth])
    simp only
    rw [yields_bind, yields_ofExcept, hslot]
    exact (h.store hwidth hslot).bind fun _ t ht => next_spec ht hf

end BlockGraph
