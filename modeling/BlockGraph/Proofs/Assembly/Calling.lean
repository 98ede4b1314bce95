import BlockGraph.Proofs.Assembly.Closing

/-!
# Calling a subroutine

A call puts a context on the chain, with an empty copy (`Base.push`) and with handlers of its own
(`setUpHandlers_spec`); then the block of the call is closed and the beginning of the subroutine is all
that waits (`Entering.inv`). Main statement: `Emitted.call`.
-/

namespace BlockGraph

open Assembly

variable {st : Setting} {home home' : Homes} {path : List BlockId} {s t : Assembly} {b : BlockId}
  {bci : Nat} {before : List Insn} {i : Insn} {c : Context} {outer : List Context}
  {bad : Fault → Assembly → Prop}

/-! ## A new context -/

/-- Nothing lies in the copy for a call before its block is closed. -/
theorem Base.not_called (h : Base st home path s) (hb : s.current = some b)
    (hhome : home b = path.head?) {d : BlockId} (hd : d < s.graph.blocks.size) : home d ≠ some b := by
  intro hhome'
  rcases h.called d b hd hhome' with hmem | ⟨e, r, hexit⟩
  · have hlt := Graph.lt_of_visited (h.queue.current b hb).1
    exact Nat.lt_irrefl b (Linked.lt_of_mem h.laid.lt_of_home ⟨hlt, hhome, h.linked⟩ b hmem)
  · rw [(h.queue.current b hb).2] at hexit; cases hexit

/-- A context for a call from the open block. -/
structure Fresh (st : Setting) (home : Homes) (s : Assembly) (b : BlockId) (entry : Nat)
    (r : BlockId) (c : Context) : Prop where
  scope : c.scope = 0
  table : c.table = st.table
  code : c.cursor.code = st.method.code
  continuation : c.continuation = none
  guarded : c.guarded = !st.handlers.isEmpty
  subroutine : c.subroutine = some { entry := entry, copies := .blank st.method.code.size }
  agenda : c.agenda = {}
  resume : c.resume = some r
  lt : r < s.graph.blocks.size
  home_eq : home r = home b

theorem Base.push {entry : Nat} {r : BlockId} (h : Base st home path s) (hb : s.current = some b)
    (hhome : home b = path.head?) (hc : Fresh st home s b entry r c) :
    Base st home (b :: path) (s.push c) := by
  have hlt := Graph.lt_of_visited (h.queue.current b hb).1
  have hfits : ContextFits st home s.graph (some b) c := by
    refine ⟨hc.scope, hc.table, hc.code, hc.continuation, hc.guarded, nofun, fun j hj => ?_,
      fun d hd => ?_, fun sub hs hsub hhs => ?_⟩
    · cases hj
      refine ⟨_, hc.subroutine, BlockTable.size_blank _, fun i d => ?_⟩
      simp only [BlockTable.get_blank, reduceCtorEq, false_iff]
      exact fun hd => h.not_called hb hhome hd.lt hd.home_eq
    · rw [hc.resume] at hd
      cases hd
      exact ⟨b, rfl, hlt, hc.lt, hc.home_eq⟩
    · rw [hc.subroutine] at hsub
      cases hsub; cases hhs
  have hwaiting : Chain.waiting (s.push c).chain = Chain.waiting s.chain := by
    show Chain.waiting (c :: s.chain) = _
    simp [Chain.waiting, hc.agenda]
  refine ⟨h.laid, h.range, ⟨hlt, hhome, h.linked⟩, .call hfits h.contexts, fun d j hd hj => ?_,
    ⟨.call ?_ h.queue.agendas, hwaiting ▸ h.queue.waiting, h.queue.queued, h.queue.mem_order, h.queue.nodup,
      h.queue.counted, h.queue.closed, h.queue.fresh, h.queue.current⟩⟩
  · exact (h.called d j hd hj).imp (List.mem_cons_of_mem _) id
  · rw [hc.agenda]
    exact .empty

/-- The innermost subroutine is given its handlers. -/
theorem Base.setHandlers (h : Base st home path s) (hchain : s.chain = c :: outer)
    {sub : Subroutine} (hsub : c.subroutine = some sub) {hs : List Handler}
    (hhs : ∀ x ∈ hs, ∀ d, x.entry = some d → d < s.graph.blocks.size) :
    Base st home path { s with
      chain := { c with subroutine := some { sub with handlers := some hs } } :: outer } := by
  have hcontexts := hchain ▸ h.contexts
  have hfits := hcontexts.head
  have hagendas := hchain ▸ h.queue.agendas
  have hwaiting : Chain.waiting ({ c with
      subroutine := some { sub with handlers := some hs } } :: outer) = Chain.waiting s.chain := by
    rw [hchain]; rfl
  refine ⟨h.laid, h.range, h.linked, hcontexts.setHead ?_, h.called,
    ⟨hagendas.setHead hagendas.head, hwaiting ▸ h.queue.waiting, h.queue.queued, h.queue.mem_order,
      h.queue.nodup, h.queue.counted, h.queue.closed, h.queue.fresh, h.queue.current⟩⟩
  refine ⟨hfits.scope, hfits.table, hfits.code, hfits.continuation, hfits.guarded, fun hroot => ?_,
    fun j hj => ?_, hfits.resume, fun sub' hs' hsub' hhs' => ?_⟩
  · rw [hfits.root hroot] at hsub; cases hsub
  · obtain ⟨sub', hsub', hsize, hget⟩ := hfits.copies j hj
    rw [hsub] at hsub'; cases hsub'
    exact ⟨_, rfl, hsize, hget⟩
  · cases hsub'; cases hhs'; exact hhs

/-! ## Handlers of a subroutine -/

theorem Sees.grows {g g' : Graph} {call : Option BlockId} {x x' : Handler} (h : Sees home g call x x')
    (hg : Grows home g home' g') : Sees home' g' call x x' :=
  ⟨h.1, h.2.imp fun _ hd => ⟨hd.1, hd.2.grows hg⟩⟩

theorem copyHandlers_spec : ∀ {l : List Handler} {home : Homes} {s : Assembly},
    (∀ x ∈ l, x ∈ st.handlers) → Base st home path s →
    Yields (copyHandlers l) s (fun hs t => ∃ home', Base st home' path t ∧
      CopiedAndQueued none [] home s home' t ∧
      t.chain.map Context.withoutCopies = s.chain.map Context.withoutCopies ∧
      List.Forall₂ (Sees home' t.graph path.head?) l hs) bad
  | [], home, s, _, h => ⟨home, h, .refl _ _ _, rfl, .nil⟩
  | x :: rest, home, s, hl, h => by
    have hx := hl x List.mem_cons_self
    have hrest : ∀ y ∈ rest, y ∈ st.handlers := fun y hy => hl y (List.mem_cons_of_mem _ hy)
    cases ht : x.target with
    | code bci =>
      obtain ⟨d, home₁, s₁, hlocate, hbase₁, hquiet₁, hlies, hchain₁⟩ :=
        h.locate (st.handler_mem_starts hx ht)
      have hentry : x.entryIndex? = some bci := by simp [Handler.entryIndex?, ht]
      rw [copyHandlers]
      simp only [hentry]
      rw [yields_bind, yields_modifyGet, hlocate]
      refine (copyHandlers_spec hrest hbase₁).bind ?_
      rintro hs t ⟨home', hbase, hsched, hchain, hsees⟩
      rw [yields_pure]
      refine ⟨home', hbase, hquiet₁.trans hsched, hchain.trans hchain₁, .cons ⟨fun _ => rfl, d, rfl, ?_⟩
        hsees⟩
      rw [Catches, ht]
      exact hsched.edits.grows.liesAt hlies
    | unlock =>
      obtain ⟨d, hd, hlt, hsite⟩ := h.laid.unlock_entry x hx ht
      have hentry : x.entryIndex? = none := by simp [Handler.entryIndex?, ht]
      have hflag : (s.graph.block d).flags.defaultHandler = true :=
        (h.laid.defaultHandler_iff d hlt).2 hsite
      rw [copyHandlers]
      simp only [hentry]
      rw [yields_bind, yields_get]
      simp only [hd, Option.any_some, hflag, if_true]
      refine (copyHandlers_spec hrest h).bind ?_
      rintro hs t ⟨home', hbase, hsched, hchain, hsees⟩
      rw [yields_pure]
      refine ⟨home', hbase, hsched, hchain, .cons ⟨fun _ => rfl, d, hd, ?_⟩ hsees⟩
      rw [Catches, ht]
      exact ⟨hd, hsched.edits.grows.lt hlt, (hsched.edits.grows.site hlt).trans hsite⟩

/-- The subroutine of a context has been given the handlers that the scope declares. -/
theorem setUpHandlers_spec (h : Base st home path s) (hchain : s.chain = c :: outer)
    {sub : Subroutine} (hsub : c.subroutine = some sub) :
    Yields setUpHandlers s (fun _ t => ∃ home' c' outer' sub' hs, Base st home' path t ∧
      Edits none [] home s.graph home' t.graph ∧ t.current = s.current ∧ t.chain = c' :: outer' ∧
      outer'.map Context.withoutCopies = outer.map Context.withoutCopies ∧
      c'.subroutine = some sub' ∧ sub'.entry = sub.entry ∧ sub'.handlers = some hs ∧
      c'.resume = c.resume ∧ c'.returnLocal = c.returnLocal ∧ c'.agenda = c.agenda ∧
      List.Forall₂ (Sees home' t.graph path.head?) st.handlers hs) bad := by
  have hscope : c.scope = 0 := (hchain ▸ h.contexts).head.scope
  have hissub : c.isSubroutine = true := by simp [Context.isSubroutine, hsub]
  unfold setUpHandlers
  rw [yields_bind, yields_innermost hchain]
  simp only [hissub, Bool.not_true, Bool.false_eq_true, if_false]
  rw [yields_bind, yields_get, hscope, h.laid.declaredHandlers]
  refine (copyHandlers_spec (fun x hx => hx) h).bind ?_
  rintro hs t ⟨home', hbase, hsched, hsame, hsees⟩
  rw [yields_modify]
  rw [hchain, List.map_cons] at hsame
  obtain ⟨c', outer', hchain', hhead, htail⟩ := List.map_eq_cons_iff.1 hsame
  have hresume : c'.resume = c.resume := (congrArg Context.resume hhead :)
  have hreturn : c'.returnLocal = c.returnLocal := (congrArg Context.returnLocal hhead :)
  have hagenda : c'.agenda = c.agenda := (congrArg Context.agenda hhead :)
  obtain ⟨sub', hsub', hentry, -⟩ := Context.exists_subroutine (Context.idle_of_withoutCopies hhead) hsub
  have hmodify : t.modifyInnermost (fun c =>
      { c with subroutine := c.subroutine.map ({ · with handlers := some hs }) }) =
        { t with chain := { c' with subroutine := some { sub' with handlers := some hs } } :: outer' } := by
    simp only [modifyInnermost, hchain', hsub', Option.map_some]
  rw [hmodify]
  refine ⟨home', _, outer', _, hs, hbase.setHandlers hchain' hsub' fun x' hx' d hd => ?_, hsched.edits,
    hsched.current, rfl, htail, rfl, hentry, rfl, hresume, hreturn, hagenda, hsees⟩
  obtain ⟨x, -, -, e, he, hcatches⟩ := (exists_of_forall₂ hsees).2 x' hx'
  rw [hd] at he; cases he
  exact hcatches.lt

/-! ## The call -/

theorem Base.not_under (h : Base st home path s) (hb : s.current = some b)
    (hhome : home b = path.head?) {d : BlockId} (hd : d < s.graph.blocks.size) : ¬ Under home b d := by
  intro hu
  induction hu with
  | copied hj => exact h.not_called hb hhome hd hj
  | nested hk _ ih => exact ih (Nat.lt_trans (h.laid.lt_of_home _ _ hd hk) hd)

/-- What a call has made ready when its block is about to be closed: a context for the subroutine, with
handlers and a first block. -/
structure Entering (st : Setting) (home : Homes) (path : List BlockId) (s : Assembly) (b : BlockId)
    (i : Insn) where
  home' : Homes
  state : Assembly
  context : Context
  outer : List Context
  sub : Subroutine
  handlers : List Handler
  first : BlockId
  back : BlockId
  base : Base st home' (b :: path) state
  edits : Edits none [] home s.graph home' state.graph
  current : state.current = some b
  chain : state.chain = context :: outer
  outer_idle : outer.map Context.idle = s.chain.map Context.idle
  targets : i.targets = [sub.entry]
  subroutine : context.subroutine = some sub
  sub_handlers : sub.handlers = some handlers
  sees : List.Forall₂ (Sees home' state.graph (some b)) st.handlers handlers
  resume : context.resume = some back
  returnLocal : context.returnLocal = none
  agenda : context.agenda = {}
  first_lies : state.graph.LiesAt home' (some b) sub.entry first
  back_lies : state.graph.LiesAt home' path.head? i.next back
  nonzero : sub.entry ≠ 0
  unentered : ∀ c ∈ s.chain, ∀ sub', c.subroutine = some sub' → sub'.entry ≠ sub.entry

namespace Entering

variable (e : Entering st home path s b i)

/-- The block of the call is closed. -/
def closed : Assembly := finishBlock b (.jsr e.first e.back) e.state

/-- The first block of the subroutine waits. -/
def entered : Assembly := schedule e.first e.closed

theorem close : Base st e.home' (b :: path) e.closed ∧
    Edits (some b) [] e.home' e.state.graph e.home' e.closed.graph ∧
    (e.closed.graph.block b).exit = some (.jsr e.first e.back) ∧
    e.closed.graph.body b = e.state.graph.body b ∧
    (e.closed.graph.block b).handlers = (e.state.graph.block b).handlers := by
  refine e.base.close e.current ?_
  simpa [Exit.blocks] using ⟨e.first_lies.lt, e.back_lies.lt⟩

theorem schedule : Base st e.home' (b :: path) e.entered ∧
    CopiedAndQueued none [e.first] e.home' e.closed e.home' e.entered ∧
    (e.entered.graph.block e.first).queued = true :=
  e.close.1.schedule (e.close.2.1.grows.lt e.first_lies.lt) (.inr e.first_lies.home_eq)

/-- The whole call touches only its own block. -/
theorem edits_entered : Edits (some b) [e.first] home s.graph e.home' e.entered.graph :=
  ((e.edits.touch.trans e.close.2.1).trans e.schedule.2.1.edits.touch).mono (by simp)

theorem grows_entered : Grows e.home' e.state.graph e.home' e.entered.graph :=
  e.close.2.1.grows.trans e.schedule.2.1.edits.grows

theorem exit_entered : (e.entered.graph.block b).exit = some (.jsr e.first e.back) :=
  e.schedule.2.1.edits.grows.exit b _ e.close.2.2.1

theorem body_entered (d : BlockId) : e.entered.graph.body d = s.graph.body d := by
  by_cases hd : b = d
  · rw [← hd, e.schedule.2.1.edits.body_eq b, e.close.2.2.2.1, e.edits.body_eq b]
  · exact e.edits_entered.body d fun he => hd (Option.some.inj he)

theorem handlers_entered : (e.entered.graph.block b).handlers = (s.graph.block b).handlers := by
  rw [e.schedule.2.1.edits.handlers_eq b, e.close.2.2.2.2, e.edits.handlers_eq b]

theorem current_entered : e.entered.current = none := e.schedule.2.1.current

theorem first_lies_entered : e.entered.graph.LiesAt e.home' (some b) e.sub.entry e.first :=
  e.grows_entered.liesAt e.first_lies

variable (h : Emitted st home path s b bci before i)
include h

/-- The copy was empty before the call, so that its first block is the only one that waits. -/
theorem chain_entered : ∃ n, e.entered.chain =
    { e.context with agenda := e.context.agenda.insert e.first n } :: e.outer := by
  have hunqueued : (e.closed.graph.block e.first).queued = false := by
    refine Bool.eq_false_iff.2 fun hq => ?_
    have hq := (e.close.2.1.queued e.first hq).resolve_right (by simp)
    have hq := (e.edits.queued e.first hq).resolve_right (by simp)
    have hlt := Graph.lt_of_queued hq
    exact h.base.not_called h.holds.current h.holds.lies.home_eq hlt
      ((e.edits.grows.home_eq e.first hlt).symm.trans e.first_lies.home_eq)
  unfold entered
  rw [e.close.1.schedule_eq e.chain e.first_lies.home_eq hunqueued]
  exact ⟨_, rfl⟩

theorem settled (hf : i.flow = .jsr) : Settled st e.home' e.entered.graph b := by
  have hh := h.holds
  have hgrows := e.edits_entered.grows
  have hhome : e.home' b = path.head? := (hgrows.home_eq b hh.lies.lt).trans hh.lies.home_eq
  refine .code (hhome ▸ hgrows.liesAt hh.lies) hh.stretch ((e.body_entered b).trans hh.body)
    (hh.caught.grows hh.lies.lt hgrows e.handlers_entered) e.exit_entered
    (.call hf e.targets ⟨e.first_lies_entered, e.schedule.2.2⟩
      (hhome ▸ e.grows_entered.liesAt e.back_lies)) fun d hd => ?_
  refine e.schedule.2.1.edits.grows.predecessors d b (Graph.mem_predecessors_close.2 (.inr ⟨rfl, hd, ?_⟩))
  rw [List.mem_singleton.1 hd]
  exact e.first_lies.lt

/-- The segment of the copy is still empty. -/
theorem segment : Segment e.home' (b :: path) e.entered.graph b e.first := by
  obtain ⟨pre, hlast⟩ := h.holds.last
  refine ⟨pre, [], [], e.edits_entered.order ▸ hlast, by simp, fun d hd hu => ?_, fun _ => rfl, .inl rfl⟩
  have hmem : d ∈ s.graph.order.toList := hlast ▸ hd
  have hd : d < s.graph.blocks.size := h.base.range.order d (by simpa using hmem)
  exact h.base.not_under h.holds.current h.holds.lies.home_eq hd
    ((under_congr h.base.laid.lt_of_home e.edits_entered.grows.home_eq hd).1 hu)

/-- Nothing of the copy has been parsed. -/
theorem body_eq_nil {d : BlockId} (hd : e.home' d = some b) : e.entered.graph.body d = [] := by
  rw [e.body_entered]
  refine Graph.body_of_size_le (Nat.le_of_not_lt fun hlt => ?_)
  exact h.base.not_called h.holds.current h.holds.lies.home_eq hlt
    ((e.edits_entered.grows.home_eq d hlt).symm.trans hd)

/-- Only calls of the path lie around the open block, and none of them leads to the same index. -/
theorem unentered_entered : Unentered e.home' e.entered.graph b e.first := by
  refine ⟨?_, fun j hj => ?_⟩
  · rw [e.first_lies_entered.site]
    simpa using e.nonzero
  · have hgrows := e.edits_entered.grows
    have hj := (under_congr h.base.laid.lt_of_home hgrows.home_eq h.holds.lies.lt).1 hj
    have hmem := (h.base.linked.under_iff h.holds.lies.home_eq).1 hj
    obtain ⟨c, hc, hfits⟩ := h.calls.exists_of_mem hmem
    obtain ⟨sub, e', r', -, hsub, hexit, -, hlies, -⟩ := hfits.called j rfl
    refine ⟨e', r', hgrows.exit j _ hexit, hgrows.lt hlies.lt, ?_⟩
    rw [(hgrows.liesAt hlies).site, e.first_lies_entered.site]
    simpa using e.unentered c hc sub hsub

theorem facts (hf : i.flow = .jsr) : Facts st e.home' (b :: path) e.entered.graph := by
  refine h.facts.edit h.base.laid h.base.range e.edits_entered
    (fun j hj => List.mem_cons_of_mem _ hj) ?_ ?_ ?_ ?_ ?_
  · intro j hj
    exact (List.mem_cons.1 hj).symm.imp id fun he => by rw [he]
  · intro _
    exact .inr fun y hy ht d hd => e.edits_entered.grows.queued d (h.unlock y hy ht d hd)
  · intro d hd _
    cases List.mem_singleton.1 hd
    exact ⟨e.first, e.first_lies.home_eq ▸ ⟨e.back, e.exit_entered⟩, .refl⟩
  · intro k d r _ _ hnil hne
    exact absurd ((e.body_entered d).trans hnil) hne
  · intro d x hd hx
    cases hd
    rw [e.exit_entered] at hx
    cases hx
    refine ⟨e.settled h hf, by simp, fun _ _ he => ?_⟩
    cases he
    exact ⟨e.segment h, e.body_eq_nil h e.first_lies.home_eq, e.unentered_entered h⟩

theorem calls : Nest (CallFits st e.home' e.entered.graph) e.entered.chain (b :: path) := by
  obtain ⟨n, hchain⟩ := e.chain_entered h
  have hrest := h.calls.congr e.outer_idle fun _ _ _ hidle hc =>
    (hc.grows e.edits_entered.grows).of_idle hidle
  rw [hchain]
  refine .call ⟨by simp, fun j hj => ?_⟩ hrest
  cases hj
  exact ⟨e.sub, e.first, e.back, e.handlers, e.subroutine, e.exit_entered, e.resume, e.first_lies_entered,
    e.sub_handlers, e.sees.imp fun _ _ hx => hx.grows e.grows_entered⟩

theorem addresses : Nest (AddressKept st e.home' e.entered.graph) e.entered.chain (b :: path) := by
  obtain ⟨n, hchain⟩ := e.chain_entered h
  have hrest := h.addresses.congr e.outer_idle fun _ _ _ hidle hc =>
    hc.of_bodies e.edits_entered.grows.home_eq (fun _ d _ _ => e.body_entered d) hidle
  rw [hchain]
  refine .call ⟨nofun, fun j sub n _ _ hn => ?_, fun j sub n hj _ _ => .inr (.inl fun d hd => ?_)⟩ hrest
  · rw [show ({ e.context with agenda := _ } : Context).returnLocal = e.context.returnLocal from rfl,
      e.returnLocal] at hn
    cases hn
  · cases hj
    exact e.body_eq_nil h hd

theorem inv (hf : i.flow = .jsr) : Inv st e.home' (b :: path) e.entered := by
  refine ⟨⟨e.schedule.1, e.facts h hf, e.calls h, e.addresses h, fun j hj f r hx => ?_⟩, fun d hd => ?_⟩
  · by_cases hjb : j = b
    · subst hjb
      rw [e.exit_entered] at hx
      cases hx
      refine .inr ⟨rfl, e.current_entered, fun c hc => ?_⟩
      obtain ⟨n, hchain⟩ := e.chain_entered h
      rw [hchain] at hc
      cases hc
      simp only [e.agenda]
      rfl
    · have hold := (e.edits_entered.exit j fun he => hjb (Option.some.inj he).symm).symm.trans hx
      exact .inl (e.edits_entered.grows.visited f
        (h.visited_entry h.holds.current ((List.mem_cons.1 hj).resolve_left hjb) hold))
  · rw [e.current_entered] at hd
    cases hd

end Entering

/-- Where no subroutine of the chain starts none of its contexts does. -/
theorem Emitted.not_entered (h : Emitted st home path s b bci before i) {entry : Nat}
    (hentered : Chain.isEntered s.chain entry = false) :
    ∀ c ∈ s.chain, ∀ sub, c.subroutine = some sub → sub.entry ≠ entry := by
  intro c hc sub hsub hentry
  obtain ⟨d, outer, hchain⟩ := h.base.contexts.exists_cons
  have hcontexts := h.base.contexts
  rw [hchain] at hcontexts hc hentered
  have hmem := mem_subroutinesOf hcontexts hc (by simp [Context.isSubroutine, hsub])
  rw [Chain.isEntered, hcontexts.head.scope, List.any_eq_false] at hentered
  exact hentered c hmem (by simp [Context.entryIndex, hsub, hentry])

theorem Emitted.call (h : Emitted st home path s b bci before i) (o : Options) (hf : i.flow = .jsr)
    {entry : Nat} (htargets : i.targets = [entry]) :
    Yields (callSubroutine o b entry i.next) s st.InvHolds st.Ends := by
  have hh := h.holds
  obtain ⟨c, outer, hchain⟩ := h.base.contexts.exists_cons
  have hfits := (hchain ▸ h.base.contexts).head
  have hentry : entry ∈ st.survey.starts := h.target_mem_starts (by rw [htargets]; simp)
  have hnext : i.next ∈ st.survey.starts := h.next_mem_starts (by rw [Insn.fallsThrough, hf]; rfl)
    (by rw [Insn.endsBlock, hf]; rfl)
  unfold callSubroutine
  rw [yields_bind, yields_innermost hchain, yields_bind, yields_get]
  by_cases hentered : Chain.isEntered s.chain entry = true
  · simp only [hentered, if_true]
    exact ⟨.bailout _, (h.base.note _).within⟩
  · simp only [hentered, Bool.false_eq_true, if_false]
    refine (expectBlock_spec h.base hnext).bind ?_
    rintro r s₁ ⟨home₁, hbase₁, hquiet₁, hr, hchain₁⟩
    rw [yields_bind, yields_get, yields_bind, yields_ofExcept]
    by_cases hzero : entry = 0
    · subst hzero
      simp only [Context.enter, if_true]
      exact ⟨.badEntry hh.stretch.mem hf (by rw [htargets]; simp), hbase₁.within⟩
    · simp only [Context.enter, hzero, if_false]
      rw [yields_bind, yields_modify]
      obtain ⟨c₁, outer₁, hchain_s₁⟩ := hbase₁.contexts.exists_cons
      have hfits₁ := (hchain_s₁ ▸ hbase₁.contexts).head
      have hfresh : Fresh st home₁ s₁ b entry r { s₁.newContext c.scope c.table c.cursor c.pool o with
          subroutine := some { entry := entry, copies := .blank c.cursor.code.size }
          resume := some r
          continuation := c.continuation
          continuationFrame := c.continuationFrame } := by
        refine ⟨hfits.scope, hfits.table, hfits.code, hfits.continuation, ?_, by rw [hfits.code], rfl, rfl,
          hr.lt, ?_⟩
        · show (s₁.graph.scopes[c.scope]?.any Scope.declaresHandlers ||
            s₁.chain.head?.any (·.guarded)) = _
          rw [hfits.scope, hbase₁.laid.scopes, hchain_s₁]
          simp [hfits₁.guarded, Scope.declaresHandlers, Setting.scope]
        · rw [hr.home_eq, h.home_head hquiet₁]
      have hcurrent₁ := hquiet₁.current.trans hh.current
      have hbase₂ := hbase₁.push hcurrent₁ (h.home_head hquiet₁) hfresh
      refine (setUpHandlers_spec hbase₂ rfl rfl).bind ?_
      rintro - s₃ ⟨home₃, c₃, outer₃, sub₃, hs, hbase₃, hedits₃, hcurrent₃, hchain₃, houter₃, hsub₃, hentry₃,
        hhs, hresume₃, hlocal₃, hagenda₃, hsees₃⟩
      rw [yields_bind, yields_modify]
      have hbase₃' : Base st home₃ (b :: path) (s₃.note (.pushed (Context.label { s₁.newContext c.scope
          c.table c.cursor c.pool o with
            subroutine := some { entry := entry, copies := .blank c.cursor.code.size } }))) :=
        hbase₃.rechain rfl rfl rfl rfl rfl
      refine (expectBlock_spec hbase₃' hentry).bind ?_
      rintro first t ⟨home', hbase, hsched, hfirst, hchain_t⟩
      rw [yields_bind, yields_modify, yields_modify]
      have hsame : t.chain.map Context.withoutCopies = (c₃ :: outer₃).map Context.withoutCopies := by
        rw [hchain_t, ← hchain₃]; rfl
      obtain ⟨c', outer', hchain', hhead, htail⟩ := List.map_eq_cons_iff.1 hsame
      have hidle := Context.idle_of_withoutCopies hhead
      obtain ⟨sub', hsub', hentry', hhs'⟩ := Context.exists_subroutine hidle hsub₃
      have hentry_eq : sub'.entry = entry := hentry'.trans hentry₃
      have houter : outer'.map Context.idle = s.chain.map Context.idle :=
        (Context.map_idle_of_withoutCopies (htail.trans houter₃)).trans hquiet₁.chain
      have hedits : Edits none [] home s.graph home' t.graph :=
        (hquiet₁.edits.trans hedits₃).trans hsched.edits
      let e : Entering st home path s b i :=
        { home' := home', state := t, context := c', outer := outer', sub := sub', handlers := hs
          first := first, back := r, base := hbase, edits := hedits
          current := hsched.current.trans (hcurrent₃.trans hcurrent₁)
          chain := hchain', outer_idle := houter
          targets := by rw [hentry_eq, htargets]
          subroutine := hsub', sub_handlers := hhs'.trans hhs
          sees := hsees₃.imp fun _ _ hx => hx.grows hsched.edits.grows
          resume := ((congrArg Context.resume hidle :) : c'.resume = c₃.resume).trans hresume₃
          returnLocal :=
            ((congrArg Context.returnLocal hidle :) : c'.returnLocal = c₃.returnLocal).trans hlocal₃
          agenda := ((congrArg Context.agenda hhead :) : c'.agenda = c₃.agenda).trans hagenda₃
          first_lies := hentry_eq ▸ hfirst
          back_lies := hsched.edits.grows.liesAt (hedits₃.grows.liesAt hr)
          nonzero := hentry_eq ▸ hzero
          unentered := hentry_eq ▸ h.not_entered (Bool.not_eq_true _ ▸ hentered) }
      exact ⟨home', b :: path, e.inv h hf⟩

end BlockGraph
