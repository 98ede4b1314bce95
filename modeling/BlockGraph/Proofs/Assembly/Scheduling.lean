import Mathlib.Data.List.Forall2
import BlockGraph.Proofs.Assembly.Queue
import BlockGraph.Proofs.Outcome

/-!
# Finding and scheduling blocks

What the actions do that look for blocks and put them on the agenda: at starts they find what they
look for (`expectBlock_spec`, `scheduleAt_spec`, `scheduleAll_spec`), and `linkHandlers` gives the
open block an edge for each handler that protects an instruction, in order, and no other
(`linkHandlers_spec`).
-/

namespace BlockGraph

open Assembly

variable {st : Setting} {home home' : Homes} {path : List BlockId} {s : Assembly} {bci : Nat}
  {b : BlockId} {bad : Fault → Assembly → Prop}

/-! ## Looking for a block -/

theorem expectBlock_spec (h : Base st home path s) (hbci : bci ∈ st.survey.starts) :
    Yields (expectBlock bci) s (fun b t => ∃ home', Base st home' path t ∧
      CopiedAndQueued none [] home s home' t ∧ t.graph.LiesAt home' path.head? bci b ∧
      t.chain.map Context.withoutCopies = s.chain.map Context.withoutCopies) bad := by
  obtain ⟨b, home', t, hlocate, hbase, hsched, hlies, hchain⟩ := h.locate hbci
  unfold expectBlock
  rw [yields_bind, yields_modifyGet, hlocate]
  exact ⟨home', hbase, hsched, hlies, hchain⟩

/-- A block that lies at a start in the innermost copy and is queued. -/
def Leads (home : Homes) (g : Graph) (call : Option BlockId) (bci : Nat) (b : BlockId) : Prop :=
  g.LiesAt home call bci b ∧ (g.block b).queued = true

theorem Leads.grows {g g' : Graph} {call : Option BlockId} (h : Leads home g call bci b)
    (hg : Grows home g home' g') : Leads home' g' call bci b := ⟨hg.liesAt h.1, hg.queued b h.2⟩

theorem scheduleAt_spec (h : Base st home path s) (hbci : bci ∈ st.survey.starts) :
    Yields (scheduleAt bci) s (fun b t => ∃ home', Base st home' path t ∧
      CopiedAndQueued none [b] home s home' t ∧ Leads home' t.graph path.head? bci b) bad := by
  unfold scheduleAt
  refine (expectBlock_spec h hbci).bind ?_
  rintro b t ⟨home', hbase, hsched, hlies, -⟩
  obtain ⟨hbase', hsched', hqueued⟩ := hbase.schedule hlies.lt (.inr hlies.home_eq)
  rw [yields_bind, yields_modify, yields_pure]
  exact ⟨home', hbase', hsched.trans hsched', hsched'.edits.grows.liesAt hlies, hqueued⟩

theorem scheduleAll_spec : ∀ {targets : List Nat} {home : Homes} {s : Assembly},
    Base st home path s → (∀ t ∈ targets, t ∈ st.survey.starts) →
    Yields (targets.mapM scheduleAt) s (fun ds t => ∃ home', Base st home' path t ∧
      CopiedAndQueued none ds home s home' t ∧ List.Forall₂ (Leads home' t.graph path.head?) targets ds) bad
  | [], home, s, h, _ => by
    rw [List.mapM_nil, yields_pure]
    exact ⟨home, h, .refl _ _ _, .nil⟩
  | t :: targets, home, s, h, hstarts => by
    rw [List.mapM_cons]
    refine (scheduleAt_spec h (hstarts t List.mem_cons_self)).bind ?_
    rintro d s₁ ⟨home₁, hbase₁, hquiet₁, hlies₁⟩
    refine (scheduleAll_spec hbase₁ fun t ht => hstarts t (List.mem_cons_of_mem _ ht)).bind ?_
    rintro ds s₂ ⟨home₂, hbase₂, hquiet₂, hlies₂⟩
    rw [yields_pure]
    refine ⟨home₂, hbase₂, (hquiet₁.trans hquiet₂).mono ?_, .cons (hlies₁.grows hquiet₂.edits.grows) hlies₂⟩
    simp [or_comm]

/-! ## Handlers -/

/-- In the copy that was made for a call, a declared handler is seen as `x'`. -/
def Sees (home : Homes) (g : Graph) (call : Option BlockId) (x x' : Handler) : Prop :=
  (∀ bci, x'.protects bci = x.protects bci) ∧ ∃ d, x'.entry = some d ∧ Catches home g call x d

/-- A context parses the subroutine of its call. -/
structure CallFits (st : Setting) (home : Homes) (g : Graph) (call : Option BlockId) (c : Context) :
    Prop where
  root : call = none → c.resume = none
  called : ∀ j, call = some j → ∃ sub e r hs, c.subroutine = some sub ∧
    (g.block j).exit = some (.jsr e r) ∧ c.resume = some r ∧ g.LiesAt home (some j) sub.entry e ∧
    sub.handlers = some hs ∧ List.Forall₂ (Sees home g call) st.handlers hs

theorem CallFits.grows {g g' : Graph} {call : Option BlockId} {c : Context}
    (h : CallFits st home g call c) (hg : Grows home g home' g') : CallFits st home' g' call c where
  root := h.root
  called j hj := by
    obtain ⟨sub, e, r, hs, hsub, hexit, hresume, hlies, hhs, hsees⟩ := h.called j hj
    exact ⟨sub, e, r, hs, hsub, hg.exit j _ hexit, hresume, hg.liesAt hlies, hhs,
      hsees.imp fun x x' hx => ⟨hx.1, hx.2.imp fun d hd => ⟨hd.1, hd.2.grows hg⟩⟩⟩

theorem CallFits.of_idle {g : Graph} {call : Option BlockId} {c c' : Context}
    (h : CallFits st home g call c) (hidle : c'.idle = c.idle) : CallFits st home g call c' := by
  have hresume : c'.resume = c.resume := (congrArg Context.resume hidle :)
  refine ⟨fun hc => hresume.trans (h.root hc), fun j hj => ?_⟩
  obtain ⟨sub, e, r, hs, hc, hexit, hr, hlies, hhs, hsees⟩ := h.called j hj
  obtain ⟨sub', hc', hentry, hhandlers⟩ := Context.exists_subroutine hidle hc
  exact ⟨sub', e, r, hs, hc', hexit, hresume.trans hr, hentry ▸ hlies, hhandlers.trans hhs, hsees⟩

/-- Lists that are related element by element have partners for all elements. -/
theorem exists_of_forall₂ {α β : Type} {R : α → β → Prop} {l : List α} {l' : List β}
    (h : List.Forall₂ R l l') :
    (∀ x ∈ l, ∃ x' ∈ l', R x x') ∧ ∀ x' ∈ l', ∃ x ∈ l, R x x' := by
  induction h with
  | nil => simp
  | cons hx _ ih =>
    constructor
    · intro y hy
      rcases List.mem_cons.1 hy with rfl | hy
      · exact ⟨_, List.mem_cons_self, hx⟩
      · obtain ⟨y', hy', hsees⟩ := ih.1 y hy
        exact ⟨y', List.mem_cons_of_mem _ hy', hsees⟩
    · intro y' hy'
      rcases List.mem_cons.1 hy' with rfl | hy'
      · exact ⟨_, List.mem_cons_self, hx⟩
      · obtain ⟨y, hy, hsees⟩ := ih.2 y' hy'
        exact ⟨y, List.mem_cons_of_mem _ hy, hsees⟩

/-- Outside of subroutines a declared handler leads to the block of the table. -/
theorem Laid.sees_self {g : Graph} (h : Laid st home g) {x : Handler} (hx : x ∈ st.handlers) :
    Sees home g none x x := by
  refine ⟨fun _ => rfl, ?_⟩
  unfold Catches
  cases ht : x.target with
  | code bci =>
    obtain ⟨d, hd⟩ := st.exists_get (st.handler_mem_starts hx ht)
    exact ⟨d, (st.entry_eq_get hx ht).trans hd, h.get_iff.1 hd⟩
  | unlock =>
    obtain ⟨d, hd, hlt, hsite⟩ := h.unlock_entry x hx ht
    exact ⟨d, hd, hd, hlt, hsite⟩

theorem Laid.catches_unique {g : Graph} {call : Option BlockId} {x : Handler} {d d' : BlockId}
    (h : Laid st home g) (hd : Catches home g call x d) (hd' : Catches home g call x d') : d = d' := by
  unfold Catches at hd hd'
  cases ht : x.target with
  | code bci => rw [ht] at hd hd'; exact h.unique hd hd'
  | unlock => rw [ht] at hd hd'; exact Option.some.inj (hd.1.symm.trans hd'.1)

/-- Every context sees all declared handlers. -/
theorem exists_visibleHandlers {call : Option BlockId} {c : Context} (h : Laid st home s.graph)
    (hfits : ContextFits st home s.graph call c) (hcall : CallFits st home s.graph call c) :
    ∃ hs, c.visibleHandlers s.graph = .ok hs ∧
      List.Forall₂ (Sees home s.graph call) st.handlers hs := by
  cases call with
  | none =>
    refine ⟨st.handlers, ?_, List.forall₂_same.2 fun x hx => h.sees_self hx⟩
    rw [Context.visibleHandlers, hfits.root rfl, hfits.scope, h.declaredHandlers]
  | some j =>
    obtain ⟨sub, e, r, hs, hsub, -, -, -, hhs, hsees⟩ := hcall.called j rfl
    exact ⟨hs, by rw [Context.visibleHandlers, hsub]; simp only [hhs], hsees⟩

/-- In a copy the index where a handler starts tells where it leads. -/
theorem Laid.catches_inj {g : Graph} {call : Option BlockId} {x y : Handler} {d e : BlockId}
    (h : Laid st home g) (hx : x ∈ st.handlers) (hy : y ∈ st.handlers) (hd : Catches home g call x d)
    (he : Catches home g call y e) (hsite : (g.block d).site = (g.block e).site) : d = e := by
  have htarget : x.target = y.target := hd.site.symm.trans (hsite.trans he.site)
  cases ht : x.target with
  | code bci =>
    rw [Catches, ht] at hd
    rw [Catches, ← htarget, ht] at he
    exact h.unique hd he
  | unlock =>
    have hxy := st.unlock_unique hx hy ht (htarget.symm.trans ht)
    exact h.catches_unique hd (hxy ▸ he)

/-! ## What is listed once -/

/-- Adds a block at the end of a list, unless it is there. -/
def addNew (l : List BlockId) (d : BlockId) : List BlockId := if d ∈ l then l else l ++ [d]

/-- Adding blocks that `f` tells apart adds what `f` makes of them. -/
theorem map_addNew {α : Type} [DecidableEq α] {f : BlockId → α} :
    ∀ (entries : List BlockId) {l : List BlockId} {listed : List α}, l.map f = listed.eraseDups →
      (∀ c ∈ l ++ entries, ∀ d ∈ entries, f c = f d → c = d) →
      (entries.foldl addNew l).map f = (listed ++ entries.map f).eraseDups
  | [], l, listed, hl, _ => by simpa using hl
  | d :: entries, l, listed, hl, hinj => by
    have hmem : d ∈ l ↔ f d ∈ listed := by
      rw [← List.mem_eraseDups (l := listed), ← hl]
      refine ⟨List.mem_map_of_mem, fun hd => ?_⟩
      obtain ⟨c, hc, hcd⟩ := List.mem_map.1 hd
      exact hinj c (List.mem_append_left _ hc) d List.mem_cons_self hcd ▸ hc
    have hadd : (addNew l d).map f = (listed ++ [f d]).eraseDups := by
      unfold addNew
      rw [List.eraseDups_append, ← hl]
      by_cases hd : d ∈ l <;> simp [hd, ← hmem, List.removeAll, List.eraseDups_cons]
    have hsub : ∀ c ∈ addNew l d ++ entries, c ∈ l ++ d :: entries := by
      intro c hc
      unfold addNew at hc
      split at hc <;> simp at hc ⊢ <;> tauto
    rw [List.foldl_cons, List.map_cons, List.append_cons]
    exact map_addNew entries hadd fun c hc e he => hinj c (hsub c hc) e (List.mem_cons_of_mem _ he)

/-- Putting a block on the agenda changes of the blocks only whether they are queued. -/
theorem proj_schedule {α : Type} (p : Block → α) (hp : ∀ y : Block, p { y with queued := true } = p y)
    (d c : BlockId) : p ((schedule d s).graph.block c) = p (s.graph.block c) := by
  unfold schedule
  cases s.chain with
  | nil => rfl
  | cons =>
    simp only
    split
    · rfl
    · exact Graph.proj_modifyBlock p hp

/-! ## Linking handlers -/

/-- Gives a block edges to the entries of some handlers and puts those on the agenda. -/
def linkEntries (b : BlockId) (entries : List BlockId) (s : Assembly) : Assembly :=
  entries.foldl (fun s entry => schedule entry { s with graph := s.graph.addHandlerEdge b entry }) s

/-- The entries are listed in order, each once. -/
theorem handlers_linkEntries : ∀ (entries : List BlockId) {s : Assembly}, (s.graph.block b).visited = true →
    ((linkEntries b entries s).graph.block b).handlers =
      entries.foldl addNew (s.graph.block b).handlers
  | [], _, _ => rfl
  | d :: entries, s, hv => by
    generalize hlinked : ({ s with graph := s.graph.addHandlerEdge b d } : Assembly) = s₁
    have hblock : s₁.graph.block b =
        { s.graph.block b with handlers := addNew (s.graph.block b).handlers d } := by
      rw [← hlinked]
      show (s.graph.addHandlerEdge b d).block b = _
      rw [Graph.block_addHandlerEdge]
      unfold addNew
      by_cases hd : d ∈ (s.graph.block b).handlers <;> simp [hd, Graph.lt_of_visited hv]
    have hhandlers : ((schedule d s₁).graph.block b).handlers = addNew (s.graph.block b).handlers d := by
      rw [proj_schedule Block.handlers (fun _ => rfl), hblock]
    have hv' : ((schedule d s₁).graph.block b).visited = true := by
      rw [proj_schedule Block.visited (fun _ => rfl), hblock]
      exact hv
    have hstep : linkEntries b (d :: entries) s = linkEntries b entries (schedule d s₁) := by
      rw [← hlinked]; rfl
    rw [hstep, handlers_linkEntries entries hv', hhandlers, List.foldl_cons]

theorem linkEntries_spec : ∀ (entries : List BlockId) {s : Assembly}, Base st home path s →
    s.current = some b →
    (∀ d ∈ entries, d < s.graph.blocks.size ∧
      ((s.graph.block d).queued = true ∨ home d = path.head?)) →
    Base st home path (linkEntries b entries s) ∧
      CopiedAndQueued (some b) entries home s home (linkEntries b entries s) ∧
      (linkEntries b entries s).graph.body b = s.graph.body b ∧
      (∀ d, d ∈ ((linkEntries b entries s).graph.block b).handlers ↔
        d ∈ (s.graph.block b).handlers ∨ d ∈ entries) ∧
      ∀ d ∈ entries, ((linkEntries b entries s).graph.block d).queued = true
  | [], s, h, _, _ => ⟨h, .refl _ _ _, rfl, by simp [linkEntries], by simp⟩
  | d :: entries, s, h, hb, hentries => by
    obtain ⟨hd, hplace⟩ := hentries d List.mem_cons_self
    have hlt := Graph.lt_of_visited (h.queue.current b hb).1
    obtain ⟨hbase₁, hedits₁, hbody₁⟩ := h.addHandlerEdge hb hd
    have hmem₁ : ∀ e, e ∈ ((s.graph.addHandlerEdge b d).block b).handlers ↔
        e ∈ (s.graph.block b).handlers ∨ e = d := fun e => Graph.mem_handlers_addHandlerEdge hlt
    obtain ⟨hbase₂, hquiet₂, hqueued₂⟩ := hbase₁.schedule (hedits₁.grows.lt hd)
      (hplace.imp (hedits₁.grows.queued d) id)
    generalize hs₂ : schedule d { s with graph := s.graph.addHandlerEdge b d } = s₂ at *
    have hgrows := hedits₁.grows.trans hquiet₂.edits.grows
    obtain ⟨hbase₃, hquiet₃, hbody₃, hmem₃, hqueued₃⟩ := linkEntries_spec entries hbase₂
      (hquiet₂.current.trans hb) fun e he => by
        obtain ⟨helt, heplace⟩ := hentries e (List.mem_cons_of_mem _ he)
        exact ⟨hgrows.lt helt, heplace.imp (hgrows.queued e) id⟩
    have hstep : linkEntries b (d :: entries) s = linkEntries b entries s₂ := by rw [← hs₂]; rfl
    rw [hstep]
    refine ⟨hbase₃, ?_, ?_, fun e => ?_, fun e he => ?_⟩
    · have hquiet₁ : CopiedAndQueued (some b) [] home s home { s with graph := s.graph.addHandlerEdge b d } :=
        ⟨hedits₁, rfl, rfl, rfl⟩
      refine ((hquiet₁.trans hquiet₂.touch).trans hquiet₃).mono fun e he => ?_
      simpa [or_comm] using he
    · rw [hbody₃, hquiet₂.edits.body_eq b]; exact hbody₁
    · rw [hmem₃, hquiet₂.edits.handlers_eq b]
      show e ∈ ((s.graph.addHandlerEdge b d).block b).handlers ∨ _ ↔ _
      rw [hmem₁, List.mem_cons, or_assoc]
    · rcases List.mem_cons.1 he with rfl | he
      · exact hquiet₃.edits.grows.queued e hqueued₂
      · exact hqueued₃ e he

/-- Where the handlers that protect an instruction start in a copy. -/
theorem mem_entries_iff {g : Graph} {call : Option BlockId} {hs : List Handler} {d : BlockId}
    (hlaid : Laid st home g) (hsees : List.Forall₂ (Sees home g call) st.handlers hs) :
    d ∈ (hs.filter (·.protects bci)).filterMap (·.entry) ↔
      ∃ x ∈ st.handlers, x.protects bci = true ∧ Catches home g call x d := by
  rw [List.mem_filterMap]
  constructor
  · rintro ⟨x', hx', hd⟩
    obtain ⟨hx', hp⟩ := List.mem_filter.1 hx'
    obtain ⟨x, hx, hprotects, e, he, hcatches⟩ := (exists_of_forall₂ hsees).2 x' hx'
    rw [hd] at he
    cases he
    exact ⟨x, hx, (hprotects bci).symm.trans hp, hcatches⟩
  · rintro ⟨x, hx, hp, hcatches⟩
    obtain ⟨x', hx', hprotects, e, he, hcatches'⟩ := (exists_of_forall₂ hsees).1 x hx
    rw [hlaid.catches_unique hcatches hcatches']
    exact ⟨x', List.mem_filter.2 ⟨hx', (hprotects bci).trans hp⟩, he⟩

/-- The handlers that protect an instruction lead to the entries that are linked, one by one. -/
theorem forall₂_entries {g : Graph} {call : Option BlockId} {l hs : List Handler}
    (hsees : List.Forall₂ (Sees home g call) l hs) :
    List.Forall₂ (Catches home g call) (l.filter (·.protects bci))
      ((hs.filter (·.protects bci)).filterMap (·.entry)) := by
  induction hsees with
  | nil => exact .nil
  | @cons x x' _ _ hx _ ih =>
    obtain ⟨hprotects, d, hd, hcatches⟩ := hx
    by_cases hp : x.protects bci = true
    · have hp' : x'.protects bci = true := (hprotects bci).trans hp
      simp only [List.filter_cons, hp, hp', if_true, List.filterMap_cons_some hd]
      exact .cons hcatches ih
    · have hp' : ¬ x'.protects bci = true := fun h => hp ((hprotects bci).symm.trans h)
      simpa [hp, hp'] using ih

theorem sites_of_catches {g : Graph} {call : Option BlockId} {l : List Handler} {entries : List BlockId}
    (h : List.Forall₂ (Catches home g call) l entries) :
    entries.map (fun d => (g.block d).site) = l.map (·.target) := by
  induction h with
  | nil => rfl
  | cons hc _ ih => rw [List.map_cons, List.map_cons, hc.site, ih]

/-- A handler of the innermost copy may be put on the agenda, since the block that unlocks is queued
before the first call. -/
theorem Catches.place {g : Graph} {x : Handler} {d : BlockId} (hlaid : Laid st home g)
    (hcatches : Catches home g path.head? x d) (hx : x ∈ st.handlers)
    (hunlock : path = [] ∨ ∀ x ∈ st.handlers, x.target = .unlock → ∀ d, x.entry = some d →
      (g.block d).queued = true) : (g.block d).queued = true ∨ home d = path.head? := by
  cases ht : x.target with
  | code bci =>
    rw [Catches, ht] at hcatches
    exact .inr hcatches.home_eq
  | unlock =>
    rw [Catches, ht] at hcatches
    rcases hunlock with rfl | hunlock
    · exact .inr (hlaid.unlock d hcatches.2.1 hcatches.2.2).1
    · exact .inl (hunlock x hx ht d hcatches.1)

/-- An instruction gives the open block an edge to each handler that protects it. -/
theorem linkHandlers_spec (h : Base st home path s)
    (hcalls : Nest (CallFits st home s.graph) s.chain path) (hb : s.current = some b)
    (hunlock : path = [] ∨ ∀ x ∈ st.handlers, x.target = .unlock → ∀ d, x.entry = some d →
      (s.graph.block d).queued = true) :
    Yields (linkHandlers b bci) s (fun _ t => Base st home path t ∧
      (∃ new, CopiedAndQueued (some b) new home s home t ∧
        ∀ d ∈ new, d ∈ (t.graph.block b).handlers) ∧
      t.graph.body b = s.graph.body b ∧
      (∀ x ∈ st.handlers, x.protects bci = true → ∃ d ∈ (t.graph.block b).handlers,
        (t.graph.block d).queued = true ∧ Catches home t.graph path.head? x d) ∧
      (∀ d ∈ (s.graph.block b).handlers, d ∈ (t.graph.block b).handlers) ∧
      (∀ d ∈ (t.graph.block b).handlers, d ∈ (s.graph.block b).handlers ∨
        (t.graph.block d).queued = true ∧
          ∃ x ∈ st.handlers, x.protects bci = true ∧ Catches home t.graph path.head? x d) ∧
      ∃ entries, (t.graph.block b).handlers = entries.foldl addNew (s.graph.block b).handlers ∧
        List.Forall₂ (Catches home t.graph path.head?) (st.handlers.filter (·.protects bci)) entries)
      bad := by
  obtain ⟨c, outer, hchain⟩ := h.contexts.exists_cons
  have hfits := (hchain ▸ h.contexts).head
  unfold linkHandlers
  rw [yields_bind, yields_innermost hchain]
  split
  · rename_i hguarded
    obtain ⟨hs, hvisible, hsees⟩ := exists_visibleHandlers h.laid hfits (hchain ▸ hcalls).head
    rw [yields_bind, yields_get, yields_bind, yields_ofExcept, hvisible]
    show Yields (modify (linkEntries b _)) s _ _
    rw [yields_modify]
    generalize hentries : (hs.filter (·.protects bci)).filterMap (·.entry) = entries
    have hmem : ∀ d, d ∈ entries ↔
        ∃ x ∈ st.handlers, x.protects bci = true ∧ Catches home s.graph path.head? x d := by
      intro d
      rw [← hentries]
      exact mem_entries_iff h.laid hsees
    have hplace : ∀ d ∈ entries, d < s.graph.blocks.size ∧
        ((s.graph.block d).queued = true ∨ home d = path.head?) := by
      intro d hd
      obtain ⟨x, hx, -, hcatches⟩ := (hmem d).1 hd
      exact ⟨hcatches.lt, hcatches.place h.laid hx hunlock⟩
    obtain ⟨hbase, hsched, hbody, hhandlers, hqueued⟩ := linkEntries_spec entries h hb hplace
    have hgrows := hsched.edits.grows
    refine ⟨hbase, ⟨entries, hsched, fun d hd => (hhandlers d).2 (.inr hd)⟩, hbody, fun x hx hp => ?_,
      fun d hd => (hhandlers d).2 (.inl hd), fun d hd => ?_, entries,
      handlers_linkEntries entries (h.queue.current b hb).1, ?_⟩
    · obtain ⟨x', hx', hprotects, d, he, hcatches⟩ := (exists_of_forall₂ hsees).1 x hx
      have hd : d ∈ entries := (hmem d).2 ⟨x, hx, hp, hcatches⟩
      exact ⟨d, (hhandlers d).2 (.inr hd), hqueued d hd, hcatches.grows hgrows⟩
    · refine ((hhandlers d).1 hd).imp id fun hd => ⟨hqueued d hd, ?_⟩
      obtain ⟨x, hx, hp, hcatches⟩ := (hmem d).1 hd
      exact ⟨x, hx, hp, hcatches.grows hgrows⟩
    · have hlead : List.Forall₂ (Catches home s.graph path.head?) (st.handlers.filter (·.protects bci)) entries :=
        hentries ▸ forall₂_entries hsees
      exact hlead.imp fun _ _ hc => hc.grows hgrows
  · rename_i hguarded
    have hnone : st.handlers = [] := by
      rw [hfits.guarded] at hguarded
      simpa using hguarded
    rw [yields_pure]
    refine ⟨h, ⟨[], .refl _ _ _, by simp⟩, rfl, ?_, fun d hd => hd, fun d hd => .inl hd, [], rfl, ?_⟩
    all_goals simp [hnone]

end BlockGraph
