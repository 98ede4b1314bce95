import BlockGraph.Proofs.Assembly.Making
import BlockGraph.Proofs.Layout.Placing

/-!
# Preparing an assembly

Before the first step the blocks of the method are placed, its handlers declared and its beginning put
on the agenda. The result satisfies the invariant, with a setting for the method; the only faults are those
of the layout and the fault of a handler without code (`prepare_spec`).
-/

namespace BlockGraph

open Assembly

variable {m : Method} {pool : ConstantPool} {o : Options} {table : BlockTable} {g : Graph}
  {unlocks : List BlockId} {s : Assembly}

/-- Where nothing has been parsed, only scopes and the beginning refer to blocks. -/
theorem Placed.inRange (h : Placed g table unlocks) (hstart : ∀ b, g.start = some b → b < g.blocks.size)
    (hentries : ∀ scope ∈ g.scopes, ∀ x ∈ scope.handlers, ∀ b, x.entry = some b → b < g.blocks.size) :
    g.InRange where
  instrs b id hid := by rw [h.blank b] at hid; simp [Block.blankCopy] at hid
  refs b d hd := by rw [h.blank b] at hd; simp [Block.blankCopy, Block.refs] at hd
  owners i hi := by rw [h.instrs] at hi; simp at hi
  order b hb := by rw [h.order] at hb; simp at hb
  start := hstart
  entries := hentries

/-! ## Declaring handlers -/

/-- Declaring the handlers of a method fails on those without code only. -/
theorem declareHandlers_spec : ∀ (l : List Handler) (s : Assembly) {scope : Scope},
    s.graph.scopes = #[scope] → Placed s.graph table unlocks → s.graph.InRange → s.chain = [] →
    s.current = none → s.parsedBlocks = 0 →
    (∀ x ∈ l, ∀ bci, x.entryIndex? = some bci → (table.get bci).isSome = true) →
    Yields (declareHandlers pool 0 table l) s
      (fun _ t => (∀ x ∈ l, x.isUnlock = false) ∧ t.graph.InRange ∧
        t.graph = { s.graph with
          scopes := #[{ scope with handlers := scope.handlers ++ l.map table.resolve }] } ∧
        t.chain = [] ∧ t.current = none ∧ t.parsedBlocks = 0)
      (fun fault t => t.Within ∧ fault = .noBlock Site.unlockIndex ∧ ∃ x ∈ l, x.isUnlock = true)
  | [], s, scope, hscopes, _, hrange, hchain, hcurrent, hparsed, _ => by
    refine ⟨by simp, hrange, ?_, hchain, hcurrent, hparsed⟩
    rw [List.map_nil, List.append_nil, ← hscopes]
  | x :: rest, s, scope, hscopes, hplaced, hrange, hchain, hcurrent, hparsed, hstarts => by
    rw [declareHandlers]
    cases hentry : x.entryIndex? with
    | none =>
      have hunlock := (Handler.isUnlock_iff x).2 hentry
      have ht : x.target = .unlock := beq_iff_eq.1 hunlock
      refine ⟨⟨hrange, ?_, ?_⟩, by rw [ht]; rfl, x, List.mem_cons_self, hunlock⟩
      · rw [hchain]; simp
      · rw [hcurrent]; simp
    | some bci =>
      obtain ⟨entry, hget⟩ := Option.isSome_iff_exists.1 (hstarts x List.mem_cons_self bci hentry)
      have hresolve : { x with entry := some entry } = table.resolve x := by
        simp only [BlockTable.resolve, hentry, Option.bind_some, hget]
      simp only [Option.bind_some, hget]
      rw [yields_bind, yields_modify, hresolve]
      let declared : Assembly :=
        { s.note (.handler (pool.caughtName x.catchType) x.first x.limit entry) with
          graph := s.graph.declareHandler 0 (table.resolve x) }
      have hdeclared : declared.graph = { s.graph with scopes := #[scope.declare (table.resolve x)] } :=
        Graph.declareHandler_eq hscopes
      have hrange' : declared.graph.InRange := by
        refine hrange.declareHandler hscopes fun b hb => ?_
        rw [← hresolve] at hb
        cases hb
        exact ((hplaced.get_iff bci entry).1 hget).1
      have hplaced' : Placed declared.graph table unlocks :=
        hdeclared ▸ hplaced.congr rfl rfl rfl
      refine (declareHandlers_spec rest declared (congrArg Graph.scopes hdeclared :) hplaced' hrange' hchain
        hcurrent hparsed fun y hy => hstarts y (List.mem_cons_of_mem _ hy)).mono ?_ ?_
      · rintro - t ⟨hcoded, hrange_t, hgraph, hidle⟩
        refine ⟨fun y hy => ?_, hrange_t, ?_, hidle⟩
        · rcases List.mem_cons.1 hy with rfl | hy
          · refine Bool.eq_false_iff.2 fun hu => ?_
            rw [Handler.isUnlock_iff, hentry] at hu
            cases hu
          · exact hcoded y hy
        · rw [hgraph, hdeclared]
          simp [Scope.declare]
      · rintro fault t ⟨hwithin, hfault, y, hy, hu⟩
        exact ⟨hwithin, hfault, y, List.mem_cons_of_mem _ hy, hu⟩

/-! ## Before the first step -/

/-- The handler of a synchronized method, which starts at the block `entry`. -/
def Setting.unlockHandler (st : Setting) (entry : BlockId) : Handler where
  first := 0
  limit := st.method.code.size
  target := .unlock
  catchType := 0
  entry := some entry

/-- A setting with the handler of a synchronized method. -/
def Setting.synchronized (st : Setting) (entry : BlockId) : Setting :=
  { st with
    unlocks := [st.unlockHandler entry]
    unlock := by
      intro x hx
      cases List.mem_singleton.1 hx
      refine ⟨rfl, fun bci hb => ?_⟩
      simp [Setting.unlockHandler, Handler.protects, hb]
    single := Nat.le_refl 1 }

/-- The blocks of a method are placed and its handlers are declared. -/
structure Declared (st : Setting) (g : Graph) : Prop where
  placed : Placed g st.table (st.unlocks.filterMap (·.entry))
  range : g.InRange
  scopes : g.scopes = #[st.scope]
  entries : ∀ x ∈ st.unlocks, x.entry.isSome = true
  layout : ∀ s ∈ st.survey.layout, ∀ b, st.table.get s.bci = some b → (g.block b).blankCopy = s.block

namespace Declared

variable {st : Setting}

/-- The handler of a synchronized method is declared after the others. -/
theorem declareUnlock (h : Declared st s.graph) (hnone : st.unlocks = []) :
    Declared (st.synchronized s.graph.blocks.size) (declareUnlock st.method 0 s).graph := by
  let g := (s.graph.newBlock (unlockBlock s.graph)).2
  let scope := (st.synchronized s.graph.blocks.size).scope
  have hscopes : s.graph.scopes = #[st.scope] := h.scopes
  have hgraph : (Assembly.declareUnlock st.method 0 s).graph = { g with scopes := #[scope] } := by
    show g.declareHandler 0 (st.unlockHandler s.graph.blocks.size) = _
    rw [Graph.declareHandler_eq (show g.scopes = #[st.scope] from hscopes)]
    simp only [scope, Scope.declare, Setting.scope, Setting.handlers, hnone, List.append_nil]
    rfl
  have hplaced₀ : Placed g st.table [s.graph.blocks.size] :=
    Placed.newBlock (by simpa [hnone] using h.placed) rfl (by simp [unlockBlock]) (by simp [unlockBlock])
      (by simp [unlockBlock])
  have hplaced : Placed { g with scopes := #[scope] } st.table [s.graph.blocks.size] :=
    hplaced₀.congr rfl rfl rfl
  have hsize : g.blocks.size = s.graph.blocks.size + 1 := Array.size_push _
  have hentries : ∀ x ∈ scope.handlers, ∀ b, x.entry = some b → b < g.blocks.size := by
    intro x hx b hb
    rw [hsize]
    rcases List.mem_append.1 hx with hx | hx
    · refine Nat.lt_succ_of_lt (h.range.entries st.scope (by rw [hscopes]; simp) x ?_ b hb)
      exact List.mem_append_left _ hx
    · cases List.mem_singleton.1 hx
      cases hb
      exact Nat.lt_succ_self _
  rw [hgraph]
  refine ⟨hplaced, hplaced.inRange (fun b hb => ?_) fun sc hsc => ?_, rfl, fun x hx => ?_,
    fun k hk b hb => ?_⟩
  · rw [show Array.size _ = _ from hsize]
    exact Nat.lt_succ_of_lt (h.range.start b hb)
  · cases show sc = scope by simpa using hsc
    exact hentries
  · cases List.mem_singleton.1 hx
    rfl
  · have hlt := ((h.placed.get_iff k.bci b).1 hb).1
    have hold : g.block b = s.graph.block b := Graph.block_newBlock_of_lt hlt
    exact (congrArg Block.blankCopy hold).trans (h.layout k hk b hb)

/-- The graph is told which of its blocks is the beginning. -/
theorem setStart (h : Declared st g) {start : BlockId} (hlt : start < g.blocks.size) :
    Declared st { g with start := some start } where
  placed := h.placed.congr rfl rfl rfl
  range := by
    refine ⟨h.range.instrs, h.range.refs, h.range.owners, h.range.order, fun b hb => ?_, h.range.entries⟩
    cases hb
    exact hlt
  scopes := h.scopes
  entries := h.entries
  layout := h.layout

/-- No block lies in the copy of a call. -/
theorem liesAt_iff (h : Declared st g) {call : Option BlockId} {bci : Nat} {b : BlockId} :
    g.LiesAt (fun _ => none) call bci b ↔ call = none ∧ st.table.get bci = some b := by
  rw [h.placed.get_iff]
  constructor
  · intro hb
    exact ⟨hb.home_eq.symm, hb.lt, hb.site⟩
  · rintro ⟨hc, hlt, hsite⟩
    exact ⟨hlt, hc.symm, hsite⟩

theorem laid (h : Declared st g) : Laid st (fun _ => none) g := by
  constructor
  · intro b j _ hj
    cases hj
  · intro call bci b c hb hc
    exact Option.some.inj ((h.liesAt_iff.1 hb).2.symm.trans (h.liesAt_iff.1 hc).2)
  · intro bci b
    rw [h.liesAt_iff]
    simp
  · intro call bci b hb
    exact ⟨b, (h.liesAt_iff.1 hb).2, rfl⟩
  · exact h.layout
  · exact h.placed.defaultHandler_iff
  · intro b hb hs
    obtain ⟨x, hx, hentry⟩ := List.mem_filterMap.1 ((h.placed.mem_iff b).2 ⟨hb, hs⟩)
    exact ⟨rfl, x, List.mem_append_right _ hx, (st.unlock x hx).1, hentry⟩
  · intro x hx ht
    have hx := st.mem_unlocks hx ht
    obtain ⟨d, hd⟩ := Option.isSome_iff_exists.1 (h.entries x hx)
    have hplaced := (h.placed.mem_iff d).1 (List.mem_filterMap.2 ⟨x, hx, hd⟩)
    exact ⟨d, hd, hplaced.1, hplaced.2⟩
  · exact h.scopes

/-- The context of the method fits. -/
theorem newContext_fits (h : Declared st s.graph) (pool : ConstantPool) (o : Options)
    (hchain : s.chain = []) (home : Homes) (g : Graph) :
    ContextFits st home g none (s.newContext 0 st.table (.ofCode st.method.code) pool o) := by
  refine ⟨rfl, rfl, rfl, rfl, ?_, fun _ => rfl, by simp, ?_, ?_⟩
  · show (s.graph.scopes[0]?.any Scope.declaresHandlers || s.chain.head?.any (·.guarded)) = _
    rw [h.scopes, hchain]
    simp [Scope.declaresHandlers, Setting.scope]
  · intro b hb
    cases hb
  · intro sub hs hsub
    cases hsub

/-- Nothing has been parsed, and the agenda of the only context is empty. -/
theorem base {c : Context} (h : Declared st s.graph)
    (hfits : ContextFits st (fun _ => none) s.graph none c) (hagenda : c.agenda = {})
    (hchain : s.chain = [c]) (hcurrent : s.current = none) (hparsed : s.parsedBlocks = 0) :
    Base st (fun _ => none) [] s := by
  have hproj : ∀ {α : Type} (p : Block → α) (b : BlockId),
      p (s.graph.block b) = p (s.graph.block b).blankCopy := fun p b => congrArg p (h.placed.blank b)
  have hqueued : ∀ b, (s.graph.block b).queued = false := hproj Block.queued
  have hvisited : ∀ b, (s.graph.block b).visited = false := hproj Block.visited
  refine ⟨h.laid, h.range, trivial, ?_, by simp, ?_⟩
  · rw [hchain]
    exact .root hfits
  constructor
  · rw [hchain]
    refine .root ?_
    rw [hagenda]
    exact .empty
  · simp [hqueued]
  · simp [hvisited]
  · simp [hvisited, h.placed.order]
  · simp [h.placed.order]
  · simp [h.placed.order, hparsed]
  · simp [hvisited]
  · intro b _
    refine ⟨hproj Block.exit b, ?_, hproj Block.handlers b⟩
    unfold Graph.body
    rw [show (s.graph.block b).instrs = #[] from hproj Block.instrs b]
    rfl
  · simp [hcurrent]

/-- The context of the method with its beginning on the agenda. -/
theorem inv {c : Context} {start : BlockId} (h : Declared st s.graph)
    (hfits : ContextFits st (fun _ => none) s.graph none c) (hagenda : c.agenda = {})
    (hlocal : c.returnLocal = none) (hchain : s.chain = [c]) (hcurrent : s.current = none)
    (hparsed : s.parsedBlocks = 0) (hget : st.table.get 0 = some start) (hstart : s.graph.start = some start) :
    Inv st (fun _ => none) [] (schedule start s) := by
  have hbase := h.base hfits hagenda hchain hcurrent hparsed
  have hlies : s.graph.LiesAt (fun _ => none) none 0 start := h.liesAt_iff.2 ⟨rfl, hget⟩
  obtain ⟨hbase', hsched, hqueued⟩ := hbase.schedule hlies.lt (.inr rfl)
  have hgrows := hsched.edits.grows
  have hexit : ∀ b, ((schedule start s).graph.block b).exit = none := fun b =>
    (hsched.edits.exit_eq b).trans (congrArg Block.exit (h.placed.blank b))
  have hcalls : Nest (CallFits st (fun _ => none) s.graph) s.chain [] := by
    rw [hchain]
    refine .root ⟨fun _ => Option.eq_none_iff_forall_ne_some.2 fun b hb => ?_, by simp⟩
    obtain ⟨j, hj, -⟩ := hfits.resume b hb
    cases hj
  have haddresses : Nest (AddressKept st (fun _ => none) s.graph) s.chain [] := by
    rw [hchain]
    exact .root ⟨fun _ => hlocal, fun j sub n hj => (by cases hj), fun j sub n hj => by cases hj⟩
  have hfacts : Facts st (fun _ => none) [] (schedule start s).graph := by
    constructor
    · simp [hexit]
    · simp [hexit]
    · simp [hexit]
    · simp [hexit]
    · simp [hexit]
    · intro b hq _
      rcases hsched.edits.queued b hq with hq | hmem
      · rw [show (s.graph.block b).queued = false from congrArg Block.queued (h.placed.blank b)] at hq
        cases hq
      · cases List.mem_singleton.1 hmem
        exact ⟨start, hgrows.start.trans hstart, .refl⟩
    · simp [hexit]
    · exact .inl rfl
    · exact ⟨start, hgrows.start.trans hstart, hgrows.liesAt hlies, hqueued⟩
  refine ⟨⟨hbase', hfacts, hsched.calls hcalls,
    hsched.addresses (fun b => hsched.edits.body_eq b) haddresses, by simp⟩, fun b hb => ?_⟩
  rw [hsched.current, hcurrent] at hb
  cases hb

/-- Putting a block on the agenda parses none. -/
theorem order_schedule (b : BlockId) (s : Assembly) : (schedule b s).graph.order = s.graph.order := by
  unfold schedule
  cases s.chain with
  | nil => rfl
  | cons =>
    simp only
    split <;> rfl

/-- The method is begun once all handlers are declared. -/
theorem enter {start : BlockId} (h : Declared st s.graph) (hget : st.table.get 0 = some start)
    (hchain : s.chain = []) (hcurrent : s.current = none) (hparsed : s.parsedBlocks = 0)
    {bad : Fault → Assembly → Prop} :
    Yields (do
      modify fun s => { s with graph := { s.graph with start := some start } }
      let root := (← get).newContext 0 st.table (.ofCode st.method.code) pool o
      modify fun s => (s.note (.pushed root.label)).push root
      modify (schedule start)) s
      (fun _ t => ∃ home, Inv st home [] t ∧ t.Makes t.current [] ∧ t.graph.order = #[]) bad := by
  rw [yields_bind, yields_modify, yields_bind, yields_get]
  simp only
  rw [yields_bind, yields_modify, yields_modify]
  have hdeclared := h.setStart ((h.placed.get_iff 0 start).1 hget).1
  let started : Assembly := { s with graph := { s.graph with start := some start } }
  let root := started.newContext 0 st.table (.ofCode st.method.code) pool o
  have hfits : ContextFits st (fun _ => none) started.graph none root :=
    Declared.newContext_fits (s := started) hdeclared pool o hchain _ _
  have hblank : Assembly.Makes none [] ((started.note (.pushed root.label)).push root) :=
    ⟨hcurrent, .blank hdeclared.placed.blank hdeclared.placed.instrs hdeclared.placed.order⟩
  have hmakes := hblank.schedule (.start rfl)
  refine ⟨_, Declared.inv (c := root) hdeclared hfits rfl rfl ?_ hcurrent hparsed hget rfl, hmakes.1.symm ▸ hmakes,
    (order_schedule _ _).trans hdeclared.placed.order⟩
  show root :: s.chain = [root]
  rw [hchain]

end Declared

/-- How preparing a method may fail. -/
def Method.Rejects (m : Method) (fault : Fault) : Prop :=
  layout m.code m.handlers = .error fault ∨
    (∃ starts, layout m.code m.handlers = .ok starts) ∧
      (∃ x ∈ m.handlers, x.isUnlock = true) ∧ fault = .noBlock Site.unlockIndex

/-- The graph and the transcript before anything is laid out. -/
def begun (m : Method) : Assembly where
  graph := { scopes := #[.root m] }
  log := #[.building m.name m.code.size m.handlers.length]

theorem begun_inRange : (begun m).graph.InRange := by
  have hempty : Placed (begun m).graph (.blank 0) [] := .of_empty rfl rfl rfl
  refine hempty.inRange nofun fun scope hscope x hx => ?_
  cases show scope = Scope.root m by simpa [begun] using hscope
  cases hx

/-- The table and the graph of a method that has been laid out. -/
theorem Survey.declared {v : Survey} (h : Survey.ofMethod m.code m.handlers = .ok v) :
    Placed ((begun m).graph.place (.blank m.code.size) v.layout).1
        ((begun m).graph.place (.blank m.code.size) v.layout).2 [] ∧
      ((begun m).graph.place (.blank m.code.size) v.layout).1.InRange ∧
      ((begun m).graph.place (.blank m.code.size) v.layout).1.scopes = #[.root m] ∧
      (∀ bci, (((begun m).graph.place (.blank m.code.size) v.layout).2.get bci).isSome = true ↔
        bci ∈ v.starts) ∧
      ∀ s ∈ v.layout, ∀ b, ((begun m).graph.place (.blank m.code.size) v.layout).2.get s.bci = some b →
        ((begun m).graph.place (.blank m.code.size) v.layout).1.block b = s.block := by
  obtain ⟨hplaced, hscopes, hstart, hsome, hlayout⟩ :=
    Survey.placed (g := (begun m).graph) (Survey.size_eq h) rfl rfl rfl
  refine ⟨hplaced, hplaced.inRange (fun b hb => ?_) fun scope hscope x hx => ?_, hscopes, hsome,
    hlayout⟩
  · rw [hstart] at hb; cases hb
  · rw [hscopes] at hscope
    cases show scope = Scope.root m by simpa [begun] using hscope
    cases hx

theorem prepare_spec : Yields (prepare m pool o) {}
    (fun _ t => ∃ st home, st.method = m ∧ Inv st home [] t ∧ t.Makes t.current [] ∧
      st.unlocks.length = m.access.isSynchronized.toNat ∧ t.graph.order = #[])
    (fun fault t => m.Rejects fault ∧ t.Within) := by
  unfold prepare
  rw [yields_bind, yields_modify, yields_bind, yields_modifyGet]
  show Yields _ (begun m) _ _
  rw [yields_bind, yields_ofExcept]
  cases hsurvey : Survey.ofMethod m.code m.handlers with
  | error fault =>
    have hlayout : layout m.code m.handlers = .error fault := by rw [layout, hsurvey]; rfl
    rw [hlayout]
    exact ⟨.inl hlayout, begun_inRange, by simp [begun], by simp [begun]⟩
  | ok v =>
    have hlayout : layout m.code m.handlers = .ok v.layout := by rw [layout, hsurvey]; rfl
    obtain ⟨hplaced, hrange, hscopes, hstarts, hblocks⟩ := Survey.declared hsurvey
    rw [hlayout]
    simp only
    rw [yields_bind, yields_modifyGet]
    generalize hplace : (begun m).graph.place (.blank m.code.size) v.layout = p at *
    obtain ⟨g, table⟩ := p
    let placed : Assembly := { begun m with
      graph := g, log := (begun m).log ++ (Start.events v.layout m.code.size).toArray }
    show Yields _ placed _ _
    refine Yields.bind ((declareHandlers_spec m.handlers placed hscopes hplaced hrange rfl rfl rfl ?_).mono
      (fun _ _ h => h) ?_) ?_
    · intro x hx bci hbci
      exact (hstarts bci).2 (Survey.handler_mem_starts hsurvey hx hbci)
    · rintro fault t ⟨hwithin, rfl, hunlock⟩
      exact ⟨.inr ⟨⟨_, hlayout⟩, hunlock, rfl⟩, hwithin⟩
    · rintro - t ⟨hcoded, hrange, hgraph, hchain, hcurrent, hparsed⟩
      let st : Setting :=
        { method := m, survey := v, surveyed := hsurvey, table := table, isSome_get := hstarts,
          coded := hcoded, unlocks := [], unlock := by simp, single := Nat.zero_le 1 }
      have hdeclared : Declared st t.graph := by
        rw [hgraph] at hrange ⊢
        refine ⟨hplaced.congr rfl rfl rfl, hrange, ?_, by simp [st], fun s hs b hb => ?_⟩
        · simp [Scope.root, Setting.scope, Setting.handlers, st]
        · exact congrArg Block.blankCopy (hblocks s hs b hb)
      obtain ⟨start, hstart⟩ := Option.isSome_iff_exists.1
        ((hstarts 0).2 (Survey.zero_mem_starts hsurvey))
      simp only [hstart]
      split
      · rename_i hsync
        rw [yields_bind, yields_modify]
        refine ((hdeclared.declareUnlock rfl).enter hstart hchain hcurrent hparsed).mono ?_ fun _ _ hb => hb
        rintro - u ⟨home, hinv, hmakes, horder⟩
        exact ⟨_, home, rfl, hinv, hmakes, by rw [hsync]; rfl, horder⟩
      · rename_i hsync
        refine (hdeclared.enter hstart hchain hcurrent hparsed).mono ?_ fun _ _ hb => hb
        rintro - u ⟨home, hinv, hmakes, horder⟩
        exact ⟨_, home, rfl, hinv, hmakes, by rw [Bool.eq_false_iff.2 hsync]; rfl, horder⟩

end BlockGraph
