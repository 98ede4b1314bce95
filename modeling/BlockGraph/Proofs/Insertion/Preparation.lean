import BlockGraph.Proofs.Assembly.Preparation
import BlockGraph.Proofs.DepthFirst
import BlockGraph.Proofs.Insertion.Actions

/-!
# Preparing a method beside the synchronized one

The layout of a method does not depend on its flags. If one of them is synchronized, it is given one more
block and one more handler, after the others, and then both are entered at the same block. Main
statement: `prepare_gains`.
-/

namespace BlockGraph

open Assembly

variable {m : Method} {pool : ConstantPool} {table : BlockTable} {g : Graph} {size : Nat} {s : Assembly}

/-! ## Laying out -/

/-- Which scopes a graph has does not matter to its blocks. -/
theorem Graph.place_scopes (scopes : Array Scope) : ∀ (starts : List Start) (g : Graph) (t : BlockTable),
    ({ g with scopes := scopes } : Graph).place t starts =
      ({ (g.place t starts).1 with scopes := scopes }, (g.place t starts).2)
  | [], _, _ => rfl
  | s :: rest, g, t => place_scopes scopes rest (g.newBlock s.block).2 (t.set s.bci g.blocks.size)

theorem Graph.size_place (g : Graph) (t : BlockTable) (starts : List Start) :
    (g.place t starts).1.blocks.size = g.blocks.size + starts.length := by
  rw [Graph.place_fst]
  simp

/-- The blocks of a layout have lower numbers than there are blocks. -/
theorem Survey.number_place_lt {v : Survey} (h : Survey.ofMethod m.code m.handlers = .ok v)
    (hblocks : g.blocks = #[]) (t : BlockTable) (b : BlockId) :
    ((g.place t v.layout).1.block b).number < v.layout.length := by
  have hsize : g.blocks.size = 0 := by rw [hblocks]; rfl
  rcases Nat.lt_or_ge b v.layout.length with hlt | hge
  · have hplaced := Graph.block_place (g := g) (t := t) (List.getElem?_eq_getElem hlt)
    rw [hsize, Nat.zero_add] at hplaced
    rw [hplaced]
    exact Survey.number_lt h (List.getElem_mem hlt)
  · rw [Graph.block_of_size_le (by rw [Graph.size_place, hsize, Nat.zero_add]; exact hge)]
    have hzero : 0 ∈ v.layout.map Start.bci := map_bci_layout ▸ zero_mem_starts h
    exact List.length_pos_of_mem (List.mem_map.1 hzero).choose_spec.1

/-- A graph where nothing has been parsed gets the block that unlocks. -/
theorem Placed.gains (h : Placed g table []) (hnumber : ∀ b, (g.block b).number < g.blocks.size) {start : BlockId}
    (hstart : start < g.blocks.size) {scope scope' : Scope} (hscopes : g.scopes = #[scope])
    (hentries : ∀ x ∈ scope.handlers, ∀ b, x.entry = some b → b < g.blocks.size)
    (hscope' : scope'.handlers = scope.handlers ++ [.unlocking size g.blocks.size]) :
    Graph.Gains size g.blocks.size false { g with start := some start }
      { (g.newBlock (unlockBlock g)).2 with scopes := #[scope'], start := some start } where
  le := Nat.le_refl _
  size_eq := Graph.size_newBlock _
  block b := by
    show Block.without _ ((g.newBlock (unlockBlock g)).2.block (shift g.blocks.size b)) = Block.shift _ (g.block b)
    rcases Nat.lt_or_ge b g.blocks.size with hlt | hge
    · rw [shift_of_lt hlt, Graph.block_newBlock_of_lt hlt, h.blank b]
      rfl
    · rw [shift_of_le hge, Graph.block_of_size_le hge, Graph.block_of_size_le]
      · rfl
      · rw [Graph.size_newBlock]
        exact Nat.succ_le_succ hge
  number := hnumber
  unlock := Graph.block_newBlock_self
  instrs := by
    show g.instrs = g.instrs.map _
    rw [h.instrs, Array.map_empty]
  start := by rw [Option.map_some, shift_of_lt hstart]
  order := by
    show g.order = g.order.map _
    rw [h.order, Array.map_empty]
  declared := by
    have hsame : scope.handlers.map (Handler.shift g.blocks.size) = scope.handlers :=
      (List.map_congr_left fun x hx => Handler.shift_eq_self (hentries x hx)).trans (List.map_id _)
    simp [Graph.declaredHandlers, hscopes, hscope', hsame]

/-! ## Declaring handlers and entering -/

/-- Before any context is entered there is one scope, and the rest of the graph is `g`. -/
structure Assembly.AtOutset (g : Graph) (scope : Scope) (s : Assembly) : Prop where
  graph : s.graph = { g with scopes := #[scope] }
  chain : s.chain = []
  current : s.current = none
  parsedBlocks : s.parsedBlocks = 0

section
variable {scope scope' : Scope}

theorem Assembly.AtOutset.placed (h : s.AtOutset g scope) (hg : Placed g table []) : Placed s.graph table [] := by
  rw [h.graph]
  exact hg.congr rfl rfl rfl

/-- The same handlers are declared from both, or it fails with the same fault. -/
theorem Placed.declare_gains {s' : Assembly} (h : Placed g table []) (hs : s.AtOutset g scope)
    (hs' : s'.AtOutset g scope') (hrange : s.graph.InRange) (hrange' : s'.graph.InRange) (l : List Handler)
    (hknown : ∀ x ∈ l, ∀ bci, x.entryIndex? = some bci → (table.get bci).isSome = true) :
    Pairs (declareHandlers pool 0 table l) (declareHandlers pool 0 table l) s s' fun _ t _ t' =>
      t.graph.InRange ∧ t.AtOutset g { scope with handlers := scope.handlers ++ l.map table.resolve } ∧
        t'.AtOutset g { scope' with handlers := scope'.handlers ++ l.map table.resolve } := by
  have hscopes : s.graph.scopes = #[scope] := by rw [hs.graph]
  have hscopes' : s'.graph.scopes = #[scope'] := by rw [hs'.graph]
  refine Pairs.of_yields
    (declareHandlers_spec l s hscopes (hs.placed h) hrange hs.chain hs.current hs.parsedBlocks hknown)
    (declareHandlers_spec l s' hscopes' (hs'.placed h) hrange' hs'.chain hs'.current hs'.parsedBlocks hknown)
    ?_ ?_ ?_ ?_
  · rintro - t - t' ⟨-, hrange, hgraph, hchain, hidle⟩ ⟨-, -, hgraph', hchain', hidle'⟩
    rw [hs.graph] at hgraph
    rw [hs'.graph] at hgraph'
    exact ⟨hrange, ⟨hgraph, hchain, hidle.1, hidle.2⟩, hgraph', hchain', hidle'.1, hidle'.2⟩
  · rintro - t fault t' ⟨hcoded, -⟩ ⟨-, -, x, hx, hunlock⟩
    rw [hcoded x hx] at hunlock; cases hunlock
  · rintro fault t - t' ⟨-, -, x, hx, hunlock⟩ ⟨hcoded, -⟩
    rw [hcoded x hx] at hunlock; cases hunlock
  · rintro fault t fault' t' ⟨-, hfault, -⟩ ⟨-, hfault', -⟩
    exact hfault'.trans hfault.symm

/-- The handler of a synchronized method is declared after the others. -/
theorem Assembly.AtOutset.declareUnlock (h : s.AtOutset g scope) (m : Method) :
    (declareUnlock m 0 s).AtOutset (g.newBlock (unlockBlock g)).2
      (scope.declare (.unlocking m.code.size g.blocks.size)) := by
  refine ⟨?_, h.chain, h.current, h.parsedBlocks⟩
  show (s.graph.newBlock (unlockBlock s.graph)).2.declareHandler 0 (.unlocking _ s.graph.blocks.size) = _
  rw [h.graph]
  exact Graph.declareHandler_eq rfl

/-- From there both methods are entered at the same block. -/
theorem Placed.enter_gains {t t' : Assembly} {start : BlockId} (h : Placed g table [])
    (hnumber : ∀ b, (g.block b).number < g.blocks.size) (hstart : table.get 0 = some start)
    (hentries : ∀ x ∈ scope.handlers, ∀ b, x.entry = some b → b < g.blocks.size)
    (hscope' : scope'.handlers = scope.handlers ++ [.unlocking size g.blocks.size])
    (ht : t.AtOutset g scope) (ht' : t'.AtOutset (g.newBlock (unlockBlock g)).2 scope') (cursor : Cursor)
    (pool : ConstantPool) (o : Options) :
    let enter : Assemble Unit := do
      modify fun s => { s with graph := { s.graph with start := some start } }
      let root := (← get).newContext 0 table cursor pool o
      modify fun s => (s.note (.pushed root.label)).push root
      modify (schedule start)
    Pairs enter enter t t' fun _ u _ u' => u.Gains size g.blocks.size false u' := by
  intro enter
  have hlt : start < g.blocks.size := ((h.get_iff 0 start).1 hstart).1
  have hplaced : Placed { g with scopes := #[scope] } table [] := h.congr rfl rfl rfl
  have htable : table.map (shift g.blocks.size) = table := BlockTable.map_eq_self fun bci b hb =>
    shift_of_lt ((h.get_iff bci b).1 hb).1
  have hguarded : scope'.declaresHandlers = true := by simp [Scope.declaresHandlers, hscope']
  let begins (s : Assembly) : Assembly := { s with graph := { s.graph with start := some start } }
  let root (s : Assembly) : Context := (begins s).newContext 0 table cursor pool o
  let entered (s : Assembly) : Assembly := ((begins s).note (.pushed (root s).label)).push (root s)
  have hroot : root t' = (root t).shift size g.blocks.size [] := by
    simp only [root, begins, newContext, Context.nested, Context.shift, ht.graph, ht'.graph, ht.chain, ht'.chain,
      htable]
    simp [hguarded]
  have hentered : Assembly.Gains size g.blocks.size false (entered t) (entered t') := by
    refine ⟨?_, ?_, ?_, ht'.parsedBlocks.trans ht.parsedBlocks.symm⟩
    · show Graph.Gains _ _ _ { t.graph with start := _ } { t'.graph with start := _ }
      rw [ht.graph, ht'.graph]
      exact hplaced.gains hnumber hlt rfl hentries hscope'
    · show Chain.Gains _ _ _ (root t :: t.chain) (root t' :: t'.chain)
      rw [ht.chain, ht'.chain, hroot]
      exact .root rfl fun e he => absurd he List.not_mem_nil
    · show t'.current = t.current.map _
      rw [ht.current, ht'.current]
      rfl
  have hscheduled := hentered.schedule start
  rw [shift_of_lt hlt] at hscheduled
  exact Pairs.bind_ok rfl rfl (Pairs.bind_ok rfl rfl (Pairs.bind_ok rfl rfl hscheduled))

end

/-- A method and the synchronized one are prepared alike. -/
theorem prepare_gains (m : Method) (pool : ConstantPool) (o : Options) {flags : AccessFlags}
    (hsync : m.access.isSynchronized = false) (hflags : flags.isSynchronized = true) :
    Pairs (prepare m pool o) (prepare { m with access := flags } pool o) {} {} fun _ t _ t' =>
      ∃ starts, layout m.code m.handlers = .ok starts ∧ t.Gains m.code.size starts.length false t' := by
  unfold prepare
  refine Pairs.bind_ok rfl rfl (Pairs.bind_ok rfl rfl ?_)
  show Pairs _ _ (begun m) (begun { m with access := flags }) _
  cases hsurvey : Survey.ofMethod m.code m.handlers with
  | error fault =>
    have hlayout : layout m.code m.handlers = .error fault := by rw [layout, hsurvey]; rfl
    simp only [hlayout]
    rfl
  | ok v =>
    have hlayout : layout m.code m.handlers = .ok v.layout := by rw [layout, hsurvey]; rfl
    simp only [hlayout]
    refine Pairs.bind_ok rfl rfl (Pairs.bind_ok rfl rfl ?_)
    let m' : Method := { m with access := flags }
    obtain ⟨hplaced, hrange, hscopes, hstarts, -⟩ := Survey.declared hsurvey
    obtain ⟨-, hrange', -⟩ := Survey.declared (m := m') hsurvey
    have hnumber := Survey.number_place_lt hsurvey (show (begun m).graph.blocks = #[] from rfl) (.blank m.code.size)
    have hsize : ((begun m).graph.place (.blank m.code.size) v.layout).1.blocks.size = v.layout.length :=
      (Graph.size_place _ _ _).trans (Nat.zero_add _)
    have hplaces : (begun m').graph.place (.blank m.code.size) v.layout =
        ({ ((begun m).graph.place (.blank m.code.size) v.layout).1 with scopes := #[.root m'] },
          ((begun m).graph.place (.blank m.code.size) v.layout).2) := Graph.place_scopes _ _ (begun m).graph _
    generalize (begun m).graph.place (.blank m.code.size) v.layout = p at *
    generalize (begun m').graph.place (.blank m.code.size) v.layout = p' at *
    subst hplaces
    obtain ⟨g, table⟩ := p
    have hknown : ∀ x ∈ m.handlers, ∀ bci, x.entryIndex? = some bci → (table.get bci).isSome = true :=
      fun x hx bci hbci => (hstarts bci).2 (Survey.handler_mem_starts hsurvey hx hbci)
    obtain ⟨start, hstart⟩ := Option.isSome_iff_exists.1 ((hstarts 0).2 (Survey.zero_mem_starts hsurvey))
    have hg : g = { g with scopes := #[.root m] } := by
      obtain ⟨blocks, instrs, scopes, start, order⟩ := g
      cases hscopes
      rfl
    refine (hplaced.declare_gains ⟨hg, rfl, rfl, rfl⟩ ⟨rfl, rfl, rfl, rfl⟩ hrange hrange' m.handlers hknown).bind ?_
    rintro - t - t' ⟨hrange, ht, ht'⟩
    simp only [hsync, hflags, hstart, if_true, Bool.false_eq_true, if_false]
    have hentries : ∀ x ∈ m.handlers.map table.resolve, ∀ b, x.entry = some b → b < g.blocks.size :=
      fun x hx b hb => by
        rw [ht.graph] at hrange
        exact hrange.entries _ (Array.mem_singleton.2 rfl) x hx b hb
    have henter := hplaced.enter_gains (hsize ▸ hnumber) hstart hentries rfl ht (ht'.declareUnlock m')
      (.ofCode m.code) pool o
    exact (henter.mono fun _ u _ u' hu => ⟨_, rfl, hsize ▸ hu⟩).of_eq rfl rfl

end BlockGraph
