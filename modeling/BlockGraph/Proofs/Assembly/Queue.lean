import BlockGraph.Assembly.Step
import BlockGraph.Proofs.Assembly.Placement

/-!
# Blocks that wait to be parsed

`Queue` says which blocks are queued, visited and closed: a block waits on the agenda of the context
in whose copy it lies, once, and leaves it to be parsed. `Base` joins that with where blocks are found.
Locating a block and putting one on the agenda keep it (`Base.locate`, `Base.schedule`).
-/

namespace BlockGraph

/-- The blocks on the agendas of a chain. -/
def Chain.waiting (chain : List Context) : List BlockId :=
  (chain.map fun c => c.agenda.entries.map Prod.fst).flatten

/-- The blocks of an agenda lie in the copy made for a call and have not been parsed. Their numbers increase
along the agenda. -/
structure AgendaFits (home : Homes) (g : Graph) (call : Option BlockId) (a : Agenda) : Prop where
  fits : ∀ b ∈ a.entries.map Prod.fst,
    home b = call ∧ (g.block b).queued = true ∧ (g.block b).visited = false
  nodup : (a.entries.map Prod.fst).Nodup
  ranked : ∀ e ∈ a.entries, e.2 = (g.block e.1).number
  sorted : a.entries.Pairwise (·.2 ≤ ·.2)

/-- Which blocks are queued, visited and closed. -/
structure Queue (home : Homes) (path : List BlockId) (s : Assembly) : Prop where
  agendas : Nest (fun call c => AgendaFits home s.graph call c.agenda) s.chain path
  waiting : ∀ b, (s.graph.block b).queued = true →
    (s.graph.block b).visited = true ∨ b ∈ Chain.waiting s.chain
  queued : ∀ b, (s.graph.block b).visited = true → (s.graph.block b).queued = true
  mem_order : ∀ b, b ∈ s.graph.order.toList ↔ (s.graph.block b).visited = true
  nodup : s.graph.order.toList.Nodup
  counted : s.parsedBlocks = s.graph.order.size
  closed : ∀ b, (s.graph.block b).visited = true →
    (s.graph.block b).exit.isSome = true ∨ s.current = some b
  fresh : ∀ b, (s.graph.block b).visited = false →
    (s.graph.block b).exit = none ∧ s.graph.body b = [] ∧ (s.graph.block b).handlers = []
  current : ∀ b, s.current = some b →
    (s.graph.block b).visited = true ∧ (s.graph.block b).exit = none

/-- The part of the invariant that looking for blocks depends on. -/
structure Base (st : Setting) (home : Homes) (path : List BlockId) (s : Assembly) : Prop where
  laid : Laid st home s.graph
  range : s.graph.InRange
  linked : Linked home s.graph.blocks.size path
  contexts : Nest (ContextFits st home s.graph) s.chain path
  called : ∀ b j, b < s.graph.blocks.size → home b = some j →
    j ∈ path ∨ ∃ e r, (s.graph.block j).exit = some (.jsr e r)
  queue : Queue home path s

/-- A context apart from its copies, its agenda and its counter. -/
def Context.idle (c : Context) : Context := { c.withoutCopies with agenda := {}, returns := 0 }

/-- Nothing has happened but that blocks were copied and put on agendas. -/
structure CopiedAndQueued (touched : Option BlockId) (new : List BlockId) (home : Homes) (s : Assembly)
    (home' : Homes) (s' : Assembly) : Prop where
  edits : Edits touched new home s.graph home' s'.graph
  current : s'.current = s.current
  parsedBlocks : s'.parsedBlocks = s.parsedBlocks
  chain : s'.chain.map Context.idle = s.chain.map Context.idle

namespace CopiedAndQueued

variable {touched : Option BlockId} {new new' : List BlockId} {home home' home'' : Homes}
  {s s' s'' : Assembly}

theorem refl (touched : Option BlockId) (home : Homes) (s : Assembly) :
    CopiedAndQueued touched [] home s home s := ⟨.refl _ _ _, rfl, rfl, rfl⟩

theorem trans (h : CopiedAndQueued touched new home s home' s')
    (h' : CopiedAndQueued touched new' home' s' home'' s'') :
    CopiedAndQueued touched (new' ++ new) home s home'' s'' :=
  ⟨h.edits.trans h'.edits, h'.current.trans h.current, h'.parsedBlocks.trans h.parsedBlocks,
    h'.chain.trans h.chain⟩

theorem mono (h : CopiedAndQueued touched new home s home' s') (hnew : ∀ b ∈ new, b ∈ new') :
    CopiedAndQueued touched new' home s home' s' := ⟨h.edits.mono hnew, h.current, h.parsedBlocks, h.chain⟩

theorem touch (h : CopiedAndQueued none new home s home' s') : CopiedAndQueued touched new home s home' s' :=
  ⟨h.edits.touch, h.current, h.parsedBlocks, h.chain⟩

end CopiedAndQueued

/-! ## Locating a block -/

section
open Assembly

variable {st : Setting} {home : Homes} {path : List BlockId} {s : Assembly} {bci : Nat} {b : BlockId}

theorem Context.map_agenda_of_withoutCopies {chain chain' : List Context}
    (h : chain'.map withoutCopies = chain.map withoutCopies) :
    chain'.map (·.agenda) = chain.map (·.agenda) := by
  have := congrArg (List.map (·.agenda)) h
  simpa [Function.comp_def, withoutCopies] using this

theorem Context.map_idle_of_withoutCopies {chain chain' : List Context}
    (h : chain'.map withoutCopies = chain.map withoutCopies) :
    chain'.map idle = chain.map idle := by
  have := congrArg (List.map fun c : Context => { c with agenda := {}, returns := 0 }) h
  rwa [List.map_map, List.map_map] at this

theorem Context.idle_of_withoutCopies {c c' : Context} (h : c'.withoutCopies = c.withoutCopies) :
    c'.idle = c.idle := congrArg (fun c : Context => { c with agenda := {}, returns := 0 }) h

/-- Contexts that differ in copies only parse the same subroutine, with the same handlers. -/
theorem Context.exists_subroutine {c c' : Context} (h : c'.idle = c.idle) {sub : Subroutine}
    (hsub : c.subroutine = some sub) : ∃ sub', c'.subroutine = some sub' ∧
      sub'.entry = sub.entry ∧ sub'.handlers = sub.handlers := by
  have hmap : c'.subroutine.map (fun s => (s.entry, s.handlers)) =
      c.subroutine.map fun s => (s.entry, s.handlers) := by
    have := congrArg (fun c : Context => c.subroutine.map fun s => (s.entry, s.handlers)) h
    simpa [Context.idle, Context.withoutCopies, Function.comp_def] using this
  rw [hsub] at hmap
  obtain ⟨sub', hsub', heq⟩ := Option.map_eq_some_iff.1 hmap
  obtain ⟨hentry, hhandlers⟩ := Prod.mk.injEq .. ▸ heq
  exact ⟨sub', hsub', hentry, hhandlers⟩

theorem Chain.waiting_congr {chain chain' : List Context}
    (h : chain'.map (·.agenda) = chain.map (·.agenda)) : waiting chain' = waiting chain := by
  have := congrArg (List.map fun a : Agenda => a.entries.map Prod.fst) h
  simp only [List.map_map, Function.comp_def] at this
  simp only [waiting, this]

theorem Copied.edits {g g' : Graph} {home' : Homes} (h : Copied path home g home' g') :
    Edits none [] home g home' g' where
  grows := h.grows
  queued b hb := .inl ((h.proj_eq Block.queued (fun _ => rfl) b).symm.trans hb)
  visited := h.proj_eq Block.visited fun _ => rfl
  order := h.order_eq
  exit b _ := h.proj_eq Block.exit (fun _ => rfl) b
  body b _ := Graph.body_congr h.instrs_eq (h.proj_eq Block.instrs (fun _ => rfl) b)
  handlers b _ := h.proj_eq Block.handlers (fun _ => rfl) b

/-- An agenda still fits when its blocks stay where they are, queued and not parsed, with their numbers. -/
theorem AgendaFits.congr {g g' : Graph} {home' : Homes} {call : Option BlockId} {a : Agenda}
    (h : AgendaFits home g call a)
    (hsame : ∀ b, b ∈ a.entries.map Prod.fst → b < g.blocks.size → home' b = home b ∧
      (g'.block b).queued = (g.block b).queued ∧ (g'.block b).visited = (g.block b).visited ∧
      (g'.block b).number = (g.block b).number) : AgendaFits home' g' call a where
  fits b hb := by
    obtain ⟨hhome, hqueued, hvisited⟩ := h.fits b hb
    obtain ⟨hhome', hqueued', hvisited', -⟩ := hsame b hb (Graph.lt_of_queued hqueued)
    exact ⟨hhome'.trans hhome, hqueued'.trans hqueued, hvisited'.trans hvisited⟩
  nodup := h.nodup
  ranked e he := by
    have hmem : e.1 ∈ a.entries.map Prod.fst := List.mem_map_of_mem he
    obtain ⟨-, -, -, hnumber⟩ := hsame e.1 hmem (Graph.lt_of_queued (h.fits e.1 hmem).2.1)
    exact (h.ranked e he).trans hnumber.symm
  sorted := h.sorted

theorem AgendaFits.empty {g : Graph} {call : Option BlockId} : AgendaFits home g call {} :=
  ⟨by simp, List.nodup_nil, by simp, .nil⟩

theorem Queue.copied {s' : Assembly} {home' : Homes} (h : Queue home path s)
    (hc : Copied path home s.graph home' s'.graph)
    (hchain : s'.chain.map Context.withoutCopies = s.chain.map Context.withoutCopies)
    (hcurrent : s'.current = s.current) (hparsed : s'.parsedBlocks = s.parsedBlocks) : Queue home' path s' := by
  have hqueued := hc.proj_eq Block.queued fun _ => rfl
  have hvisited := hc.proj_eq Block.visited fun _ => rfl
  have hexit := hc.proj_eq Block.exit fun _ => rfl
  have hagenda := Context.map_agenda_of_withoutCopies hchain
  constructor
  · refine h.agendas.congr (f := (·.agenda)) hagenda fun call c c' hf hfits => ?_
    rw [hf]
    exact hfits.congr fun b _ hlt =>
      ⟨hc.home_eq b hlt, hqueued b, hvisited b, (congrArg Block.number (hc.grows.kin b hlt) :)⟩
  · intro b hb
    rw [hvisited, Chain.waiting_congr hagenda]
    exact h.waiting b ((hqueued b).symm.trans hb)
  · intro b hb; rw [hqueued]; exact h.queued b ((hvisited b).symm.trans hb)
  · intro b; rw [hc.order_eq, hvisited]; exact h.mem_order b
  · rw [hc.order_eq]; exact h.nodup
  · rw [hc.order_eq, hparsed]; exact h.counted
  · intro b hb; rw [hexit, hcurrent]; exact h.closed b ((hvisited b).symm.trans hb)
  · intro b hb
    rw [hexit, hc.edits.body_eq b, hc.proj_eq Block.handlers fun _ => rfl]
    exact h.fresh b ((hvisited b).symm.trans hb)
  · intro b hb; rw [hvisited, hexit]; exact h.current b (hcurrent ▸ hb)

/-- A block at a start is found, and all else is as it was. -/
theorem Base.locate (h : Base st home path s) (hbci : bci ∈ st.survey.starts) :
    ∃ b home' s', Assembly.locate bci s = (some b, s') ∧ Base st home' path s' ∧
      CopiedAndQueued none [] home s home' s' ∧ s'.graph.LiesAt home' path.head? bci b ∧
      s'.chain.map Context.withoutCopies = s.chain.map Context.withoutCopies := by
  obtain ⟨b, chain', d', home', hlocate, hlaid, hnest, hcopied, hlies, hchain⟩ :=
    Chain.locate_spec hbci (d := s.toDraft) h.laid h.linked h.contexts
  refine ⟨b, home', { s with toDraft := d', chain := chain' }, ?_, ?_, ?_, hlies, hchain⟩
  · simp only [Assembly.locate, hlocate]
  · refine ⟨hlaid, hcopied.inRange h.range, h.linked.congr hcopied.size_le hcopied.home_eq, hnest,
      fun b j hb hj => ?_, h.queue.copied hcopied hchain rfl rfl⟩
    rcases Nat.lt_or_ge b s.graph.blocks.size with hlt | hge
    · have hjlt : j < s.graph.blocks.size :=
        Nat.lt_trans (h.laid.lt_of_home b j hlt ((hcopied.home_eq b hlt).symm.trans hj)) hlt
      rw [show ({ s with toDraft := d', chain := chain' } : Assembly).graph.block j =
        s.graph.block j from hcopied.block_eq j hjlt]
      exact h.called b j hlt ((hcopied.home_eq b hlt).symm.trans hj)
    · obtain ⟨-, k, hk, hhome⟩ := hcopied.copy b hge hb
      rw [hhome] at hj; cases hj
      exact .inl hk
  · exact ⟨hcopied.edits, rfl, rfl, Context.map_idle_of_withoutCopies hchain⟩

/-! ## Changing contexts -/

/-- A context apart from what neither says where blocks are found nor which of them wait. -/
def Context.place (c : Context) : Context :=
  { c with cursor := .ofCode c.cursor.code, agenda := {}, returns := 0, returnLocal := none }

theorem ContextFits.of_place {g : Graph} {call : Option BlockId} {c c' : Context}
    (h : ContextFits st home g call c) (hplace : c'.place = c.place) : ContextFits st home g call c' := by
  have hscope : c'.scope = c.scope := (congrArg Context.scope hplace :)
  have htable : c'.table = c.table := (congrArg Context.table hplace :)
  have hcode : c'.cursor.code = c.cursor.code := (congrArg (fun c : Context => c.cursor.code) hplace :)
  have hcontinuation : c'.continuation = c.continuation := (congrArg Context.continuation hplace :)
  have hguarded : c'.guarded = c.guarded := (congrArg Context.guarded hplace :)
  have hsub : c'.subroutine = c.subroutine := (congrArg Context.subroutine hplace :)
  have hresume : c'.resume = c.resume := (congrArg Context.resume hplace :)
  constructor
  · rw [hscope]; exact h.scope
  · rw [htable]; exact h.table
  · rw [hcode]; exact h.code
  · rw [hcontinuation]; exact h.continuation
  · rw [hguarded]; exact h.guarded
  · rw [hsub]; exact h.root
  · rw [hsub]; exact h.copies
  · rw [hresume]; exact h.resume
  · rw [hsub]; exact h.handlers

/-- Cursors and counters may move. -/
theorem Base.rechain {s' : Assembly} (h : Base st home path s) (hgraph : s'.graph = s.graph)
    (hcurrent : s'.current = s.current) (hparsed : s'.parsedBlocks = s.parsedBlocks)
    (hplace : s'.chain.map Context.place = s.chain.map Context.place)
    (hagenda : s'.chain.map (·.agenda) = s.chain.map (·.agenda)) : Base st home path s' := by
  have hqueue := h.queue
  refine ⟨hgraph ▸ h.laid, hgraph ▸ h.range, hgraph ▸ h.linked, ?_, hgraph ▸ h.called, ?_⟩
  · rw [hgraph]
    exact h.contexts.congr hplace fun _ _ _ hc hfits => hfits.of_place hc
  · refine ⟨?_, ?_, ?_, ?_, ?_, ?_, ?_, ?_, ?_⟩
    · rw [hgraph]
      exact hqueue.agendas.congr (f := (·.agenda)) hagenda fun _ _ _ hc hfits => hc ▸ hfits
    · rw [hgraph, Chain.waiting_congr hagenda]; exact hqueue.waiting
    · rw [hgraph]; exact hqueue.queued
    · rw [hgraph]; exact hqueue.mem_order
    · rw [hgraph]; exact hqueue.nodup
    · rw [hgraph, hparsed]; exact hqueue.counted
    · rw [hgraph, hcurrent]; exact hqueue.closed
    · rw [hgraph]; exact hqueue.fresh
    · rw [hgraph, hcurrent]; exact hqueue.current

theorem Base.note (h : Base st home path s) (e : Event) : Base st home path (s.note e) :=
  h.rechain rfl rfl rfl rfl rfl

/-- Where no block is new, what is left to see to is which blocks wait. -/
theorem Base.of_grows {s' : Assembly} (h : Base st home path s)
    (hgrows : Grows home s.graph home s'.graph)
    (hsize : s'.graph.blocks.size = s.graph.blocks.size) (hscopes : s'.graph.scopes = s.graph.scopes)
    (hrange : s'.graph.InRange) (hplace : s'.chain.map Context.place = s.chain.map Context.place)
    (hqueue : Queue home path s') : Base st home path s' := by
  have hkin : ∀ c, (s'.graph.block c).blankCopy = (s.graph.block c).blankCopy := by
    intro c
    rcases Nat.lt_or_ge c s.graph.blocks.size with hlt | hge
    · exact hgrows.kin c hlt
    · rw [Graph.block_of_size_le hge, Graph.block_of_size_le (hsize ▸ hge)]
  have hcontexts : Nest (ContextFits st home s'.graph) s.chain path := by
    refine h.contexts.imp fun call c hc => hc.of_liesAt hgrows.size_le hgrows.home_eq fun j _ i d => ?_
    exact ⟨fun hd => (hgrows.liesAt_iff (hsize ▸ hd.lt)).1 hd, hgrows.liesAt⟩
  refine ⟨h.laid.congr hsize hkin hscopes, hrange, hsize ▸ h.linked, ?_, ?_, hqueue⟩
  · exact hcontexts.congr hplace fun _ _ _ hc hfits => hfits.of_place hc
  · intro d j hd hj
    refine (h.called d j (hsize ▸ hd) hj).imp_right ?_
    rintro ⟨e, r, hexit⟩
    exact ⟨e, r, hgrows.exit j _ hexit⟩

/-! ## Changing what the open block holds -/

/-- The contents of a visited block may change. -/
theorem Base.contents {g' : Graph} {current : Option BlockId} (h : Base st home path s)
    (hb : (s.graph.block b).visited = true) (hedits : Edits (some b) [] home s.graph home g')
    (hsize : g'.blocks.size = s.graph.blocks.size) (hscopes : g'.scopes = s.graph.scopes)
    (hrange : g'.InRange)
    (hclosed : ∀ c, (s.graph.block c).visited = true →
      (g'.block c).exit.isSome = true ∨ current = some c)
    (hcurrent : ∀ c, current = some c →
      (s.graph.block c).visited = true ∧ (g'.block c).exit = none) :
    Base st home path { s with graph := g', current := current } := by
  have hgrows := hedits.grows
  have hqueued : ∀ c, (g'.block c).queued = true ↔ (s.graph.block c).queued = true := fun c =>
    ⟨fun hc => (hedits.queued c hc).resolve_right (by simp), hgrows.queued c⟩
  refine h.of_grows hgrows hsize hscopes hrange rfl ?_
  constructor
  · exact h.queue.agendas.imp fun call c hc => hc.congr fun d _ hlt =>
      ⟨rfl, Bool.eq_iff_iff.2 (hqueued d), hedits.visited d, (congrArg Block.number (hgrows.kin d hlt) :)⟩
  · intro d hd
    rw [hedits.visited]
    exact h.queue.waiting d ((hqueued d).1 hd)
  · intro d hd
    rw [hedits.visited] at hd
    exact hgrows.queued d (h.queue.queued d hd)
  · intro d
    rw [hedits.visited, hedits.order]
    exact h.queue.mem_order d
  · rw [hedits.order]
    exact h.queue.nodup
  · rw [hedits.order]
    exact h.queue.counted
  · intro d hd
    rw [hedits.visited] at hd
    exact hclosed d hd
  · intro d hd
    rw [hedits.visited] at hd
    have hbd : some b ≠ some d := by
      intro he
      cases he
      rw [hb] at hd
      cases hd
    rw [hedits.exit d hbd, hedits.body d hbd, hedits.handlers d hbd]
    exact h.queue.fresh d hd
  · intro d hd
    rw [hedits.visited]
    exact hcurrent d hd

/-- The same for the open block, as long as it stays open. -/
theorem Base.contents_open {g' : Graph} (h : Base st home path s) (hb : s.current = some b)
    (hedits : Edits (some b) [] home s.graph home g')
    (hexit : (g'.block b).exit = (s.graph.block b).exit)
    (hsize : g'.blocks.size = s.graph.blocks.size) (hscopes : g'.scopes = s.graph.scopes)
    (hrange : g'.InRange) : Base st home path { s with graph := g' } := by
  have hsame : ∀ c, (g'.block c).exit = (s.graph.block c).exit := by
    intro c
    by_cases hc : b = c
    · rw [← hc, hexit]
    · exact hedits.exit c fun he => hc (Option.some.inj he)
  refine h.contents (h.queue.current b hb).1 hedits hsize hscopes hrange (fun c hc => ?_) fun c hc => ?_
  · rw [hsame]; exact h.queue.closed c hc
  · rw [hsame]; exact h.queue.current c hc

theorem Base.append (h : Base st home path s) (hb : s.current = some b) (site : Site)
    (opcode : Opcode) :
    Base st home path (appendInstr b site opcode s) ∧
      Edits (some b) [] home s.graph home (appendInstr b site opcode s).graph ∧
      (appendInstr b site opcode s).graph.body b =
        s.graph.body b ++ [{ site := site, opcode := opcode, block := b }] := by
  have hlt := Graph.lt_of_visited (h.queue.current b hb).1
  have hproj : ∀ {α : Type} (p : Block → α)
      (_ : ∀ (y : Block) instrs, p { y with instrs := instrs } = p y) (c : BlockId),
      p ((s.graph.append b site opcode).2.block c) = p (s.graph.block c) := by
    intro α p hp c
    rw [Graph.block_append]
    split
    · rename_i hc; rw [hp, hc.1]
    · rfl
  have hedits : Edits (some b) [] home s.graph home (s.graph.append b site opcode).2 := {
    grows := {
      size_le := Nat.le_of_eq (Graph.size_modifyBlock s.graph b _).symm
      home_eq := fun _ _ => rfl
      kin := fun c _ => hproj Block.blankCopy (fun _ _ => rfl) c
      queued := fun c hc => (hproj Block.queued (fun _ _ => rfl) c).trans hc
      visited := fun c hc => (hproj Block.visited (fun _ _ => rfl) c).trans hc
      exit := fun c x hc => (hproj Block.exit (fun _ _ => rfl) c).trans hc
      body := fun c hc => Graph.body_append_ne h.range fun he => by
        rw [he, (h.queue.current b hb).2] at hc; cases hc
      closed := fun c _ => hproj Block.handlers (fun _ _ => rfl) c
      handlers := fun c d hd => by rwa [hproj Block.handlers fun _ _ => rfl]
      predecessors := fun c p hp => by rwa [hproj Block.predecessors fun _ _ => rfl]
      start := rfl
      order := List.prefix_rfl }
    queued := fun c hc => .inl ((hproj Block.queued (fun _ _ => rfl) c).symm.trans hc)
    visited := hproj Block.visited fun _ _ => rfl
    order := rfl
    exit := fun c _ => hproj Block.exit (fun _ _ => rfl) c
    body := fun c hc => Graph.body_append_ne h.range fun he => hc (he ▸ rfl)
    handlers := fun c _ => hproj Block.handlers (fun _ _ => rfl) c }
  refine ⟨?_, hedits, Graph.body_append_self h.range hlt⟩
  exact h.contents_open hb hedits (hproj Block.exit (fun _ _ => rfl) b)
    (Graph.size_modifyBlock s.graph b _) rfl (h.range.append hlt)

theorem Base.addHandlerEdge {d : BlockId} (h : Base st home path s) (hb : s.current = some b)
    (hd : d < s.graph.blocks.size) :
    Base st home path { s with graph := s.graph.addHandlerEdge b d } ∧
      Edits (some b) [] home s.graph home (s.graph.addHandlerEdge b d) ∧
      (s.graph.addHandlerEdge b d).body b = s.graph.body b := by
  have hproj : ∀ {α : Type} (p : Block → α)
      (_ : ∀ (y : Block) handlers, p { y with handlers := handlers } = p y) (c : BlockId),
      p ((s.graph.addHandlerEdge b d).block c) = p (s.graph.block c) := by
    intro α p hp c
    rw [Graph.block_addHandlerEdge]
    split
    · rename_i hc; rw [hp, hc.1]
    · rfl
  have hmem : ∀ c e, e ∈ (s.graph.block c).handlers →
      e ∈ ((s.graph.addHandlerEdge b d).block c).handlers := by
    intro c e he
    rw [Graph.block_addHandlerEdge]
    split
    · rename_i hc; exact List.mem_append_left _ (hc.1 ▸ he)
    · exact he
  have hne : ∀ c, c ≠ b → (s.graph.addHandlerEdge b d).block c = s.graph.block c := by
    intro c hc
    rw [Graph.block_addHandlerEdge, if_neg fun h => hc h.1]
  have hbody : ∀ c, (s.graph.addHandlerEdge b d).body c = s.graph.body c := fun c =>
    Graph.body_congr rfl (hproj Block.instrs (fun _ _ => rfl) c)
  have hedits : Edits (some b) [] home s.graph home (s.graph.addHandlerEdge b d) := {
    grows := {
      size_le := Nat.le_of_eq (Graph.size_modifyBlock s.graph b _).symm
      home_eq := fun _ _ => rfl
      kin := fun c _ => hproj Block.blankCopy (fun _ _ => rfl) c
      queued := fun c hc => (hproj Block.queued (fun _ _ => rfl) c).trans hc
      visited := fun c hc => (hproj Block.visited (fun _ _ => rfl) c).trans hc
      exit := fun c x hc => (hproj Block.exit (fun _ _ => rfl) c).trans hc
      body := fun c _ => hbody c
      closed := by
        intro c hc
        rw [hne c fun he => by rw [he, (h.queue.current b hb).2] at hc; cases hc]
      handlers := hmem
      predecessors := fun c p hp => by rwa [hproj Block.predecessors fun _ _ => rfl]
      start := rfl
      order := List.prefix_rfl }
    queued := fun c hc => .inl ((hproj Block.queued (fun _ _ => rfl) c).symm.trans hc)
    visited := hproj Block.visited fun _ _ => rfl
    order := rfl
    exit := fun c _ => hproj Block.exit (fun _ _ => rfl) c
    body := fun c _ => hbody c
    handlers := fun c hc => by rw [hne c fun he => hc (he ▸ rfl)] }
  refine ⟨?_, hedits, hbody b⟩
  exact h.contents_open hb hedits (hproj Block.exit (fun _ _ => rfl) b)
    (Graph.size_modifyBlock s.graph b _) rfl
    (h.range.addHandlerEdge hd)

theorem Base.close {x : Exit} (h : Base st home path s) (hb : s.current = some b)
    (hx : ∀ d ∈ x.blocks, d < s.graph.blocks.size) :
    Base st home path (finishBlock b x s) ∧
      Edits (some b) [] home s.graph home (finishBlock b x s).graph ∧
      ((finishBlock b x s).graph.block b).exit = some x ∧
      (finishBlock b x s).graph.body b = s.graph.body b ∧
      ((finishBlock b x s).graph.block b).handlers = (s.graph.block b).handlers := by
  have hlt := Graph.lt_of_visited (h.queue.current b hb).1
  have hbody : ∀ c, (s.graph.close b x).body c = s.graph.body c := fun c =>
    Graph.body_congr (by rw [Graph.close_eq]) (by rw [Graph.block_close])
  have horder : (s.graph.close b x).order = s.graph.order := by rw [Graph.close_eq]
  have hedits : Edits (some b) [] home s.graph home (s.graph.close b x) := {
    grows := {
      size_le := Nat.le_of_eq Graph.size_close.symm
      home_eq := fun _ _ => rfl
      kin := fun c _ => by rw [Graph.block_close]; rfl
      queued := fun c hc => by rw [Graph.block_close]; exact hc
      visited := fun c hc => by rw [Graph.block_close]; exact hc
      exit := by
        intro c y hc
        rw [Graph.exit_close_ne fun he => by
          rw [he, (h.queue.current b hb).2] at hc; cases hc]
        exact hc
      body := fun c _ => hbody c
      closed := fun c _ => by rw [Graph.block_close]
      handlers := fun c d hd => by rw [Graph.block_close]; exact hd
      predecessors := fun c p hp => Graph.mem_predecessors_close.2 (.inl hp)
      start := by rw [Graph.close_eq]
      order := horder ▸ List.prefix_rfl }
    queued := fun c hc => by rw [Graph.block_close] at hc; exact .inl hc
    visited := fun c => by rw [Graph.block_close]
    order := horder
    exit := fun c hc => Graph.exit_close_ne fun he => hc (he ▸ rfl)
    body := fun c _ => hbody c
    handlers := fun c _ => by rw [Graph.block_close] }
  refine ⟨?_, hedits, Graph.exit_close_self hlt, hbody b, by
    show ((s.graph.close b x).block b).handlers = _; rw [Graph.block_close]⟩
  refine h.contents (h.queue.current b hb).1 hedits Graph.size_close (by rw [Graph.close_eq])
    (h.range.close hlt hx) (fun c hc => .inl ?_) nofun
  by_cases hcb : c = b
  · rw [hcb, Graph.exit_close_self hlt]; rfl
  · rw [Graph.exit_close_ne hcb]
    refine (h.queue.closed c hc).resolve_right fun hcur => hcb ?_
    rw [hb] at hcur; exact (Option.some.inj hcur).symm

/-! ## Putting a block on the agenda -/

/-- The blocks of an agenda with one more. -/
theorem AgendaFits.insert {g : Graph} {call : Option BlockId} {a : Agenda}
    (h : AgendaFits home g call a) (hb : b < g.blocks.size) (hhome : home b = call)
    (hqueued : (g.block b).queued = false) (hvisited : (g.block b).visited = false) :
    AgendaFits home (g.modifyBlock b ({ · with queued := true })) call
      (a.insert b (g.block b).number) := by
  have hperm : ((a.insert b (g.block b).number).entries.map Prod.fst).Perm
      (b :: a.entries.map Prod.fst) :=
    (Agenda.insertEntry_perm b (g.block b).number a.entries).map Prod.fst
  have hnot : b ∉ a.entries.map Prod.fst := by
    intro hmem
    have := (h.fits b hmem).2.1
    rw [hqueued] at this; cases this
  refine ⟨fun c hc => ?_, hperm.nodup_iff.2 (List.nodup_cons.2 ⟨hnot, h.nodup⟩), fun e he => ?_,
    Agenda.insertEntry_sorted h.sorted⟩
  · rcases List.mem_cons.1 (hperm.mem_iff.1 hc) with rfl | hc
    · rw [Graph.block_modifyBlock_self hb]; exact ⟨hhome, rfl, hvisited⟩
    · obtain ⟨hhome', hq, hv⟩ := h.fits c hc
      have hcb : c ≠ b := fun he => hnot (he ▸ hc)
      rw [Graph.block_modifyBlock_ne hcb]; exact ⟨hhome', hq, hv⟩
  · have hnumber : ((g.modifyBlock b ({ · with queued := true })).block e.1).number = (g.block e.1).number :=
      Graph.proj_modifyBlock Block.number fun _ => rfl
    rw [hnumber]
    rcases Agenda.mem_insertEntry.1 he with rfl | he
    · rfl
    · exact h.ranked e he

theorem schedule_of_queued (hb : (s.graph.block b).queued = true) : Assembly.schedule b s = s := by
  unfold Assembly.schedule
  split
  · rfl
  · simp [hb]

theorem Chain.mem_waiting_insert {c : Context} {outer : List Context} {number : Nat} {d : BlockId} :
    d ∈ waiting ({ c with agenda := c.agenda.insert b number } :: outer) ↔
      d = b ∨ d ∈ waiting (c :: outer) := by
  simp only [waiting, List.map_cons, List.flatten_cons, List.mem_append, or_assoc.symm]
  have hperm := (Agenda.insertEntry_perm b number c.agenda.entries).map Prod.fst
  exact or_congr (hperm.mem_iff.trans List.mem_cons) Iff.rfl

/-- A block that is queued changes in nothing else. -/
theorem proj_enqueue {α : Type} {g : Graph} (p : Block → α)
    (hp : ∀ y : Block, p { y with queued := true } = p y) (c : BlockId) :
    p ((g.modifyBlock b ({ · with queued := true })).block c) = p (g.block c) :=
  Graph.proj_modifyBlock p hp

theorem queued_enqueue {g : Graph} (hb : b < g.blocks.size) (c : BlockId) :
    ((g.modifyBlock b ({ · with queued := true })).block c).queued = true ↔
      (g.block c).queued = true ∨ c = b := by
  by_cases hc : c = b
  · rw [hc, Graph.block_modifyBlock_self hb]; simp
  · rw [Graph.block_modifyBlock_ne hc]; simp [hc]

theorem edits_enqueue {g : Graph} (hb : b < g.blocks.size) :
    Edits none [b] home g home (g.modifyBlock b ({ · with queued := true })) where
  grows := {
    size_le := Nat.le_of_eq (Graph.size_modifyBlock _ _ _).symm
    home_eq := fun _ _ => rfl
    kin := fun c _ => proj_enqueue Block.blankCopy (fun _ => rfl) c
    queued := fun c hc => (queued_enqueue hb c).2 (.inl hc)
    visited := fun c hc => (proj_enqueue Block.visited (fun _ => rfl) c).trans hc
    exit := fun c x hc => (proj_enqueue Block.exit (fun _ => rfl) c).trans hc
    body := fun c _ => Graph.body_congr rfl (proj_enqueue Block.instrs (fun _ => rfl) c)
    closed := fun c _ => proj_enqueue Block.handlers (fun _ => rfl) c
    handlers := fun c d hd => by rwa [proj_enqueue Block.handlers fun _ => rfl]
    predecessors := fun c p hp => by rwa [proj_enqueue Block.predecessors fun _ => rfl]
    start := rfl
    order := List.prefix_rfl }
  queued c hc := ((queued_enqueue hb c).1 hc).imp id List.mem_singleton.2
  visited := proj_enqueue Block.visited fun _ => rfl
  order := rfl
  exit c _ := proj_enqueue Block.exit (fun _ => rfl) c
  body c _ := Graph.body_congr rfl (proj_enqueue Block.instrs (fun _ => rfl) c)
  handlers c _ := proj_enqueue Block.handlers (fun _ => rfl) c

/-- A block of the innermost copy that was not queued is put on the agenda. -/
theorem Base.schedule_eq (h : Base st home path s) {c : Context} {outer : List Context}
    (hchain : s.chain = c :: outer) (hhome : home b = path.head?)
    (hq : (s.graph.block b).queued = false) :
    Assembly.schedule b s =
      { s with
        graph := s.graph.modifyBlock b ({ · with queued := true })
        log := s.log.push (.scheduling b (s.graph.block b).number c.label)
        chain := { c with agenda := c.agenda.insert b (s.graph.block b).number } :: outer } := by
  have hfits := (hchain ▸ h.contexts).head
  have hresume : (c.resume == some b) = false := beq_eq_false_iff_ne.2 (hfits.resume_ne h.laid hhome)
  unfold Assembly.schedule
  rw [hchain]
  simp only [hq, hfits.continuation, hresume, Bool.false_or, Bool.or_false]
  rfl

theorem Queue.enqueue {c : Context} {outer : List Context} (h : Queue home path s)
    (hchain : s.chain = c :: outer) (hb : b < s.graph.blocks.size) (hhome : home b = path.head?)
    (hq : (s.graph.block b).queued = false) (log : Array Event) :
    Queue home path { s with
      graph := s.graph.modifyBlock b ({ · with queued := true })
      log := log
      chain := { c with agenda := c.agenda.insert b (s.graph.block b).number } :: outer } := by
  have hagendas := hchain ▸ h.agendas
  have hedits : Edits none [b] home s.graph home _ := edits_enqueue hb
  have hvisited : (s.graph.block b).visited = false := by
    refine Bool.eq_false_iff.2 fun hv => ?_
    rw [h.queued b hv] at hq
    cases hq
  have hrest : Nest (fun call c => AgendaFits home (s.graph.modifyBlock b
      ({ · with queued := true })) call c.agenda) (c :: outer) path := by
    refine hagendas.imp fun call c hc => hc.congr fun d hd hlt => ⟨rfl, ?_, hedits.visited d,
      (congrArg Block.number (hedits.grows.kin d hlt) :)⟩
    have hqueued := (hc.fits d hd).2.1
    rw [hqueued]
    exact hedits.grows.queued d hqueued
  refine ⟨hrest.setHead (hagendas.head.insert hb hhome hq hvisited), ?_, ?_, ?_, h.nodup, h.counted, ?_, ?_, ?_⟩
  · intro d hd
    rw [hedits.visited, Chain.mem_waiting_insert, ← hchain]
    rcases (queued_enqueue hb d).1 hd with hd | rfl
    · exact (h.waiting d hd).imp id .inr
    · exact .inr (.inl rfl)
  · intro d hd
    rw [hedits.visited] at hd
    exact hedits.grows.queued d (h.queued d hd)
  · intro d
    rw [hedits.visited]
    exact h.mem_order d
  · intro d hd
    rw [hedits.visited] at hd
    rw [hedits.exit_eq d]
    exact h.closed d hd
  · intro d hd
    rw [hedits.visited] at hd
    rw [hedits.exit_eq d, hedits.body_eq d, hedits.handlers_eq d]
    exact h.fresh d hd
  · intro d hd
    rw [hedits.visited, hedits.exit_eq d]
    exact h.current d hd

/-- A block of the innermost copy, or one that is queued anyway, is put on the agenda. -/
theorem Base.schedule (h : Base st home path s) (hb : b < s.graph.blocks.size)
    (hplace : (s.graph.block b).queued = true ∨ home b = path.head?) :
    Base st home path (Assembly.schedule b s) ∧
      CopiedAndQueued none [b] home s home (Assembly.schedule b s) ∧
      ((Assembly.schedule b s).graph.block b).queued = true := by
  cases hq : (s.graph.block b).queued with
  | true =>
    rw [schedule_of_queued hq]
    exact ⟨h, (CopiedAndQueued.refl none home s).mono (by simp), hq⟩
  | false =>
    have hhome := hplace.resolve_left (by simp [hq])
    obtain ⟨c, outer, hchain⟩ := h.contexts.exists_cons
    have hedits : Edits none [b] home s.graph home _ := edits_enqueue hb
    rw [h.schedule_eq hchain hhome hq]
    refine ⟨?_, ⟨hedits, rfl, rfl, ?_⟩, (queued_enqueue hb b).2 (.inr rfl)⟩
    · refine h.of_grows hedits.grows (Graph.size_modifyBlock _ _ _) rfl
        (h.range.modifyBlock (fun _ => rfl) fun _ => rfl) ?_ (h.queue.enqueue hchain hb hhome hq _)
      rw [hchain]
      rfl
    · rw [hchain]
      rfl

end
end BlockGraph
