import BlockGraph.Context

/-!
# Assemblies

An assembly is a graph in the making: the graph so far, the transcript of what was done to it, and
the chain of contexts in which it is made. The operations of a context are actions on an assembly
that work on the innermost context of its chain; an action that fails leaves behind what it did
until then.
-/

namespace BlockGraph

/-- A graph and the transcript of its making. -/
structure Draft where
  graph : Graph := {}
  log : Array Event := #[]
deriving DecidableEq, Repr

namespace Draft

/-- Adds an entry to the transcript. -/
def note (d : Draft) (e : Event) : Draft := { d with log := d.log.push e }

/-- Copies a block for the subroutine that starts at `entry` (`IrGraph::duplicate_block`). -/
def copyBlock (d : Draft) (original : BlockId) (entry : Nat) : BlockId × Draft :=
  let (copy, graph) := d.graph.copyBlock original
  (copy, { d with graph := graph }.note (.duplicated original copy entry))

end Draft

/-- The block that starts at an index, as the innermost context of a chain sees it (`ScopeData::block_at`).
Outside of subroutines that is the block of the table; in a subroutine it is a copy of the block that the
context around it sees, made when it is first asked for. -/
def Chain.locate (bci : Nat) : List Context → Draft → Option BlockId × List Context × Draft
  | [], d => (none, [], d)
  | c :: outer, d =>
    match c.subroutine with
    | none => (c.table.get bci, c :: outer, d)
    | some s =>
      match s.copies.get bci with
      | some copy => (some copy, c :: outer, d)
      | none =>
        match locate bci outer d with
        | (none, outer, d) => (none, c :: outer, d)
        | (some original, outer, d) =>
          let (copy, d) := d.copyBlock original s.entry
          (some copy, c.keepCopy bci copy :: outer, d)

/-- A graph in the making (`GraphBuilder`). -/
structure Assembly extends Draft where
  /-- The contexts, innermost first (`scope_data`). -/
  chain : List Context := []
  /-- The block whose instructions are being parsed. -/
  current : Option BlockId := none
  /-- How many blocks were taken off the agendas to be parsed, in all contexts (`parsed_blocks`). -/
  parsedBlocks : Nat := 0
deriving DecidableEq, Repr

/-- An action on an assembly, which may fail. -/
abbrev Assemble := EStateM Fault Assembly

namespace Assembly

/-- A result that may be a fault, as an action that changes nothing. -/
def ofExcept {α : Type} (x : Except Fault α) : Assemble α := fun s =>
  match x with
  | .ok a => .ok a s
  | .error fault => .error fault s

/-- Adds an entry to the transcript. -/
def note (s : Assembly) (e : Event) : Assembly := { s with log := s.log.push e }

/-- The innermost context (`GraphBuilder::data`). -/
def innermost : Assemble Context := fun s =>
  match s.chain with
  | [] => .error .noContext s
  | c :: _ => .ok c s

/-- Changes the innermost context. -/
def modifyInnermost (s : Assembly) (f : Context → Context) : Assembly :=
  match s.chain with
  | [] => s
  | c :: outer => { s with chain := f c :: outer }

/-- Lets the cursor of the innermost context act (`ScopeData::stream_mut`). -/
def withCursor {α : Type} (act : EStateM Fault Cursor α) : Assemble α := fun s =>
  match s.chain with
  | [] => .error .noContext s
  | c :: outer =>
    match act c.cursor with
    | .ok a cursor => .ok a { s with chain := { c with cursor := cursor } :: outer }
    | .error fault cursor => .error fault { s with chain := { c with cursor := cursor } :: outer }

/-! ## Contexts -/

/-- Puts a context on top of the chain (`GraphBuilder::push_scope_data`). -/
def push (s : Assembly) (c : Context) : Assembly := { s with chain := c :: s.chain }

/-- Takes the innermost context off the chain (`GraphBuilder::pop_scope_data`). -/
def pop (s : Assembly) : Assembly := { s with chain := s.chain.tail }

/-- A context for a scope on top of the chain (`ScopeData::new`). -/
def newContext (s : Assembly) (scope : ScopeId) (table : BlockTable) (cursor : Cursor)
    (pool : ConstantPool) (o : Options) : Context :=
  .nested s.chain scope (s.graph.scopes[scope]?.any Scope.declaresHandlers) table cursor pool o

/-! ## Blocks -/

/-- The block that starts at an index, as the innermost context sees it (`ScopeData::block_at`). -/
def locate (bci : Nat) (s : Assembly) : Option BlockId × Assembly :=
  let (b, chain, d) := Chain.locate bci s.chain s.toDraft
  (b, { s with toDraft := d, chain := chain })

/-- Puts a block on the agenda of the innermost context, unless it has been on some agenda
(`ScopeData::add_to_work_list`). The blocks where control goes on outside of the context are left to the
contexts that they belong to. -/
def schedule (b : BlockId) (s : Assembly) : Assembly :=
  match s.chain with
  | [] => s
  | c :: outer =>
    let block := s.graph.block b
    if block.queued || c.continuation == some b || c.resume == some b then s
    else
      { s with
        graph := s.graph.modifyBlock b ({ · with queued := true })
        log := s.log.push (.scheduling b block.number c.label)
        chain := { c with agenda := c.agenda.insert b block.number } :: outer }

/-- Takes the next block off the agenda of the innermost context (`ScopeData::remove_from_work_list`). -/
def takeNext (s : Assembly) : Option BlockId × Assembly :=
  match s.chain with
  | [] => (none, s)
  | c :: outer =>
    let (b, agenda) := c.agenda.pop
    (b, { s with chain := { c with agenda := agenda } :: outer })

/-- Counts a return of the innermost context (`ScopeData::increment_number_of_returns`). -/
def countReturn (s : Assembly) : Assembly := { s with chain := Chain.countReturn s.chain }

/-! ## Handlers -/

/-- Copies of some handlers for the subroutine of the innermost context (the loop of
`ScopeData::setup_jsr_exception_handlers`). The entry of a handler with code is a block of the subroutine.
The handler without code stays as it is, if its entry is the block that unlocks. -/
def copyHandlers : List Handler → Assemble (List Handler)
  | [] => pure []
  | h :: rest => do
    match h.entryIndex? with
    | some bci =>
      let entry ← modifyGet (locate bci)
      return { h with entry := entry } :: (← copyHandlers rest)
    | none =>
      let s ← get
      if h.entry.any fun b => (s.graph.block b).flags.defaultHandler then
        return h :: (← copyHandlers rest)
      else throw .noUnlockBlock

/-- Copies the handlers of the scope for the subroutine of the innermost context
(`ScopeData::setup_jsr_exception_handlers`). -/
def setUpHandlers : Assemble Unit := do
  let c ← innermost
  if !c.isSubroutine then throw .outsideSubroutine
  let handlers ← copyHandlers ((← get).graph.declaredHandlers c.scope)
  modify (·.modifyInnermost fun c =>
    { c with subroutine := c.subroutine.map ({ · with handlers := some handlers }) })

/-- Declares a handler in the innermost context: in its scope, or among the copies of its subroutine
(`ScopeData::add_exception_handler`). -/
def addHandler (h : Handler) : Assemble Unit := fun s =>
  match s.chain with
  | [] => .error .noContext s
  | c :: outer =>
    match c.subroutine with
    | none =>
      .ok () { s with
        graph := s.graph.declareHandler c.scope h
        chain := { c with guarded := true } :: outer }
    | some sub =>
      match sub.handlers with
      | none => .error .insideSubroutine s
      | some handlers =>
        let sub := { sub with handlers := some (handlers ++ [h]) }
        .ok () { s with chain := { c with guarded := true, subroutine := some sub } :: outer }

end Assembly
end BlockGraph
