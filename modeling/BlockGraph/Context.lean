import BlockGraph.Agenda
import BlockGraph.Bytecode.Cursor
import BlockGraph.Event
import BlockGraph.Graph.Basic
import BlockGraph.Graph.Table
import BlockGraph.Options

/-!
# Contexts

A context is what is needed to parse one scope: the method whose graph is built, a method inlined
into it, or a subroutine. Contexts are nested in each other and form a chain, innermost first.

A subroutine can be called from several places, and each call gets its own copy of the body. While
a context parses a subroutine it finds blocks in a table of copies: the first time that it asks for
an index, it copies the block that the enclosing context has there, and from then on it finds that
copy. Its handlers are copies too.
-/

namespace BlockGraph

/-- How to take back an inlined method that was parsed into a block of its caller (`InlineCleanupInfo`). -/
structure InlineUndo where
  /-- The block that holds the inlined instructions. -/
  block : BlockId
  /-- The last instruction before them, if there is one. -/
  last : Option InstrId
  /-- The frame at that instruction. -/
  frame : Frame
deriving DecidableEq, Repr

/-- A subroutine that is parsed for one of its calls (the fields of a `ScopeData` that parses one). -/
structure Subroutine where
  /-- Where it starts. -/
  entry : Nat
  /-- The copies made so far. -/
  copies : BlockTable
  /-- The handlers of the scope, with copies of their entries, once they have been set up. -/
  handlers : Option (List Handler) := none
deriving DecidableEq, Repr

/-- What is needed to parse a scope (`ScopeData`). -/
structure Context where
  scope : ScopeId
  /-- The blocks of the method. -/
  table : BlockTable
  cursor : Cursor
  pool : ConstantPool
  /-- May the scope or an enclosing one have handlers? -/
  guarded : Bool
  /-- Blocks that wait to be parsed in this context. -/
  agenda : Agenda := {}
  /-- Size of the methods that may be inlined here. -/
  inlineSize : Nat
  /-- Where the caller goes on after an inlined method. -/
  continuation : Option BlockId := none
  /-- The frame there, without the result of the inlined method. -/
  continuationFrame : Option Frame := none
  /-- How many returns have been parsed. -/
  returns : Nat := 0
  undo : Option InlineUndo := none
  /-- The subroutine that is parsed, if one is. -/
  subroutine : Option Subroutine := none
  /-- The local that holds the return address of the subroutine, once it has been stored. -/
  returnLocal : Option Nat := none
  /-- Where the subroutine comes back to. -/
  resume : Option BlockId := none
deriving DecidableEq, Repr

namespace Context

/-- A context for `scope` in a chain (`ScopeData::new`). What it may inline and whether there are handlers
depends on the context around it as that is now. -/
def nested (outer : List Context) (scope : ScopeId) (declaresHandlers : Bool) (table : BlockTable)
    (cursor : Cursor) (pool : ConstantPool) (o : Options) : Context where
  scope := scope
  table := table
  cursor := cursor
  pool := pool
  guarded := declaresHandlers || outer.head?.any (·.guarded)
  inlineSize := outer.head?.elim o.inlineSize (o.nestedShare ·.inlineSize)

/-- Is a subroutine parsed (`ScopeData::parsing_jsr`)? -/
def isSubroutine (c : Context) : Bool := c.subroutine.isSome

/-- Where the subroutine starts that is parsed, zero when none is (`ScopeData::jsr_entry_bci`). -/
def entryIndex (c : Context) : Nat := c.subroutine.elim 0 (·.entry)

/-- What the context is called in the transcript. -/
def label (c : Context) : ContextLabel := { entry := c.subroutine.map (·.entry), scope := c.scope }

/-- Starts to parse the subroutine at an index, with no copies yet (`ScopeData::set_jsr_entry_bci`). None
can start at the beginning of a method. -/
def enter (c : Context) (entry : Nat) : Except Fault Context :=
  if entry = 0 then .error (.badEntry entry)
  else
    let handlers := c.subroutine.bind (·.handlers)
    let subroutine := { entry := entry, copies := .blank c.cursor.code.size, handlers := handlers }
    .ok { c with subroutine := some subroutine }

/-- Enters the copy of a block (`ScopeData::block_at`). -/
def keepCopy (c : Context) (bci : Nat) (copy : BlockId) : Context :=
  { c with subroutine := c.subroutine.map fun s => { s with copies := s.copies.set bci copy } }

/-- The handlers that are visible here (`ScopeData::exception_handlers`). A subroutine sees none before they
have been copied. -/
def visibleHandlers (c : Context) (g : Graph) : Except Fault (List Handler) :=
  match c.subroutine with
  | none => .ok (g.declaredHandlers c.scope)
  | some s =>
    match s.handlers with
    | some handlers => .ok handlers
    | none => .error .insideSubroutine

end Context

/-! ## Questions to a chain -/

namespace Chain

/-- The subroutines of one scope that the chain starts with. -/
def subroutinesOf (scope : ScopeId) (chain : List Context) : List Context :=
  chain.takeWhile fun c => c.isSubroutine && c.scope == scope

/-- Is a subroutine of the innermost scope parsed that starts at this index
(`ScopeData::is_parsing_jsr_entry`)? -/
def isEntered (chain : List Context) (entry : Nat) : Bool :=
  match chain with
  | [] => false
  | c :: _ => (subroutinesOf c.scope chain).any (·.entryIndex == entry)

/-- Does a subroutine of the same scope around the innermost context keep its return address in this local
(`ScopeData::is_enclosing_return_address_local`)? -/
def enclosingKeeps (chain : List Context) (slot : Nat) : Bool :=
  match chain with
  | [] => false
  | c :: outer => (subroutinesOf c.scope outer).any (·.returnLocal == some slot)

/-- How many returns have been parsed in the innermost context (`ScopeData::number_of_returns`). Those of a
subroutine count for the context around it. -/
def returns : List Context → Nat
  | [] => 0
  | [c] => c.returns
  | c :: outer => if c.isSubroutine then returns outer else c.returns

/-- Counts a return (`ScopeData::increment_number_of_returns`). -/
def countReturn : List Context → List Context
  | [] => []
  | [c] => [{ c with returns := c.returns + 1 }]
  | c :: outer =>
    if c.isSubroutine then c :: countReturn outer else { c with returns := c.returns + 1 } :: outer

end Chain
end BlockGraph
