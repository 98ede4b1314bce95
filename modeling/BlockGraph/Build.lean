import BlockGraph.Assembly.Step
import BlockGraph.Layout

/-!
# Building the graph of a method

The blocks of the method are laid out, its handlers are declared, and then the graph is made step
by step from the block at the beginning. `build` answers the graph, `transcript` tells how it was
made, also when it was not finished.
-/

namespace BlockGraph
namespace Assembly

/-- Declares the handlers of the exception table, each with the block where it starts (the handlers in
`GraphBuilder::build`). -/
def declareHandlers (pool : ConstantPool) (scope : ScopeId) (table : BlockTable) :
    List Handler → Assemble Unit
  | [] => pure ()
  | h :: rest => do
    match h.entryIndex?.bind table.get with
    | none => throw (.noBlock h.target.index)
    | some entry =>
      modify fun s =>
        { s.note (.handler (pool.caughtName h.catchType) h.first h.limit entry) with
          graph := s.graph.declareHandler scope { h with entry := some entry } }
      declareHandlers pool scope table rest

/-- The block that unlocks and throws again (`GraphBuilder::add_default_exception_handler`). It is numbered
after the blocks that there are. -/
def unlockBlock (g : Graph) : Block where
  site := .unlock
  number := g.blocks.size
  flags := { exceptionEntry := true, defaultHandler := true }

/-- Declares the handler of a synchronized method, which catches everything
(`GraphBuilder::add_default_exception_handler`). -/
def declareUnlock (m : Method) (scope : ScopeId) (s : Assembly) : Assembly :=
  let (entry, graph) := s.graph.newBlock (unlockBlock s.graph)
  let handler :=
    { first := 0, limit := m.code.size, target := .unlock, catchType := 0, entry := some entry }
  { s.note (.unlockHandler entry) with graph := graph.declareHandler scope handler }

/-- Prepares the assembly of a method: its blocks, its handlers, and a context with the block at the
beginning on the agenda (`GraphBuilder::build`, as far as to its work list). -/
def prepare (m : Method) (pool : ConstantPool) (o : Options) : Assemble Unit := do
  modify (·.note (.building m.name m.code.size m.handlers.length))
  let scope ← modifyGet fun s =>
    let (scope, graph) := s.graph.newScope (.root m)
    (scope, { s with graph := graph })
  let starts ← ofExcept (layout m.code m.handlers)
  let table ← modifyGet fun s =>
    let (graph, table) := s.graph.place (.blank m.code.size) starts
    (table, { s with graph := graph, log := s.log ++ (Start.events starts m.code.size).toArray })
  declareHandlers pool scope table m.handlers
  if m.access.isSynchronized then modify (declareUnlock m scope)
  match table.get 0 with
  | none => throw (.noBlock 0)
  | some start =>
    modify fun s => { s with graph := { s.graph with start := some start } }
    let root := (← get).newContext scope table (.ofCode m.code) pool o
    modify fun s => (s.note (.pushed root.label)).push root
    modify (schedule start)

/-- Takes steps until nothing is left to do, but no more than `fuel` (`GraphBuilder::iterate_all_blocks`). -/
def run (m : Method) (o : Options) : Nat → Assemble Unit
  | 0 => throw (.bailout (.tooManyBlocks o.blockLimit))
  | fuel + 1 => do
    if ← step m o then pure () else run m o fuel

/-- No method takes more steps than this: for each block that the limit allows, and one more, a
step to open it, one for each of its instructions, and one to go back from a call at its end. -/
def stepBound (m : Method) (o : Options) : Nat := (o.blockLimit + 1) * (m.code.size + 2) + 1

/-- Takes the outermost context off the chain (`GraphBuilder::build`, behind its work list). -/
def conclude (m : Method) : Assemble Unit := do
  let c ← innermost
  let returns := Chain.returns (← get).chain
  modify fun s => (s.note (.popped c.label)).pop
  modify fun s => s.note (.finished s.parsedBlocks returns m.name)

/-- Makes the whole graph of a method. -/
def assemble (m : Method) (pool : ConstantPool) (o : Options) : Assemble Unit := do
  prepare m pool o
  run m o (stepBound m o)
  conclude m

end Assembly

/-- The block graph of a method (`GraphBuilder::build`). -/
def build (m : Method) (pool : ConstantPool) (o : Options) : Except Fault Graph :=
  match (Assembly.assemble m pool o).run {} with
  | .ok _ s => .ok s.graph
  | .error fault _ => .error fault

/-- What was done to build the graph of a method, up to a fault if there was one. -/
def transcript (m : Method) (pool : ConstantPool) (o : Options) : List Event :=
  match (Assembly.assemble m pool o).run {} with
  | .ok _ s | .error _ s => s.log.toList

end BlockGraph
