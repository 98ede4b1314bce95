import BlockGraph.Bytecode.Opcode
import BlockGraph.Graph.Scope

/-!
# Graphs

The graph of a method owns its blocks, instructions and scopes in three arrays; everything refers
to them by index. So a block can be copied, once for each call of a subroutine, and the copies
share nothing.
-/

namespace BlockGraph

/-- An instruction of the graph (`Instruction`). -/
structure Instr where
  /-- Where in the code it comes from. -/
  site : Site
  /-- The opcode, without a `wide` before it. -/
  opcode : Opcode
  /-- The block to which it was appended. -/
  block : BlockId
deriving DecidableEq, Repr

/-- The graph of a method (`IrGraph`). -/
structure Graph where
  blocks : Array Block := #[]
  instrs : Array Instr := #[]
  scopes : Array Scope := #[]
  /-- The block where the method starts. -/
  start : Option BlockId := none
  /-- The blocks that have been parsed, in order. -/
  order : Array BlockId := #[]
deriving DecidableEq, Repr

namespace Graph

/-! ## Blocks -/

/-- The block with an index (`IrGraph::block`). -/
def block (g : Graph) (b : BlockId) : Block := g.blocks[b]?.getD default

/-- Replaces a block by what `f` makes of it (`IrGraph::block_mut`). -/
def modifyBlock (g : Graph) (b : BlockId) (f : Block → Block) : Graph :=
  { g with blocks := g.blocks.modify b f }

/-- Adds a block and answers its index (`IrGraph::add_block`). -/
def newBlock (g : Graph) (block : Block) : BlockId × Graph :=
  (g.blocks.size, { g with blocks := g.blocks.push block })

/-- Adds a block that has the start, number and flags of another one, and nothing else of it
(`IrGraph::duplicate_block`). -/
def copyBlock (g : Graph) (b : BlockId) : BlockId × Graph := g.newBlock (g.block b).blankCopy

/-- Sets flags of a block, besides those that it has (`BlockBegin::set_block_flag`). -/
def setFlags (g : Graph) (b : BlockId) (flags : BlockFlags) : Graph :=
  g.modifyBlock b fun block => { block with flags := block.flags.union flags }

/-- Gives a block the flags of another one, in place of its own (`BlockBegin::copy_block_flags`). -/
def copyFlags (g : Graph) (b source : BlockId) : Graph :=
  let flags := (g.block source).flags
  g.modifyBlock b fun block => { block with flags := flags }

/-! ## Scopes -/

/-- Adds a scope and answers its index (`IrGraph::add_scope`). -/
def newScope (g : Graph) (scope : Scope) : ScopeId × Graph :=
  (g.scopes.size, { g with scopes := g.scopes.push scope })

/-- The handlers declared in a scope (`IrScope::exception_handlers`). -/
def declaredHandlers (g : Graph) (s : ScopeId) : List Handler :=
  g.scopes[s]?.elim [] Scope.handlers

/-- Declares a handler in a scope (`IrScope::add_exception_handler`). -/
def declareHandler (g : Graph) (s : ScopeId) (h : Handler) : Graph :=
  { g with scopes := g.scopes.modify s (·.declare h) }

/-! ## Instructions -/

/-- Adds an instruction at the end of a block and answers its index (`IrGraph::append_instruction`). -/
def append (g : Graph) (b : BlockId) (site : Site) (opcode : Opcode) : InstrId × Graph :=
  let id := g.instrs.size
  (id, { g with
    instrs := g.instrs.push { site := site, opcode := opcode, block := b }
    blocks := g.blocks.modify b fun block => { block with instrs := block.instrs.push id } })

/-- The instructions up to `last`, all of them if it is not there; none if `last` is absent. -/
def upTo (last : Option InstrId) (instrs : Array InstrId) : Array InstrId :=
  match last with
  | none => #[]
  | some i =>
    match instrs.idxOf? i with
    | none => instrs
    | some k => instrs.take (k + 1)

/-- Drops every instruction of a block after `last` (`IrGraph::truncate_block`). The graph still has them,
but not in the block. -/
def cutAfter (g : Graph) (b : BlockId) (last : Option InstrId) : Graph :=
  g.modifyBlock b fun block => { block with instrs := upTo last block.instrs }

/-! ## Edges -/

/-- Records `b` as a predecessor of a block, once (the loop of `IrGraph::set_block_end`). -/
def addPredecessor (g : Graph) (b successor : BlockId) : Graph :=
  g.modifyBlock successor fun block =>
    if b ∈ block.predecessors then block
    else { block with predecessors := block.predecessors ++ [b] }

/-- Says how control leaves a block, which makes it a predecessor of its successors
(`IrGraph::set_block_end`). -/
def close (g : Graph) (b : BlockId) (exit : Exit) : Graph :=
  (exit.successors.foldl (fun g s => g.addPredecessor b s) g).modifyBlock b fun block =>
    { block with exit := some exit }

/-- Records that an exception in a block may be caught at `handler`, once (`IrGraph::add_exception_edge`). -/
def addHandlerEdge (g : Graph) (b handler : BlockId) : Graph :=
  g.modifyBlock b fun block =>
    if handler ∈ block.handlers then block
    else { block with handlers := block.handlers ++ [handler] }

/-! ## What an operation leaves alone -/

@[simp] theorem size_modifyBlock (g : Graph) (b : BlockId) (f : Block → Block) :
    (g.modifyBlock b f).blocks.size = g.blocks.size := by simp [modifyBlock]

theorem block_modifyBlock (g : Graph) (b other : BlockId) (f : Block → Block) :
    (g.modifyBlock b f).block other =
      if other = b ∧ b < g.blocks.size then f (g.block b) else g.block other := by
  unfold modifyBlock block
  rw [Array.getElem?_modify]
  by_cases h : b = other
  · subst h
    by_cases hb : b < g.blocks.size <;> simp [hb]
  · simp [h, Ne.symm h]

theorem block_newBlock (g : Graph) (x : Block) (b : BlockId) :
    (g.newBlock x).2.block b = if b = g.blocks.size then x else g.block b := by
  unfold newBlock block
  simp only [Array.getElem?_push]
  split <;> rfl

end Graph
end BlockGraph
