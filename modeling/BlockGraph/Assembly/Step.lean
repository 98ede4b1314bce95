import BlockGraph.Assembly

/-!
# Steps

A graph is made in steps. A step opens the next block on the agenda of the innermost context, or
parses one instruction of the open block, or goes back from a subroutine whose agenda is empty to
the context of its call. So the contexts drain one inside the other, and the block after a call is
parsed only after the whole subroutine.

`GraphBuilder::iterate_all_blocks` and `parse_block` are loops, and a call starts the former anew inside of
the latter. A step is one turn of them: what a loop would come back to is the rest of the chain.
-/

namespace BlockGraph
namespace Assembly

/-! ## Closing a block -/

/-- Says how control leaves the open block, which closes it (`IrGraph::set_block_end`). -/
def finishBlock (b : BlockId) (exit : Exit) (s : Assembly) : Assembly :=
  { s with graph := s.graph.close b exit, current := none }

/-- Adds an instruction at the end of a block (`IrGraph::append_instruction`). -/
def appendInstr (b : BlockId) (site : Site) (opcode : Opcode) (s : Assembly) : Assembly :=
  { s with graph := (s.graph.append b site opcode).2 }

/-- The block that starts at an index, as the innermost context sees it; there must be one (`block_at` or
else `MissingBlock`). -/
def expectBlock (bci : Nat) : Assemble BlockId := do
  match ← modifyGet (locate bci) with
  | some b => return b
  | none => throw (.noBlock bci)

/-- The block that starts at an index, put on the agenda (`GraphBuilder::successor_at`). -/
def scheduleAt (bci : Nat) : Assemble BlockId := do
  let b ← expectBlock bci
  modify (schedule b)
  return b

/-! ## Handlers and return addresses -/

/-- Gives the open block an edge to each handler that protects an instruction, and puts the handlers on the
agenda (the handlers in `GraphBuilder::parse_block`). -/
def linkHandlers (b : BlockId) (bci : Nat) : Assemble Unit := do
  let c ← innermost
  if c.guarded then
    let handlers ← ofExcept (c.visibleHandlers (← get).graph)
    let entries := (handlers.filter (·.protects bci)).filterMap (·.entry)
    modify fun s => entries.foldl
      (fun s entry => schedule entry { s with graph := s.graph.addHandlerEdge b entry }) s

/-- Does a store of `width` locals from `slot` on write the local `kept`
(`GraphBuilder::track_return_address`)? -/
def overwrites (slot width kept : Nat) : Bool := slot == kept || (width == 2 && slot + 1 == kept)

/-- Keeps track of the local that holds the return address (`GraphBuilder::track_return_address`). A
subroutine stores it with its first instruction, where no enclosing subroutine may keep its own; any later
store to that local loses it. -/
def trackStore (opcode : Opcode) (bci slot width : Nat) : Assemble Unit := fun s =>
  match s.chain with
  | [] => .error .noContext s
  | c :: outer =>
    match c.subroutine with
    | none => .ok () s
    | some sub =>
      if bci = sub.entry ∧ opcode.storesReference then
        if Chain.enclosingKeeps s.chain slot then
          .error (.bailout .addressOverwritten) (s.note (.overwritesEnclosing c.label slot))
        else
          .ok () { s.note (.addressStored c.label slot) with
            chain := { c with returnLocal := some slot } :: outer }
      else if c.returnLocal.any (overwrites slot width) then
        .ok () { s.note (.addressLost c.label bci) with
          chain := { c with returnLocal := none } :: outer }
      else .ok () s

/-- Where a `ret` of the given local comes back to, if the subroutine keeps its return address there
(`GraphBuilder::gen_ret`). -/
def returnTarget (slot : Nat) : Assemble BlockId := do
  let c ← innermost
  if !c.isSubroutine then throw (.bailout .strayRet)
  if c.returnLocal ≠ some slot then
    modify (·.note (.wrongLocal slot c.label c.returnLocal))
    throw (.bailout .unknownAddress)
  match c.resume with
  | some target => return target
  | none => throw .outsideSubroutine

/-! ## Subroutines -/

/-- Ends a block with a call of the subroutine at `entry`, which comes back to `back`, and goes on in a
context of its own for this call (`GraphBuilder::gen_jsr`, as far as to its work list). -/
def callSubroutine (o : Options) (b : BlockId) (entry back : Nat) : Assemble Unit := do
  let c ← innermost
  if Chain.isEntered (← get).chain entry then
    modify (·.note (.recursiveEntry entry))
    throw (.bailout .recursiveSubroutine)
  let resume ← expectBlock back
  let s ← get
  let inner ← ofExcept ((s.newContext c.scope c.table c.cursor c.pool o).enter entry)
  modify (·.push { inner with
    resume := some resume
    continuation := c.continuation
    continuationFrame := c.continuationFrame })
  setUpHandlers
  modify (·.note (.pushed inner.label))
  let first ← expectBlock entry
  modify (finishBlock b (.jsr first resume))
  modify (schedule first)

/-- Goes back from the innermost context to the one around it, where the block after the call is put on the
agenda if the subroutine came back to it (`GraphBuilder::gen_jsr`, behind its work list). Answers whether
there was no context around it. -/
def closeContext : Assemble Bool := fun s =>
  match s.chain with
  | [] => .error .noContext s
  | [_] => .ok true s
  | c :: outer =>
    let s := { s.note (.popped c.label) with chain := outer }
    match c.resume with
    | none => .ok false s
    | some b =>
      if (s.graph.block b).predecessors.isEmpty then .ok false s else .ok false (schedule b s)

/-! ## The steps -/

/-- Parses the instruction under the cursor of the innermost context as the next one of a block (one turn of
the loop of `GraphBuilder::parse_block`). -/
def parseInstr (o : Options) (b : BlockId) : Assemble Unit := do
  let c := (← innermost).cursor
  let bci := c.position
  linkHandlers b bci
  modify (appendInstr b (.code bci) c.opcode)
  match c.opcode.flow with
  | .branch =>
    let target ← ofExcept c.branchTarget
    let taken ← scheduleAt target
    let notTaken ← scheduleAt c.next
    modify (finishBlock b (.branch taken notTaken))
  | .goto =>
    let target ← ofExcept c.branchTarget
    let next ← scheduleAt target
    modify (finishBlock b (.goto next))
  | .switch =>
    let (fallback, cases) ← ofExcept c.jumpTable
    let fallback ← scheduleAt fallback
    let cases ← cases.mapM scheduleAt
    modify (finishBlock b (.switch fallback cases))
  | .jsr =>
    let target ← ofExcept c.branchTarget
    callSubroutine o b target c.next
  | .ret =>
    let slot ← ofExcept c.localSlot
    let target ← returnTarget slot
    modify (finishBlock b (.ret target))
  | .leave =>
    modify countReturn
    modify (finishBlock b .leave)
  | .throw => modify (finishBlock b .throw)
  | .next =>
    if let some width := c.opcode.writtenSlots? then
      let slot ← ofExcept c.localSlot
      trackStore c.opcode bci slot width
    if ((← innermost).table.get c.next).isSome then
      let next ← scheduleAt c.next
      modify (finishBlock b (.goto next))
    else if (← withCursor Cursor.advance).isNone then
      throw (.malformed bci .fallsOff)

/-- Parses the block that unlocks and throws again, which has no code (`GraphBuilder::parse_block`). -/
def parseUnlock (b : BlockId) (s : Assembly) : Assembly :=
  finishBlock b .throw
    (appendInstr b .unlock Opcode.athrow (appendInstr b .unlock Opcode.monitorexit s))

/-- Opens a block: it counts as parsed, and the cursor moves to its first instruction (one turn of the loop
of `GraphBuilder::iterate_all_blocks`). -/
def openBlock (m : Method) (o : Options) (b : BlockId) : Assemble Unit := do
  modify fun s =>
    { s with graph := s.graph.modifyBlock b ({ · with visited := true }), parsedBlocks := s.parsedBlocks + 1 }
  if o.blockLimit < (← get).parsedBlocks then
    modify (·.note (.givingUp m.name o.blockLimit))
    throw (.bailout (.tooManyBlocks o.blockLimit))
  modify fun s => { s with graph := { s.graph with order := s.graph.order.push b } }
  let block := (← get).graph.block b
  if block.flags.defaultHandler then modify (parseUnlock b)
  else
    let c ← innermost
    modify (·.note (.parsing b block.site.index c.label))
    let _ ← withCursor (Cursor.moveTo block.site.index)
    modify ({ · with current := some b })

/-- Drops the blocks at the front of the innermost agenda that have been parsed already
(`GraphBuilder::iterate_all_blocks`). -/
def skipVisited (s : Assembly) : Assembly :=
  s.modifyInnermost fun c =>
    { c with agenda := c.agenda.skip fun b => (s.graph.block b).visited }

/-- Takes one step: a turn of the loop of `parse_block` if a block is open, else one of
`iterate_all_blocks`. Answers whether nothing is left to do. -/
def step (m : Method) (o : Options) : Assemble Bool := do
  match (← get).current with
  | some b =>
    parseInstr o b
    return false
  | none =>
    modify skipVisited
    match ← modifyGet takeNext with
    | some b =>
      openBlock m o b
      return false
    | none => closeContext

end Assembly
end BlockGraph
