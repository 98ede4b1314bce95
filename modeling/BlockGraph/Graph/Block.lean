import BlockGraph.Handler
import BlockGraph.Text

/-!
# Blocks

A basic block: where it starts, what kind of entry it is, which instructions it holds and how
control leaves it.
-/

namespace BlockGraph

/-- Index of an instruction in its graph. -/
abbrev InstrId := Nat

/-! ## Flags -/

/-- What is known of a block before its instructions are parsed. -/
structure BlockFlags where
  /-- The method starts here. -/
  standardEntry : Bool := false
  /-- A handler starts here. -/
  exceptionEntry : Bool := false
  /-- A subroutine starts here. -/
  subroutineEntry : Bool := false
  /-- An instruction at the same or a higher index leads here. -/
  backwardTarget : Bool := false
  /-- This is the handler that unlocks and throws again. -/
  defaultHandler : Bool := false
  /-- A loop may have its header here. -/
  loopHeader : Bool := false
deriving DecidableEq, Repr, Inhabited

namespace BlockFlags

/-- The bits of the flags, with their names. -/
def names : List (Nat × String) := [
  (0, "STANDARD_ENTRY"), (1, "EXCEPTION_ENTRY"), (2, "SUBROUTINE_ENTRY"),
  (3, "BACKWARD_BRANCH_TARGET"), (4, "DEFAULT_EXCEPTION_HANDLER"), (5, "PARSER_LOOP_HEADER")]

/-- The flags as bits of a number. -/
def bits (f : BlockFlags) : Nat :=
  f.standardEntry.toNat + 2 * f.exceptionEntry.toNat + 4 * f.subroutineEntry.toNat +
    8 * f.backwardTarget.toNat + 16 * f.defaultHandler.toNat + 32 * f.loopHeader.toNat

/-- The flags among the bits of a number; other bits are dropped. -/
def ofBits (n : Nat) : BlockFlags where
  standardEntry := n.testBit 0
  exceptionEntry := n.testBit 1
  subroutineEntry := n.testBit 2
  backwardTarget := n.testBit 3
  defaultHandler := n.testBit 4
  loopHeader := n.testBit 5

/-- The flags of either set. -/
def union (f g : BlockFlags) : BlockFlags where
  standardEntry := f.standardEntry || g.standardEntry
  exceptionEntry := f.exceptionEntry || g.exceptionEntry
  subroutineEntry := f.subroutineEntry || g.subroutineEntry
  backwardTarget := f.backwardTarget || g.backwardTarget
  defaultHandler := f.defaultHandler || g.defaultHandler
  loopHeader := f.loopHeader || g.loopHeader

/-- Are all flags of `g` set in `f` (`BlockBegin::check_block_flag`)? -/
def contains (f g : BlockFlags) : Bool := f.union g == f

def text (f : BlockFlags) : String := Text.flagNames names f.bits

theorem ofBits_bits (f : BlockFlags) : ofBits f.bits = f := by
  obtain ⟨a, b, c, d, e, g⟩ := f
  revert a b c d e g; decide

end BlockFlags

/-! ## Exits -/

/-- How control leaves a block (`BlockEnd`). -/
inductive Exit where
  /-- To one block, by a jump or by falling through. -/
  | goto (target : BlockId)
  | branch (taken notTaken : BlockId)
  /-- To the block of the default case or of some case; cases are in code order. -/
  | switch (fallback : BlockId) (cases : List BlockId)
  /-- Into a subroutine, which comes back to `continuation`. -/
  | jsr (entry continuation : BlockId)
  /-- Out of a subroutine, to the continuation of its call. -/
  | ret (target : BlockId)
  /-- Out of the method. -/
  | leave
  | throw
deriving DecidableEq, Repr

namespace Exit

/-- The blocks that control can enter next (`BlockEnd::successors`). Each is named once, in order of its
first mention, but for the two of a branch. The continuation of a subroutine call is not among them: it is
entered from the subroutine. -/
def successors : Exit → List BlockId
  | .goto target | .ret target => [target]
  | .branch taken notTaken => [taken, notTaken]
  | .switch fallback cases => (fallback :: cases).eraseDups
  | .jsr entry _ => [entry]
  | .leave | .throw => []

end Exit

/-! ## Blocks -/

/-- A basic block (`BlockBegin`). -/
structure Block where
  /-- Where the block starts. -/
  site : Site
  /-- Rank in a depth-first traversal of the blocks. -/
  number : Nat
  flags : BlockFlags := {}
  /-- Has the block been put on an agenda? It never leaves this state. -/
  queued : Bool := false
  /-- Has the block been parsed? -/
  visited : Bool := false
  /-- Its instructions, in order. -/
  instrs : Array InstrId := #[]
  /-- How control leaves the block, once it has been parsed. -/
  exit : Option Exit := none
  predecessors : List BlockId := []
  /-- Entries of the handlers that protect some instruction of the block. -/
  handlers : List BlockId := []
deriving DecidableEq, Repr

namespace Block

instance : Inhabited Block := ⟨{ site := .unlock, number := 0 }⟩

/-- An empty block that starts where another one starts, with its number and flags (`BlockBegin::new`,
`copy_block_flags`). -/
def blankCopy (b : Block) : Block := { site := b.site, number := b.number, flags := b.flags }

/-- The blocks that control can enter next. -/
def successors (b : Block) : List BlockId := b.exit.elim [] Exit.successors

end Block
end BlockGraph
