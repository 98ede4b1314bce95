/-!
# Opcodes

What the first byte of an instruction says about it: how long the instruction is, where control
can go after it, and which local variable it writes. Only opcodes that some rule singles out have
a name here.
-/

namespace BlockGraph

/-- The byte that says what an instruction does. -/
abbrev Opcode := UInt8

namespace Opcode

def nop : Opcode := 0x00
def bipush : Opcode := 0x10
def ldc : Opcode := 0x12
def iload : Opcode := 0x15
def aload : Opcode := 0x19
def istore : Opcode := 0x36
def lstore : Opcode := 0x37
def fstore : Opcode := 0x38
def dstore : Opcode := 0x39
def astore : Opcode := 0x3a
def iinc : Opcode := 0x84
def goto : Opcode := 0xa7
def jsr : Opcode := 0xa8
def ret : Opcode := 0xa9
def tableswitch : Opcode := 0xaa
def lookupswitch : Opcode := 0xab
def newarray : Opcode := 0xbc
def athrow : Opcode := 0xbf
def monitorexit : Opcode := 0xc3
def wide : Opcode := 0xc4
def multianewarray : Opcode := 0xc5
def ifnull : Opcode := 0xc6
def ifnonnull : Opcode := 0xc7
def gotoWide : Opcode := 0xc8
def jsrWide : Opcode := 0xc9

/-- Is the opcode one of `first`, …, `last`? -/
def isBetween (first last op : Opcode) : Bool := first ≤ op && op ≤ last

/-! ## Length -/

/-- Length of an instruction, as far as its opcode tells. -/
inductive Length where
  /-- That many bytes, the opcode included. -/
  | fixed (bytes : Nat)
  /-- It depends on the operands. -/
  | variable
  /-- No instruction starts with this byte. -/
  | illegal
deriving DecidableEq, Repr

/-- Opcodes of two bytes. -/
def hasByteOperand (op : Opcode) : Bool :=
  op == bipush || op == ldc || isBetween iload aload op || isBetween istore astore op ||
    op == ret || op == newarray

/-- Opcodes of three bytes. -/
def hasShortOperand (op : Opcode) : Bool :=
  op == 0x11 || isBetween 0x13 0x14 op || op == iinc || isBetween 0x99 jsr op ||
    isBetween 0xb2 0xb8 op || op == 0xbb || op == 0xbd || isBetween 0xc0 0xc1 op ||
    isBetween ifnull ifnonnull op

/-- Opcodes of five bytes. -/
def hasWordOperand (op : Opcode) : Bool :=
  isBetween 0xb9 0xba op || isBetween gotoWide jsrWide op

/-- Length of the instruction that starts with this opcode (`opcodes::length_of`). -/
def length (op : Opcode) : Length :=
  if op > jsrWide then .illegal
  else if op == tableswitch || op == lookupswitch || op == wide then .variable
  else if op.hasByteOperand then .fixed 2
  else if op.hasShortOperand then .fixed 3
  else if op == multianewarray then .fixed 4
  else if op.hasWordOperand then .fixed 5
  else .fixed 1

/-- Length of an instruction whose opcode follows a `wide`, if that opcode can be widened
(`BytecodeStream::instruction_length`). -/
def wideLength? (op : Opcode) : Option Nat :=
  if op == iinc then some 6
  else if isBetween iload aload op || isBetween istore astore op || op == ret then some 4
  else none

/-- An instruction is never empty. -/
theorem pos_of_length {op : Opcode} {n : Nat} (h : op.length = .fixed n) : 0 < n := by
  unfold length at h
  repeat' split at h
  all_goals cases h
  all_goals decide

theorem pos_of_wideLength? {op : Opcode} {n : Nat} (h : op.wideLength? = some n) : 0 < n := by
  unfold wideLength? at h
  repeat' split at h
  all_goals cases h
  all_goals decide

/-! ## Flow of control -/

/-- Where control goes after an instruction. -/
inductive Flow where
  /-- To the next instruction. -/
  | next
  /-- To the branch target or to the next instruction. -/
  | branch
  /-- To the branch target. -/
  | goto
  /-- Into the subroutine at the branch target, which comes back to the next instruction. -/
  | jsr
  /-- Out of a subroutine. -/
  | ret
  /-- To one of several targets. -/
  | switch
  /-- Out of the method. -/
  | leave
  /-- To a handler, or out of the method. -/
  | throw
deriving DecidableEq, Repr

/-- Two-way branch (`opcodes::is_conditional_branch`)? -/
def isBranch (op : Opcode) : Bool := isBetween 0x99 0xa6 op || isBetween ifnull ifnonnull op

/-- Where control goes after an instruction with this opcode (`is_conditional_branch`, `is_goto`, `is_jsr`,
`is_switch` and `is_return` of `opcodes`). -/
def flow (op : Opcode) : Flow :=
  if op.isBranch then .branch
  else if op == goto || op == gotoWide then .goto
  else if op == jsr || op == jsrWide then .jsr
  else if op == ret then .ret
  else if op == tableswitch || op == lookupswitch then .switch
  else if isBetween 0xac 0xb1 op then .leave
  else if op == athrow then .throw
  else .next

/-- Can control reach the next instruction without leaving the block first (not if `opcodes::ends_block`)?
For a subroutine call the next instruction is where the subroutine comes back to. -/
def Flow.fallsThrough : Flow → Bool
  | .next | .branch | .jsr => true
  | .goto | .ret | .switch | .leave | .throw => false

/-- Does the instruction end a block: is it one of `opcodes::ends_block`, or does it name targets? -/
def Flow.endsBlock : Flow → Bool
  | .next => false
  | _ => true

/-! ## Local variables -/

/-- Number of local variables that a store writes (`opcodes::store_width`). -/
def writtenSlots? (op : Opcode) : Option Nat :=
  if op == lstore || op == dstore || isBetween 0x3f 0x42 op || isBetween 0x47 0x4a op then some 2
  else if isBetween istore astore op || isBetween 0x3b 0x4e op then some 1
  else none

/-- Does the instruction store a reference or a return address (`opcodes::is_astore`)? -/
def storesReference (op : Opcode) : Bool := op == astore || isBetween 0x4b 0x4e op

/-- The local variable that a short load or store names in its opcode (`opcodes::implicit_local`). -/
def impliedSlot? (op : Opcode) : Option Nat :=
  if isBetween 0x1a 0x2d op then some ((op.toNat - 0x1a) % 4)
  else if isBetween 0x3b 0x4e op then some ((op.toNat - 0x3b) % 4)
  else none

end Opcode
end BlockGraph
