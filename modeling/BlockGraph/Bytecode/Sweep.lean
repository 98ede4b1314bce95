import BlockGraph.Bytecode.Cursor

/-!
# The linear sweep

Code is read from its first byte on, one instruction after the other, until it is used up. For
each instruction the sweep notes where control can go from it.
-/

namespace BlockGraph

/-- An instruction of the sweep (`InstructionExits`). -/
structure Insn where
  /-- Index of its first byte. -/
  bci : Nat
  /-- Index of the byte after its last one. -/
  next : Nat
  opcode : Opcode
  wide : Bool
  /-- Every index that it names as a target, in code order. -/
  targets : List Nat
deriving DecidableEq, Repr

namespace Insn

/-- Where control goes after the instruction. -/
def flow (i : Insn) : Opcode.Flow := i.opcode.flow

/-- Can control reach the next instruction? -/
def fallsThrough (i : Insn) : Bool := i.flow.fallsThrough

/-- Must a block start after the instruction? -/
def endsBlock (i : Insn) : Bool := i.flow.endsBlock

/-- The instruction at an index (a turn of the first pass of `BlockMap::build`). It is refused if it cannot
be decoded, if it leads out of the code, or if control can run past the end of the code from it. -/
def read (code : Array UInt8) (bci : Nat) : Except Fault Insn :=
  match Cursor.moveTo bci (.ofCode code) with
  | .error fault _ => .error fault
  | .ok opcode c =>
    match c.targets with
    | .error fault => .error fault
    | .ok targets =>
      if opcode.flow.fallsThrough ∧ code.size ≤ c.next then .error (.malformed bci .fallsOff)
      else .ok { bci := bci, next := c.next, opcode := opcode, wide := c.wide, targets := targets }

/-- An instruction lies in the code and is not empty. -/
theorem bounds_of_read {code : Array UInt8} {bci : Nat} {i : Insn} (h : read code bci = .ok i) :
    i.bci = bci ∧ bci < i.next ∧ i.next ≤ code.size := by
  unfold read at h
  split at h
  · cases h
  · rename_i hmove
    have hp := Cursor.moveTo_progress hmove
    split at h
    · cases h
    · split at h
      · cases h
      · cases h; exact ⟨rfl, hp.2.2.2.1, hp.2.2.2.2⟩

/-- The instructions from an index to the end of the code. -/
def sweepFrom (code : Array UInt8) (bci : Nat) : Except Fault (List Insn) :=
  match _h : read code bci with
  | .error fault => .error fault
  | .ok i => if i.next < code.size then (sweepFrom code i.next).map (i :: ·) else .ok [i]
termination_by code.size - bci
decreasing_by have := bounds_of_read _h; omega

/-- All instructions of the code (the first pass of `BlockMap::build`). -/
def sweep (code : Array UInt8) : Except Fault (List Insn) := sweepFrom code 0

end Insn
end BlockGraph
