import BlockGraph.Bytecode.Opcode
import BlockGraph.Fault

/-!
# Cursors

A cursor sits on one instruction of a method's code. It knows the opcode of that instruction,
whether the instruction is widened, and where the next one starts; operands are read relative to
it. A `wide` belongs to the instruction that it widens: the opcode is that of the widened
instruction, and the position is that of the `wide`.

`moveTo_ok_iff` says what a successful move leaves behind.
-/

namespace BlockGraph

/-- A position in the code, with what is known of the instruction there (`BytecodeStream`). -/
structure Cursor where
  code : Array UInt8
  position : Nat := 0
  next : Nat := 0
  opcode : Opcode := Opcode.nop
  wide : Bool := false
deriving DecidableEq, Repr

namespace Cursor

/-- A cursor before the first instruction (`BytecodeStream::new`). -/
def ofCode (code : Array UInt8) : Cursor := { code := code }

/-- A fault of the instruction under the cursor (`Error::malformed`). -/
def malformed (c : Cursor) (what : Malformation) : Fault := .malformed c.position what

/-! ## Operands -/

/-- The number spelled by the `width` bytes from `address` on, most significant byte first. -/
def bigEndian (code : Array UInt8) (address : Nat) : Nat → Nat
  | 0 => 0
  | width + 1 => 256 * bigEndian code address width + (code.getD (address + width) 0).toNat

/-- The unsigned number of `width` bytes at an address of the code (`BytecodeStream::bytes_at`). -/
def unsignedAt (c : Cursor) (address width : Nat) : Except Fault Nat :=
  if address + width ≤ c.code.size then .ok (bigEndian c.code address width)
  else .error (c.malformed .operandPastEnd)

/-- The two's complement number of `width` bytes at an address of the code (`BytecodeStream::read_s4_at`). -/
def signedAt (c : Cursor) (address width : Nat) : Except Fault Int :=
  (c.unsignedAt address width).map fun n => (n : Int).bmod (1 <<< (8 * width))

/-- Where an operand lies. Addresses are 64-bit words, so the sum wraps around. -/
def operandAddress (c : Cursor) (offset : Nat) : Nat :=
  (c.position + offset) % 0x10000000000000000

/-- The unsigned operand of `width` bytes, `offset` bytes after the start of the instruction
(`BytecodeStream::read_u1`, `read_u2`). -/
def readUnsigned (c : Cursor) (offset width : Nat) : Except Fault Nat :=
  c.unsignedAt (c.operandAddress offset) width

/-- The signed operand of `width` bytes, `offset` bytes after the start of the instruction
(`BytecodeStream::read_s2`, `read_s4`). -/
def readSigned (c : Cursor) (offset width : Nat) : Except Fault Int :=
  c.signedAt (c.operandAddress offset) width

/-- The local variable that a load, a store, an `iinc` or a `ret` works on (`BytecodeStream::local_index`). -/
def localSlot (c : Cursor) : Except Fault Nat :=
  match c.opcode.impliedSlot? with
  | some slot => .ok slot
  | none => if c.wide then c.unsignedAt (c.position + 2) 2 else c.unsignedAt (c.position + 1) 1

/-! ## Targets -/

/-- The index that lies `offset` bytes from the instruction, if it is one of the code
(`BytecodeStream::relative_target`). -/
def targetOf (c : Cursor) (offset : Int) : Except Fault Nat :=
  let target := (c.position : Int) + offset
  if 0 ≤ target ∧ target < c.code.size then .ok target.toNat
  else .error (c.malformed (.targetOutside target))

/-- The target whose four-byte offset is stored at an address. -/
def targetAt (c : Cursor) (address : Nat) : Except Fault Nat :=
  c.signedAt address 4 >>= c.targetOf

/-- Where a jump, a two-way branch or a subroutine call leads (`BytecodeStream::branch_dest`). -/
def branchTarget (c : Cursor) : Except Fault Nat :=
  let width := if c.opcode == Opcode.gotoWide || c.opcode == Opcode.jsrWide then 4 else 2
  c.signedAt (c.position + 1) width >>= c.targetOf

/-- The operands of a switch start at the first multiple of four after its opcode
(`BytecodeStream::switch_operands_start`). -/
def switchBase (c : Cursor) : Nat := (c.position + 4) / 4 * 4

/-- The targets whose offsets are stored at `address`, `address + stride`, … -/
def targetsFrom (c : Cursor) (address stride : Nat) : Nat → Except Fault (List Nat)
  | 0 => .ok []
  | count + 1 => do
    let target ← c.targetAt address
    let rest ← c.targetsFrom (address + stride) stride count
    return target :: rest

/-- A count is an unsigned 64-bit word: a negative one is longer than any code. -/
def wordCount (count : Int) : Nat := (count % 0x10000000000000000).toNat

/-- The default target of a switch, and the target of each case in code order
(`BytecodeStream::switch_targets`). -/
def jumpTable (c : Cursor) : Except Fault (Nat × List Nat) := do
  let base := c.switchBase
  let fallback ← c.targetAt base
  if c.opcode == Opcode.tableswitch then
    let low ← c.signedAt (base + 4) 4
    let high ← c.signedAt (base + 8) 4
    return (fallback, ← c.targetsFrom (base + 12) 4 (wordCount (high - low + 1)))
  else if c.opcode == Opcode.lookupswitch then
    let pairs ← c.signedAt (base + 4) 4
    return (fallback, ← c.targetsFrom (base + 12) 8 (wordCount pairs))
  else
    throw (c.malformed (.notASwitch c.opcode))

/-- Every index that the instruction names as a target. -/
def targets (c : Cursor) : Except Fault (List Nat) :=
  match c.opcode.flow with
  | .branch | .goto | .jsr => c.branchTarget.map ([·])
  | .switch => c.jumpTable.map fun (fallback, cases) => fallback :: cases
  | .next | .ret | .leave | .throw => .ok []

/-! ## Moving -/

/-- Length of a switch, from its bounds or its number of pairs (`BytecodeStream::instruction_length`). -/
def switchLength (c : Cursor) : Except Fault Nat := do
  let base := c.switchBase
  if c.opcode == Opcode.tableswitch then
    let low ← c.signedAt (base + 4) 4
    let high ← c.signedAt (base + 8) 4
    if high < low then throw (c.malformed .emptyTable)
    return base + 12 + 4 * (high - low + 1).toNat - c.position
  else
    let pairs ← c.signedAt (base + 4) 4
    if pairs < 0 then throw (c.malformed .negativePairs)
    return base + 8 + 8 * pairs.toNat - c.position

/-- Length of the instruction under the cursor (`BytecodeStream::instruction_length`). -/
def length (c : Cursor) : Except Fault Nat :=
  if c.wide then
    match c.opcode.wideLength? with
    | some n => .ok n
    | none => .error (c.malformed (.notWidened c.opcode))
  else
    match c.opcode.length with
    | .fixed n => .ok n
    | .variable => c.switchLength
    | .illegal => .error (c.malformed (.illegalOpcode c.opcode))

/-- The opcode of the instruction that starts with byte `first` at `bci`, and whether it is
widened; nothing if the code ends after a `wide`. -/
def opcodeAt? (code : Array UInt8) (bci : Nat) (first : UInt8) : Option (Opcode × Bool) :=
  if first == Opcode.wide then (code[bci + 1]?).map (·, true) else some (first, false)

/-- Moves to the instruction at `bci` and answers its opcode (`BytecodeStream::seek`). A cursor that cannot
go there keeps what it had found out by then: nothing when the index is past the end, the position when a
`wide` is cut off, all but the next index when the length cannot be told. -/
def moveTo (bci : Nat) : EStateM Fault Cursor Opcode := fun c =>
  match c.code[bci]? with
  | none => .error (.malformed bci .pastEnd) c
  | some first =>
    let c := { c with position := bci }
    match opcodeAt? c.code bci first with
    | none => .error (c.malformed .truncatedWide) c
    | some (opcode, wide) =>
      let c := { c with opcode := opcode, wide := wide }
      match c.length with
      | .error fault => .error fault c
      | .ok n =>
        let c := { c with next := bci + n }
        if c.next ≤ c.code.size then .ok opcode c else .error (c.malformed .truncated) c

/-- Moves to the next instruction and answers its opcode (`BytecodeStream::next`). At the end of the code
there is none, and the cursor rests there. -/
def advance : EStateM Fault Cursor (Option Opcode) := fun c =>
  if c.next < c.code.size then (some <$> moveTo c.next) c
  else .ok none { c with position := c.next }

/-! ## What a move leaves behind -/

theorem pos_of_switchLength {c : Cursor} {n : Nat} (h : c.switchLength = .ok n) : 0 < n := by
  have base : c.position < c.switchBase + 1 := by unfold switchBase; omega
  simp only [switchLength, bind, Except.bind, pure, Except.pure, throw, throwThe,
    MonadExceptOf.throw] at h
  repeat' split at h
  all_goals cases h
  all_goals omega

theorem pos_of_length {c : Cursor} {n : Nat} (h : c.length = .ok n) : 0 < n := by
  unfold length at h
  split at h
  · split at h
    · rename_i hn; cases h; exact Opcode.pos_of_wideLength? hn
    · cases h
  · split at h
    · rename_i hn; cases h; exact Opcode.pos_of_length hn
    · exact pos_of_switchLength h
    · cases h

/-- A move succeeds on an instruction that lies in the code as a whole, and then the cursor shows
that instruction. -/
theorem moveTo_ok_iff {c d : Cursor} {bci : Nat} {op : Opcode} :
    moveTo bci c = .ok op d ↔
      ∃ first wide n, c.code[bci]? = some first ∧
        opcodeAt? c.code bci first = some (op, wide) ∧
        Cursor.length { c with position := bci, opcode := op, wide := wide } = .ok n ∧
        bci + n ≤ c.code.size ∧
        d = { c with position := bci, opcode := op, wide := wide, next := bci + n } := by
  unfold moveTo
  cases hf : c.code[bci]? with
  | none => simp
  | some first =>
    cases ho : opcodeAt? c.code bci first with
    | none => simp [ho]
    | some p =>
      obtain ⟨opcode, wide⟩ := p
      simp only [ho, Option.some.injEq, exists_and_left, exists_eq_left', Prod.mk.injEq]
      cases hl : Cursor.length { c with position := bci, opcode := opcode, wide := wide } with
      | error fault =>
        constructor
        · intro h; cases h
        · rintro ⟨w, ⟨rfl, rfl⟩, n, hn, -⟩; rw [hl] at hn; cases hn
      | ok n =>
        simp only
        split
        · rename_i hle
          constructor
          · intro h; cases h; exact ⟨wide, ⟨rfl, rfl⟩, n, hl, hle, rfl⟩
          · rintro ⟨w, ⟨rfl, rfl⟩, m, hm, -, rfl⟩
            rw [hl] at hm; cases hm; rfl
        · rename_i hle
          constructor
          · intro h; cases h
          · rintro ⟨w, ⟨rfl, rfl⟩, m, hm, hsize, -⟩
            rw [hl] at hm; cases hm; exact absurd hsize hle

/-- After a successful move the next index lies beyond the position and not past the end. -/
theorem moveTo_progress {c d : Cursor} {bci : Nat} {op : Opcode} (h : moveTo bci c = .ok op d) :
    d.code = c.code ∧ d.position = bci ∧ d.opcode = op ∧ bci < d.next ∧
      d.next ≤ c.code.size := by
  obtain ⟨_, _, n, -, -, hn, hle, rfl⟩ := moveTo_ok_iff.1 h
  exact ⟨rfl, rfl, rfl, Nat.lt_add_of_pos_right (pos_of_length hn), hle⟩

/-- A cursor that advances comes to the next index. -/
theorem position_of_advance {c d : Cursor} {op : Opcode} (h : advance c = .ok (some op) d) :
    d.position = c.next := by
  unfold advance at h
  split at h
  · simp only [Functor.map, EStateM.map] at h
    cases hmove : moveTo c.next c with
    | error fault d' => rw [hmove] at h; cases h
    | ok opcode d' =>
      rw [hmove] at h
      cases h
      exact (moveTo_progress hmove).2.1
  · cases h

end Cursor
end BlockGraph
