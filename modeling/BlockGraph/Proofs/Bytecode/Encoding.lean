import Mathlib.Algebra.Group.Nat.Defs
import BlockGraph.Proofs.Bytecode.Operands

/-!
# How instructions are written

A reference for the format of code, apart from the cursor that reads it: what an instruction says
(`Written`), the bytes that it is written as (`Written.bytes`), where it may stand (`Written.Fits`), and what
its operands mean (`Written.Uses`, `Written.Jumps`, `Written.distances?`). Numbers are written with the most
significant byte first (`spell`, `Bits`), and read back from where they stand (`Bits.read_eq`,
`Bits.bytesAt_read`).
-/

namespace BlockGraph

/-! ## Bytes in the code -/

/-- The bytes stand in the code from an address on. -/
def BytesAt (code : Array UInt8) (address : Nat) (bytes : List UInt8) : Prop :=
  bytes <+: code.toList.drop address

section
variable {code : Array UInt8} {address width n : Nat} {b : UInt8} {l l' : List UInt8}

@[simp] theorem bytesAt_nil : BytesAt code address [] := List.nil_prefix

theorem bytesAt_append :
    BytesAt code address (l ++ l') ↔ BytesAt code address l ∧ BytesAt code (address + l.length) l' := by
  unfold BytesAt
  rw [← List.drop_drop]
  generalize code.toList.drop address = m
  constructor
  · rintro ⟨rest, rfl⟩
    rw [List.append_assoc]
    exact ⟨List.prefix_append _ _, by rw [List.drop_left]; exact List.prefix_append _ _⟩
  · rintro ⟨⟨rest, rfl⟩, h⟩
    rw [List.drop_left] at h
    exact (List.prefix_append_right_inj l).2 h

theorem bytesAt_cons :
    BytesAt code address (b :: l) ↔ code[address]? = some b ∧ BytesAt code (address + 1) l := by
  have hhead : BytesAt code address [b] ↔ code[address]? = some b := by
    unfold BytesAt
    rw [← Array.getElem?_toList, ← List.head?_drop]
    cases code.toList.drop address with
    | nil => simp
    | cons x m => simp [eq_comm]
  rw [show b :: l = [b] ++ l from rfl, bytesAt_append, hhead]
  rfl

theorem BytesAt.le (h : BytesAt code address l) (hl : l ≠ []) : address + l.length ≤ code.size := by
  have hle := List.IsPrefix.length_le h
  rw [List.length_drop, code.length_toList] at hle
  have hpos := List.length_pos_iff.2 hl
  omega

theorem BytesAt.eq_take (h : BytesAt code address l) : l = (code.toList.drop address).take l.length :=
  List.prefix_iff_eq_take.1 h

/-! ## Numbers -/

/-- The lowest `width` bytes of a number, most significant byte first. -/
def spell : Nat → Nat → List UInt8
  | 0, _ => []
  | width + 1, n => spell width (n / 256) ++ [UInt8.ofNat n]

@[simp] theorem length_spell : ∀ {width n : Nat}, (spell width n).length = width
  | 0, _ => rfl
  | width + 1, n => by rw [spell, List.length_append, length_spell]; rfl

theorem bigEndian_of_bytesAt : ∀ {width n : Nat}, BytesAt code address (spell width n) →
    Cursor.bigEndian code address width = n % 256 ^ width := by
  intro width
  induction width with
  | zero => intro n _; simp [Cursor.bigEndian, Nat.mod_one]
  | succ width ih =>
    intro n h
    obtain ⟨hfront, hlast⟩ := bytesAt_append.1 h
    rw [length_spell, bytesAt_cons] at hlast
    have hbyte : (code.getD (address + width) 0).toNat = n % 256 := by
      rw [Array.getD_eq_getD_getElem?, hlast.1, Option.getD_some, UInt8.toNat_ofNat']
    rw [Cursor.bigEndian, ih hfront, hbyte, Nat.pow_succ', Nat.mod_mul]
    exact Nat.add_comm _ _

theorem bytesAt_spell_bigEndian : ∀ {width : Nat}, address + width ≤ code.size →
    BytesAt code address (spell width (Cursor.bigEndian code address width)) := by
  intro width
  induction width with
  | zero => intro _; exact bytesAt_nil
  | succ width ih =>
    intro hle
    have hbyte : code[address + width]? = some (code.getD (address + width) 0) := by
      rw [Array.getD_eq_getD_getElem?, Array.getElem?_eq_getElem (by omega), Option.getD_some]
    have hdiv : Cursor.bigEndian code address (width + 1) / 256 = Cursor.bigEndian code address width := by
      have := (code.getD (address + width) 0).toNat_lt
      rw [Cursor.bigEndian]
      omega
    have hlow : UInt8.ofNat (Cursor.bigEndian code address (width + 1)) =
        code.getD (address + width) 0 := by
      rw [Cursor.bigEndian]
      apply UInt8.toNat_inj.1
      rw [UInt8.toNat_ofNat', Nat.mul_add_mod]
      exact Nat.mod_eq_of_lt (UInt8.toNat_lt _)
    rw [spell, hdiv, hlow, bytesAt_append, length_spell, bytesAt_cons]
    exact ⟨ih (by omega), hbyte, bytesAt_nil⟩

end

/-- A number of `width` bytes. -/
abbrev Bits (width : Nat) := BitVec (8 * width)

namespace Bits

variable {code : Array UInt8} {address width : Nat} {x : Bits width} {c : Cursor}

/-- The bytes that a number is written as. -/
def bytes (x : Bits width) : List UInt8 := spell width x.toNat

/-- The number of `width` bytes that stands at an address. -/
def read (code : Array UInt8) (address : Nat) : Bits width :=
  BitVec.ofNat _ (Cursor.bigEndian code address width)

@[simp] theorem length_bytes : x.bytes.length = width := length_spell

theorem bigEndian_eq (h : BytesAt code address x.bytes) : Cursor.bigEndian code address width = x.toNat := by
  rw [bigEndian_of_bytesAt h]
  refine Nat.mod_eq_of_lt ?_
  have hlt := x.isLt
  rwa [Nat.pow_mul] at hlt

theorem read_eq (h : BytesAt code address x.bytes) : read code address = x := by
  rw [read, bigEndian_eq h, BitVec.ofNat_toNat, BitVec.setWidth_eq]

theorem bytesAt_read (h : address + width ≤ code.size) :
    BytesAt code address (read code address : Bits width).bytes := by
  have hspell := bytesAt_spell_bigEndian h
  have hlt : Cursor.bigEndian code address width < 2 ^ (8 * width) := by
    rw [Nat.pow_mul, bigEndian_of_bytesAt hspell]
    exact Nat.mod_lt _ (Nat.pow_pos (by decide))
  rw [bytes, read, BitVec.toNat_ofNat, Nat.mod_eq_of_lt hlt]
  exact hspell

theorem signed_eq : c.signed address width = (read c.code address : Bits width).toInt := by
  rw [Cursor.signed, read, BitVec.toInt_eq_toNat_bmod, BitVec.toNat_ofNat, Nat.one_shiftLeft,
    Int.natCast_emod, Int.emod_bmod]

theorem le_of_bytesAt (h : BytesAt code address x.bytes) (hwidth : 0 < width) :
    address + width ≤ code.size := by
  have hne : x.bytes ≠ [] := List.ne_nil_of_length_pos (by rw [length_bytes]; exact hwidth)
  simpa using h.le hne

theorem unsignedAt_eq (h : BytesAt c.code address x.bytes) (hwidth : 0 < width) :
    c.unsignedAt address width = .ok x.toNat := by
  rw [Cursor.unsignedAt, if_pos (le_of_bytesAt h hwidth), bigEndian_eq h]

theorem signedAt_eq (h : BytesAt c.code address x.bytes) (hwidth : 0 < width) :
    c.signedAt address width = .ok x.toInt := by
  rw [Cursor.signedAt_of_le (le_of_bytesAt h hwidth), signed_eq, read_eq h]

end Bits

/-! ## Rows -/

section
variable {α : Type} {code : Array UInt8} {f : α → List UInt8} {stride : Nat}

/-- Pieces of one length stand one after the other. -/
theorem bytesAt_flatMap (hf : ∀ x, (f x).length = stride) : ∀ {l : List α} {address : Nat},
    BytesAt code address (l.flatMap f) ↔
      ∀ k (h : k < l.length), BytesAt code (address + stride * k) (f l[k]) := by
  intro l
  induction l with
  | nil => intro address; simp
  | cons x l ih =>
    intro address
    rw [List.flatMap_cons, bytesAt_append, hf, ih]
    constructor
    · rintro ⟨hx, hl⟩ k hk
      cases k with
      | zero => exact hx
      | succ k =>
        rw [Nat.mul_succ, Nat.add_comm (stride * k), ← Nat.add_assoc]
        exact hl k (Nat.lt_of_succ_lt_succ hk)
    · intro h
      refine ⟨h 0 (Nat.succ_pos _), fun k hk => ?_⟩
      have hk' := h (k + 1) (Nat.succ_lt_succ hk)
      rwa [Nat.mul_succ, Nat.add_comm (stride * k), ← Nat.add_assoc] at hk'

theorem length_flatMap_of_length (hf : ∀ x, (f x).length = stride) (l : List α) :
    (l.flatMap f).length = stride * l.length := by
  simp [List.length_flatMap, hf, Nat.mul_comm]

end

/-! ## Opcodes -/

namespace Opcode

/-- The opcodes whose operands have a fixed number of bytes: runs of opcodes from a first to a last one,
with that number. -/
def runs : List (Opcode × Opcode × Nat) :=
  [(0x00, 0x0f, 0), (0x10, 0x10, 1), (0x11, 0x11, 2), (0x12, 0x12, 1), (0x13, 0x14, 2), (0x15, 0x19, 1),
   (0x1a, 0x35, 0), (0x36, 0x3a, 1), (0x3b, 0x83, 0), (0x84, 0x84, 2), (0x85, 0x98, 0), (0x99, 0xa8, 2),
   (0xa9, 0xa9, 1), (0xac, 0xb1, 0), (0xb2, 0xb8, 2), (0xb9, 0xba, 4), (0xbb, 0xbb, 2), (0xbc, 0xbc, 1),
   (0xbd, 0xbd, 2), (0xbe, 0xbf, 0), (0xc0, 0xc1, 2), (0xc2, 0xc3, 0), (0xc5, 0xc5, 3), (0xc6, 0xc7, 2),
   (0xc8, 0xc9, 4)]

/-- How many operand bytes follow the opcode, if that is fixed. -/
def operandCount? (op : Opcode) : Option Nat :=
  (runs.find? fun (first, last, _) => isBetween first last op).map fun (_, _, count) => count

/-- A `wide` in front of the opcode makes its operand two bytes: the loads, the stores and `ret`. -/
def Widens (op : Opcode) : Prop := 0x15 ≤ op ∧ op ≤ 0x19 ∨ 0x36 ≤ op ∧ op ≤ 0x3a ∨ op = 0xa9

instance (op : Opcode) : Decidable op.Widens :=
  inferInstanceAs (Decidable (0x15 ≤ op ∧ op ≤ 0x19 ∨ 0x36 ≤ op ∧ op ≤ 0x3a ∨ op = 0xa9))

theorem length_eq (op : Opcode) : op.length =
    match op.operandCount? with
    | some count => .fixed (count + 1)
    | none => if op = tableswitch ∨ op = lookupswitch ∨ op = wide then .variable else .illegal :=
  forall_of_ofNat (P := fun op => op.length = match op.operandCount? with
    | some count => .fixed (count + 1)
    | none => if op = tableswitch ∨ op = lookupswitch ∨ op = wide then .variable else .illegal)
    (by decide +kernel) op

/-- A short load or store names one of the first four locals in its opcode: five types, four opcodes each. -/
def NamesSlot (op : Opcode) (slot : Nat) : Prop :=
  slot < 4 ∧ ∃ type < 5, op.toNat = 0x1a + 4 * type + slot ∨ op.toNat = 0x3b + 4 * type + slot

/-- A branch, a jump or a call with an offset of two bytes. -/
def JumpsNear (op : Opcode) : Prop := 0x99 ≤ op ∧ op ≤ 0xa8 ∨ 0xc6 ≤ op ∧ op ≤ 0xc7

/-- A jump or a call with an offset of four bytes. -/
def JumpsFar (op : Opcode) : Prop := 0xc8 ≤ op ∧ op ≤ 0xc9

instance (op : Opcode) : Decidable op.JumpsNear :=
  inferInstanceAs (Decidable (0x99 ≤ op ∧ op ≤ 0xa8 ∨ 0xc6 ≤ op ∧ op ≤ 0xc7))

instance (op : Opcode) : Decidable op.JumpsFar := inferInstanceAs (Decidable (0xc8 ≤ op ∧ op ≤ 0xc9))

theorem ne_of_operandCount {op : Opcode} {count : Nat} (h : op.operandCount? = some count) :
    op ≠ wide ∧ op ≠ tableswitch ∧ op ≠ lookupswitch := by
  have hnone : ∀ other : Opcode, other.operandCount? = none → op ≠ other := by
    rintro other hother rfl
    rw [hother] at h
    cases h
  exact ⟨hnone _ (by decide), hnone _ (by decide), hnone _ (by decide)⟩

theorem Widens.ne_iinc {op : Opcode} (h : op.Widens) : op ≠ iinc := by
  rintro rfl
  exact absurd h (by decide)

theorem impliedSlot?_of_namesSlot {op : Opcode} {slot : Nat} (h : op.NamesSlot slot) :
    op.impliedSlot? = some slot := by
  obtain ⟨hslot, type, htype, hop⟩ := h
  exact forall_of_ofNat (P := fun op => ∀ slot < 4, ∀ type < 5,
    op.toNat = 0x1a + 4 * type + slot ∨ op.toNat = 0x3b + 4 * type + slot → op.impliedSlot? = some slot)
    (by decide +kernel) op slot hslot type htype hop

theorem impliedSlot?_of_operand {op : Opcode} (h : op.Widens ∨ op = iinc) : op.impliedSlot? = none :=
  forall_of_ofNat (P := fun op => op.Widens ∨ op = iinc → op.impliedSlot? = none) (by decide +kernel) op h

theorem far_of_jumpsNear {op : Opcode} (h : op.JumpsNear) : (op == gotoWide || op == jsrWide) = false :=
  forall_of_ofNat (P := fun op => op.JumpsNear → (op == gotoWide || op == jsrWide) = false)
    (by decide +kernel) op h

theorem far_of_jumpsFar {op : Opcode} (h : op.JumpsFar) : (op == gotoWide || op == jsrWide) = true :=
  forall_of_ofNat (P := fun op => op.JumpsFar → (op == gotoWide || op == jsrWide) = true)
    (by decide +kernel) op h

theorem wideLength?_eq {op : Opcode} :
    op.wideLength? = if op = iinc then some 6 else if op.Widens then some 4 else none :=
  forall_of_ofNat (P := fun op => op.wideLength? = if op = iinc then some 6
    else if op.Widens then some 4 else none) (by decide +kernel) op

end Opcode

/-! ## Instructions -/

/-- What an instruction says. -/
inductive Written where
  /-- An opcode with operands of a fixed length. -/
  | plain (op : Opcode) (operands : List UInt8)
  /-- A load, a store or a `ret` of a local with a large index. -/
  | wideLocal (op : Opcode) (slot : Bits 2)
  /-- An `iinc` with large operands. -/
  | wideIncrement (slot amount : Bits 2)
  /-- A `tableswitch`. -/
  | table (padding : List UInt8) (fallback low high : Bits 4) (offsets : List (Bits 4))
  /-- A `lookupswitch`, with the key and the offset of each case. -/
  | lookup (padding : List UInt8) (fallback : Bits 4) (pairs : List (Bits 4 × Bits 4))

namespace Written

/-- The bytes of a case of a `lookupswitch`. -/
def pairBytes (p : Bits 4 × Bits 4) : List UInt8 := p.1.bytes ++ p.2.bytes

/-- The number of cases of a `lookupswitch`. -/
def count (pairs : List (Bits 4 × Bits 4)) : Bits 4 := BitVec.ofNat _ pairs.length

/-- The bytes that an instruction is written as. -/
def bytes : Written → List UInt8
  | plain op operands => op :: operands
  | wideLocal op slot => Opcode.wide :: op :: slot.bytes
  | wideIncrement slot amount => Opcode.wide :: Opcode.iinc :: (slot.bytes ++ amount.bytes)
  | table padding fallback low high offsets =>
    Opcode.tableswitch :: (padding ++ (fallback.bytes ++ (low.bytes ++ (high.bytes ++
      offsets.flatMap Bits.bytes))))
  | lookup padding fallback pairs =>
    Opcode.lookupswitch :: (padding ++ (fallback.bytes ++ ((count pairs).bytes ++
      pairs.flatMap pairBytes)))

/-- Padding fills up the space between an opcode and the next multiple of four. -/
def Pads (bci : Nat) (padding : List UInt8) : Prop :=
  padding.length ≤ 3 ∧ 4 ∣ bci + 1 + padding.length

/-- The instruction may be written at an index. -/
def Fits (bci : Nat) : Written → Prop
  | plain op operands => op.operandCount? = some operands.length
  | wideLocal op _ => op.Widens
  | wideIncrement _ _ => True
  | table padding _ low high offsets =>
    Pads bci padding ∧ low.toInt ≤ high.toInt ∧ (offsets.length : Int) = high.toInt - low.toInt + 1
  | lookup padding _ pairs => Pads bci padding ∧ pairs.length < 2 ^ 31

instance (bci : Nat) (padding : List UInt8) : Decidable (Pads bci padding) :=
  inferInstanceAs (Decidable (padding.length ≤ 3 ∧ 4 ∣ bci + 1 + padding.length))

instance (bci : Nat) : ∀ w : Written, Decidable (w.Fits bci)
  | plain op operands => inferInstanceAs (Decidable (op.operandCount? = some operands.length))
  | wideLocal op _ => inferInstanceAs (Decidable op.Widens)
  | wideIncrement _ _ => inferInstanceAs (Decidable True)
  | table padding _ low high offsets =>
    inferInstanceAs (Decidable (Pads bci padding ∧ low.toInt ≤ high.toInt ∧
      (offsets.length : Int) = high.toInt - low.toInt + 1))
  | lookup padding _ pairs => inferInstanceAs (Decidable (Pads bci padding ∧ pairs.length < 2 ^ 31))

/-- The opcode, which for a widened instruction is that of what is widened. -/
def opcode : Written → Opcode
  | plain op _ | wideLocal op _ => op
  | wideIncrement _ _ => Opcode.iinc
  | table .. => Opcode.tableswitch
  | lookup .. => Opcode.lookupswitch

/-- Does the instruction start with a `wide`? -/
def isWide : Written → Bool
  | wideLocal .. | wideIncrement .. => true
  | plain .. | table .. | lookup .. => false

/-- The cursor that sits on an instruction. -/
def cursor (code : Array UInt8) (bci : Nat) (w : Written) : Cursor :=
  { code := code, position := bci, next := bci + w.bytes.length, opcode := w.opcode, wide := w.isWide }

/-! ## Operands -/

/-- The instruction is a load, a store, an `iinc` or a `ret` that works on that local. -/
def Uses (slot : Nat) : Written → Prop
  | plain op operands =>
    op.NamesSlot slot ∨ (op.Widens ∨ op = Opcode.iinc) ∧ ∃ b rest, operands = b :: rest ∧ b.toNat = slot
  | wideLocal _ x | wideIncrement x _ => x.toNat = slot
  | table .. | lookup .. => False

/-- The instruction is a branch, a jump or a call over that distance. -/
def Jumps (distance : Int) : Written → Prop
  | plain op operands =>
    (op.JumpsNear ∧ ∃ x : Bits 2, operands = x.bytes ∧ x.toInt = distance) ∨
      (op.JumpsFar ∧ ∃ x : Bits 4, operands = x.bytes ∧ x.toInt = distance)
  | wideLocal .. | wideIncrement .. | table .. | lookup .. => False

/-- How far away the default target of a switch is, and the target of each case in code order. -/
def distances? : Written → Option (Int × List Int)
  | table _ fallback _ _ offsets => some (fallback.toInt, offsets.map BitVec.toInt)
  | lookup _ fallback pairs => some (fallback.toInt, pairs.map fun p => p.2.toInt)
  | plain .. | wideLocal .. | wideIncrement .. => none

/-- The index at a distance from an instruction. It is refused, in the name of the instruction, if it does
not lie in the code. -/
def reach (code : Array UInt8) (bci : Nat) (distance : Int) : Except Fault Nat :=
  if 0 ≤ bci + distance ∧ bci + distance < code.size then .ok (bci + distance).toNat
  else .error (.malformed bci (.targetOutside (bci + distance)))

end Written

end BlockGraph
