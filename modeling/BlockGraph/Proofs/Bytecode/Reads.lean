import BlockGraph.Proofs.Bytecode.Encoding

/-!
# Where operands are read

A read of an operand answers the number that stands at an address of the code, or is refused if not all of its
bytes lie in the code (`Cursor.Reads`). The address is the sum of the position of the cursor and a distance, as
a word. Wherever moves have brought a cursor, failed ones too, its position is far below the greatest word, so
that the sum wraps around only for distances near that word; the read then starts before the instruction. Main
statement: `reads_of_moves`.
-/

namespace BlockGraph

/-! ## Lengths -/

/-- No instruction is longer than this: the longest is a switch, with four bytes for each of `2 ^ 32` cases. -/
def longestInstr : Nat := 16 + 4 * 0x100000000

namespace Opcode

variable {op : Opcode} {n : Nat}

theorem le_of_length (h : op.length = .fixed n) : n ≤ 5 := by
  unfold length at h
  repeat' split at h
  all_goals cases h
  all_goals decide

theorem le_of_wideLength? (h : op.wideLength? = some n) : n ≤ 6 := by
  unfold wideLength? at h
  repeat' split at h
  all_goals cases h
  all_goals decide

end Opcode

namespace Cursor

variable {c d : Cursor} {code : Array UInt8} {n offset width : Nat}

theorem le_of_switchLength (h : c.switchLength = .ok n) : n ≤ longestInstr := by
  have hbase : c.switchBase ≤ c.position + 4 := by unfold switchBase; omega
  have hfirst := c.signed_bounds (c.switchBase + 4)
  have hsecond := c.signed_bounds (c.switchBase + 8)
  unfold longestInstr
  unfold switchLength at h
  split at h
  · simp only [bind_ok_iff] at h
    obtain ⟨low, hlow, high, hhigh, h⟩ := h
    rw [← (eq_signed_of_signedAt hlow).2] at hfirst
    rw [← (eq_signed_of_signedAt hhigh).2] at hsecond
    split at h <;> cases h
    omega
  · simp only [bind_ok_iff] at h
    obtain ⟨pairs, hpairs, h⟩ := h
    rw [← (eq_signed_of_signedAt hpairs).2] at hfirst
    split at h <;> cases h
    omega

theorem le_of_length (h : c.length = .ok n) : n ≤ longestInstr := by
  have hfixed : ∀ k ≤ 6, k ≤ longestInstr := fun k hk => Nat.le_trans hk (by decide)
  unfold length at h
  split at h
  · split at h
    · rename_i hn
      cases h
      exact hfixed n (Opcode.le_of_wideLength? hn)
    · cases h
  · split at h
    · rename_i hn
      cases h
      exact hfixed n (Nat.le_succ_of_le (Opcode.le_of_length hn))
    · exact le_of_switchLength h
    · cases h

/-! ## Moves -/

/-- A way to move a cursor. -/
inductive Move where
  | moveTo (bci : Nat)
  | advance
deriving DecidableEq, Repr

/-- What is left of an outcome when its answer or its fault is dropped. -/
def leftBy {α : Type} : EStateM.Result Fault Cursor α → Cursor
  | .ok _ d | .error _ d => d

/-- The cursor after a move, also after one that fails. -/
def after (c : Cursor) : Move → Cursor
  | .moveTo bci => leftBy (moveTo bci c)
  | .advance => leftBy (advance c)

/-- A cursor in the code whose position and next index are at most one instruction past its end. -/
structure Near (code : Array UInt8) (c : Cursor) : Prop where
  eq : c.code = code
  position : c.position ≤ code.size + longestInstr
  next : c.next ≤ code.size + longestInstr

namespace Near

theorem ofCode (code : Array UInt8) : Near code (.ofCode code) := ⟨rfl, Nat.zero_le _, Nat.zero_le _⟩

theorem moveTo (h : Near code c) (bci : Nat) : Near code (leftBy (moveTo bci c)) := by
  unfold Cursor.moveTo
  cases hfirst : c.code[bci]? with
  | none => exact h
  | some first =>
    have hlt : bci < code.size := h.eq ▸ (Array.getElem?_eq_some_iff.1 hfirst).1
    have hposition : bci ≤ code.size + longestInstr := Nat.le_add_right_of_le (Nat.le_of_lt hlt)
    simp only
    cases opcodeAt? c.code bci first with
    | none => exact ⟨h.eq, hposition, h.next⟩
    | some found =>
      obtain ⟨opcode, wide⟩ := found
      simp only
      cases hlength : Cursor.length { c with position := bci, opcode := opcode, wide := wide } with
      | error fault => exact ⟨h.eq, hposition, h.next⟩
      | ok n =>
        have hnext : bci + n ≤ code.size + longestInstr :=
          Nat.add_le_add (Nat.le_of_lt hlt) (le_of_length hlength)
        simp only
        split <;> exact ⟨h.eq, hposition, hnext⟩

theorem advance (h : Near code c) : Near code (leftBy (advance c)) := by
  unfold Cursor.advance
  split
  · have hmove := h.moveTo c.next
    simp only [Functor.map, EStateM.map]
    cases hresult : Cursor.moveTo c.next c <;> rw [hresult] at hmove <;> exact hmove
  · exact ⟨h.eq, h.next, h.next⟩

theorem after (h : Near code c) : ∀ x : Move, Near code (c.after x)
  | .moveTo bci => h.moveTo bci
  | .advance => h.advance

theorem foldl (h : Near code c) (moves : List Move) : Near code (moves.foldl Cursor.after c) := by
  induction moves generalizing c with
  | nil => exact h
  | cons x moves ih => exact ih (h.after x)

end Near

/-! ## Reads -/

/-- What is read at a distance from the instruction: the number of `width` bytes that stands at the address, if
all of its bytes lie in the code, and nothing else. -/
structure Reads (c : Cursor) (offset address width : Nat) : Prop where
  within : address + width ≤ c.code.size → ∃ x : Bits width, BytesAt c.code address x.bytes ∧
    c.readUnsigned offset width = .ok x.toNat ∧ c.readSigned offset width = .ok x.toInt
  past : c.code.size < address + width →
    c.readUnsigned offset width = .error (.malformed c.position .operandPastEnd) ∧
      c.readSigned offset width = .error (.malformed c.position .operandPastEnd)

theorem reads_operandAddress (hwidth : 0 < width) : c.Reads offset (c.operandAddress offset) width where
  within hle :=
    have hbytes := Bits.bytesAt_read hle
    ⟨_, hbytes, Bits.unsignedAt_eq hbytes hwidth, Bits.signedAt_eq hbytes hwidth⟩
  past hlt := by
    have hrefused : c.unsignedAt (c.operandAddress offset) width =
        .error (.malformed c.position .operandPastEnd) := if_neg (Nat.not_le.2 hlt)
    refine ⟨hrefused, ?_⟩
    unfold readSigned signedAt
    rw [hrefused]
    rfl

/-- **Operands are read where they stand, as long as the address does not wrap around.** Take the code of any
method and move a cursor in it as you like. At a distance that is a word it reads the bytes so far from its
position, or it refuses to read past the end of the code; but where position and distance add up to more than a
word, the bytes that it reads begin before the instruction. -/
theorem reads_of_moves (hcode : code.size < 0x8000000000000000) (moves : List Move)
    (hoffset : offset < 0x10000000000000000) (hwidth : 0 < width) :
    let c := moves.foldl after (.ofCode code)
    c.code = code ∧
      if c.position + offset < 0x10000000000000000 then c.Reads offset (c.position + offset) width
      else ∃ address < c.position,
        address + 0x10000000000000000 = c.position + offset ∧ c.Reads offset address width := by
  intro c
  have hnear : Near code c := (Near.ofCode code).foldl moves
  have hposition : c.position < 0x10000000000000000 := by
    have hle := hnear.position
    unfold longestInstr at hle
    omega
  have hreads : c.Reads offset (c.operandAddress offset) width := reads_operandAddress hwidth
  unfold operandAddress at hreads
  refine ⟨hnear.eq, ?_⟩
  split
  · rename_i hlt
    rwa [Nat.mod_eq_of_lt hlt] at hreads
  · rename_i hge
    have hmod : (c.position + offset) % 0x10000000000000000 = c.position + offset - 0x10000000000000000 := by
      omega
    refine ⟨_, ?_, ?_, hmod ▸ hreads⟩ <;> omega

/-- At a `wide` that is cut off a cursor reads its only byte, is refused past the end of the code, and at the
greatest distance reads the byte before that one. -/
theorem truncatedWide_reads :
    let c := [Move.advance, .moveTo 2].foldl after (.ofCode #[0x10, 0xff, 0xc4])
    c.position = 2 ∧ c.Reads 0 2 1 ∧ c.Reads 1 3 2 ∧ c.Reads 0xffffffffffffffff 1 1 := by
  have hsize : (#[0x10, 0xff, 0xc4] : Array UInt8).size < 0x8000000000000000 := by decide
  have hmoves (offset width : Nat) (hoffset : offset < 0x10000000000000000) (hwidth : 0 < width) :=
    reads_of_moves hsize [.advance, .moveTo 2] hoffset hwidth
  have hposition : ([Move.advance, .moveTo 2].foldl after (.ofCode #[0x10, 0xff, 0xc4])).position = 2 := by
    decide
  refine ⟨hposition, (hmoves 0 1 (by decide) (by decide)).2, (hmoves 1 2 (by decide) (by decide)).2, ?_⟩
  obtain ⟨address, -, heq, hreads⟩ := (hmoves 0xffffffffffffffff 1 (by decide) (by decide)).2
  rw [hposition] at heq
  obtain rfl : address = 1 := by omega
  exact hreads

/-- With the greatest word as the distance a byte is read although it stands before the instruction. -/
theorem read_before_instruction : ¬ ∀ (code : Array UInt8) (moves : List Move) (offset : Nat),
    code.size < 0x8000000000000000 → offset < 0x10000000000000000 →
      let c := moves.foldl after (.ofCode code)
      ((∃ n, c.readUnsigned offset 1 = .ok n) ↔ c.position + offset + 1 ≤ code.size) := by
  intro h
  have hread := (h #[0x00, 0x01] [.moveTo 1] 0xffffffffffffffff (by decide) (by decide)).1 ⟨0, by decide⟩
  exact absurd hread (by decide)

end Cursor
end BlockGraph
