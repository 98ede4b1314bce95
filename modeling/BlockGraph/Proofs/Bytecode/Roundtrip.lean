import BlockGraph.Proofs.Bytecode.Encoding

/-!
# Reading back what is written

A cursor that shows a written instruction (`Cursor.Shows`) sits on it (`Shows.sits`) and reads it back
(`Shows.written_eq`); one that sits on an instruction shows what it reads there (`Sits.shows`). So a cursor can
move to an index just when an instruction is written there (`moveTo_ok_iff_shows`), and its operands are those
that were written (`Shows.localSlot_eq`, `Shows.branchTarget_eq`, `Shows.jumpTable_eq`).
-/

namespace BlockGraph

variable {code : Array UInt8} {bci base : Nat} {w : Written}

/-! ## Instructions under a cursor -/

namespace Cursor

/-- The cursor sits on an instruction that lies in the code as a whole. -/
structure Sits (c : Cursor) : Prop where
  opcodeAt : ∃ first, c.code[c.position]? = some first ∧
    opcodeAt? c.code c.position first = some (c.opcode, c.wide)
  length : ∃ n, c.length = .ok n ∧ c.next = c.position + n
  le : c.next ≤ c.code.size

theorem moveTo_ok_iff_sits {c d : Cursor} {op : Opcode} :
    moveTo bci c = .ok op d ↔ d.Sits ∧ d.code = c.code ∧ d.position = bci ∧ d.opcode = op := by
  rw [moveTo_ok_iff]
  constructor
  · rintro ⟨first, wide, n, hfirst, hopcode, hlength, hle, rfl⟩
    exact ⟨⟨⟨first, hfirst, hopcode⟩, ⟨n, hlength, rfl⟩, hle⟩, rfl, rfl, rfl⟩
  · rintro ⟨⟨⟨first, hfirst, hopcode⟩, ⟨n, hlength, hnext⟩, hle⟩, hcode, rfl, rfl⟩
    cases c
    cases d
    simp only at hcode hnext hle
    subst hcode hnext
    exact ⟨first, _, n, hfirst, hopcode, hlength, hle, rfl⟩

/-- That many bytes of the code, from an address on. -/
def slice (c : Cursor) (address count : Nat) : List UInt8 := (c.code.toList.drop address).take count

/-- The instruction under the cursor, as its bytes spell it. -/
def written (c : Cursor) : Written :=
  let base := c.switchBase
  if c.wide then
    if c.opcode = Opcode.iinc then
      .wideIncrement (.read c.code (c.position + 2)) (.read c.code (c.position + 4))
    else .wideLocal c.opcode (.read c.code (c.position + 2))
  else if c.opcode = Opcode.tableswitch then
    .table (c.slice (c.position + 1) (base - (c.position + 1))) (.read c.code base)
      (.read c.code (base + 4)) (.read c.code (base + 8))
      ((List.range (c.signed (base + 8) 4 - c.signed (base + 4) 4 + 1).toNat).map fun k =>
        .read c.code (base + 12 + 4 * k))
  else if c.opcode = Opcode.lookupswitch then
    .lookup (c.slice (c.position + 1) (base - (c.position + 1))) (.read c.code base)
      ((List.range (c.signed (base + 4) 4).toNat).map fun k =>
        (.read c.code (base + 8 + 8 * k), .read c.code (base + 12 + 8 * k)))
  else .plain c.opcode (c.slice (c.position + 1) (c.next - (c.position + 1)))

section
variable {c : Cursor} {low high pairs : Int}

theorem length_of_table (hwide : c.wide = false) (hop : c.opcode = Opcode.tableswitch)
    (hlow : c.signedAt (c.switchBase + 4) 4 = .ok low) (hhigh : c.signedAt (c.switchBase + 8) 4 = .ok high)
    (hle : low ≤ high) :
    c.length = .ok (c.switchBase + 12 + 4 * (high - low + 1).toNat - c.position) := by
  have hvariable : Opcode.tableswitch.length = .variable := by decide
  simp [length, hwide, hop, hvariable, switchLength, hlow, hhigh, bind, Except.bind, pure, Except.pure,
    Int.not_lt.2 hle]

theorem length_of_pairs (hwide : c.wide = false) (hop : c.opcode = Opcode.lookupswitch)
    (hpairs : c.signedAt (c.switchBase + 4) 4 = .ok pairs) (hle : 0 ≤ pairs) :
    c.length = .ok (c.switchBase + 8 + 8 * pairs.toNat - c.position) := by
  have hvariable : Opcode.lookupswitch.length = .variable := by decide
  have htable : (Opcode.lookupswitch == Opcode.tableswitch) = false := by decide
  simp [length, hwide, hop, hvariable, htable, switchLength, hpairs, bind, Except.bind, pure, Except.pure,
    Int.not_lt.2 hle]

end

end Cursor

/-! ## Where the operands stand -/

namespace Written

section
variable {op : Opcode} {operands padding : List UInt8} {slot amount : Bits 2}
  {fallback low high : Bits 4} {offsets : List (Bits 4)} {pairs : List (Bits 4 × Bits 4)}

theorem pads_iff : Pads bci padding ↔ padding.length = (bci + 4) / 4 * 4 - (bci + 1) := by
  unfold Pads
  omega

theorem bytesAt_wideLocal : BytesAt code bci (wideLocal op slot).bytes ↔
    code[bci]? = some Opcode.wide ∧ code[bci + 1]? = some op ∧ BytesAt code (bci + 2) slot.bytes := by
  rw [bytes, bytesAt_cons, bytesAt_cons]

theorem bytesAt_wideIncrement : BytesAt code bci (wideIncrement slot amount).bytes ↔
    code[bci]? = some Opcode.wide ∧ code[bci + 1]? = some Opcode.iinc ∧
      BytesAt code (bci + 2) slot.bytes ∧ BytesAt code (bci + 4) amount.bytes := by
  rw [bytes, bytesAt_cons, bytesAt_cons, bytesAt_append, Bits.length_bytes]

theorem bytesAt_table (hbase : base = bci + 1 + padding.length) :
    BytesAt code bci (table padding fallback low high offsets).bytes ↔
      code[bci]? = some Opcode.tableswitch ∧ BytesAt code (bci + 1) padding ∧
        BytesAt code base fallback.bytes ∧ BytesAt code (base + 4) low.bytes ∧
        BytesAt code (base + 8) high.bytes ∧
        ∀ k (h : k < offsets.length), BytesAt code (base + 12 + 4 * k) offsets[k].bytes := by
  subst hbase
  rw [bytes, bytesAt_cons, bytesAt_append, bytesAt_append, bytesAt_append, bytesAt_append,
    Bits.length_bytes, Bits.length_bytes, Bits.length_bytes, bytesAt_flatMap fun _ => Bits.length_bytes]

theorem length_pairBytes (p : Bits 4 × Bits 4) : (pairBytes p).length = 8 := by simp [pairBytes]

theorem bytesAt_lookup (hbase : base = bci + 1 + padding.length) :
    BytesAt code bci (lookup padding fallback pairs).bytes ↔
      code[bci]? = some Opcode.lookupswitch ∧ BytesAt code (bci + 1) padding ∧
        BytesAt code base fallback.bytes ∧ BytesAt code (base + 4) (count pairs).bytes ∧
        ∀ k (h : k < pairs.length), BytesAt code (base + 8 + 8 * k) pairs[k].1.bytes ∧
          BytesAt code (base + 12 + 8 * k) pairs[k].2.bytes := by
  subst hbase
  have hpair : ∀ address (p : Bits 4 × Bits 4), BytesAt code address (pairBytes p) ↔
      BytesAt code address p.1.bytes ∧ BytesAt code (address + 4) p.2.bytes := by
    intro address p
    rw [pairBytes, bytesAt_append, Bits.length_bytes]
  have haddress : ∀ base k, base + 12 + 8 * k = base + 8 + 8 * k + 4 := by omega
  rw [bytes, bytesAt_cons, bytesAt_append, bytesAt_append, bytesAt_append, Bits.length_bytes,
    Bits.length_bytes, bytesAt_flatMap length_pairBytes]
  simp only [hpair, haddress]

theorem length_bytes_table :
    (table padding fallback low high offsets).bytes.length = padding.length + 13 + 4 * offsets.length := by
  simp only [bytes, List.length_cons, List.length_append, Bits.length_bytes,
    length_flatMap_of_length (fun _ => Bits.length_bytes)]
  omega

theorem length_bytes_lookup :
    (lookup padding fallback pairs).bytes.length = padding.length + 9 + 8 * pairs.length := by
  simp only [bytes, List.length_cons, List.length_append, Bits.length_bytes,
    length_flatMap_of_length length_pairBytes]
  omega

theorem toInt_count (h : pairs.length < 2 ^ 31) : (count pairs).toInt = pairs.length := by
  have hnat : (count pairs).toNat = pairs.length := Nat.mod_eq_of_lt (by omega)
  rw [BitVec.toInt_eq_toNat_of_lt (by rw [hnat]; omega), hnat]

end

theorem bytes_ne_nil : w.bytes ≠ [] := by cases w <;> exact List.cons_ne_nil _ _

end Written

/-! ## From what is written to the cursor -/

namespace Cursor

variable {c : Cursor}

theorem switchBase_eq {padding : List UInt8} (h : Written.Pads c.position padding) :
    c.switchBase = c.position + 1 + padding.length := by
  obtain ⟨hle, hdvd⟩ := h
  unfold switchBase
  omega

/-- The cursor sits on an instruction that is written there. -/
structure Shows (c : Cursor) (w : Written) : Prop where
  fits : w.Fits c.position
  bytes : BytesAt c.code c.position w.bytes
  opcode : c.opcode = w.opcode
  wide : c.wide = w.isWide
  next : c.next = c.position + w.bytes.length

theorem shows_cursor (hfits : w.Fits bci) (h : BytesAt code bci w.bytes) : (w.cursor code bci).Shows w :=
  ⟨hfits, h, rfl, rfl, rfl⟩

theorem Shows.length_eq (h : c.Shows w) : c.length = .ok w.bytes.length := by
  obtain ⟨hfits, hbytes, hopcode, hwide, -⟩ := h
  cases w with
  | plain op operands =>
    simp only [Written.Fits] at hfits
    simp [length, hopcode, hwide, Written.isWide, Written.opcode, Opcode.length_eq, hfits, Written.bytes]
  | wideLocal op slot =>
    simp only [Written.Fits] at hfits
    simp [length, hopcode, hwide, Written.isWide, Written.opcode, Opcode.wideLength?_eq, hfits.ne_iinc,
      hfits, Written.bytes]
  | wideIncrement slot amount =>
    simp [length, hopcode, hwide, Written.isWide, Written.opcode, Opcode.wideLength?_eq, Written.bytes]
  | table padding fallback low high offsets =>
    obtain ⟨hpads, hle, hcount⟩ := hfits
    obtain ⟨-, -, -, hlow, hhigh, -⟩ := (Written.bytesAt_table (switchBase_eq hpads)).1 hbytes
    rw [length_of_table hwide hopcode (Bits.signedAt_eq hlow (by decide))
      (Bits.signedAt_eq hhigh (by decide)) hle, Written.length_bytes_table, ← hcount, Int.toNat_natCast]
    have hbase := switchBase_eq hpads
    rw [Except.ok.injEq]
    omega
  | lookup padding fallback pairs =>
    obtain ⟨hpads, hcount⟩ := hfits
    obtain ⟨-, -, -, hpairs, -⟩ := (Written.bytesAt_lookup (switchBase_eq hpads)).1 hbytes
    rw [length_of_pairs hwide hopcode (Bits.signedAt_eq hpairs (by decide))
      (by rw [Written.toInt_count hcount]; omega), Written.length_bytes_lookup,
      Written.toInt_count hcount, Int.toNat_natCast]
    have hbase := switchBase_eq hpads
    rw [Except.ok.injEq]
    omega

theorem opcodeAt?_of_ne {op : Opcode} (h : op ≠ Opcode.wide) : opcodeAt? code bci op = some (op, false) := by
  rw [opcodeAt?, if_neg (by simpa using h)]

theorem opcodeAt?_wide {op : Opcode} (h : code[bci + 1]? = some op) :
    opcodeAt? code bci Opcode.wide = some (op, true) := by
  rw [opcodeAt?, if_pos (by decide), h]
  rfl

theorem Shows.opcodeAt (h : c.Shows w) : ∃ first, c.code[c.position]? = some first ∧
    opcodeAt? c.code c.position first = some (c.opcode, c.wide) := by
  obtain ⟨hfits, hbytes, hopcode, hwide, -⟩ := h
  rw [hopcode, hwide]
  cases w with
  | plain op operands => exact ⟨op, (bytesAt_cons.1 hbytes).1, opcodeAt?_of_ne (Opcode.ne_of_operandCount hfits).1⟩
  | wideLocal op slot =>
    obtain ⟨hfirst, hop, -⟩ := Written.bytesAt_wideLocal.1 hbytes
    exact ⟨_, hfirst, opcodeAt?_wide hop⟩
  | wideIncrement slot amount =>
    obtain ⟨hfirst, hop, -⟩ := Written.bytesAt_wideIncrement.1 hbytes
    exact ⟨_, hfirst, opcodeAt?_wide hop⟩
  | table padding fallback low high offsets =>
    exact ⟨_, (bytesAt_cons.1 hbytes).1, opcodeAt?_of_ne (by decide)⟩
  | lookup padding fallback pairs => exact ⟨_, (bytesAt_cons.1 hbytes).1, opcodeAt?_of_ne (by decide)⟩

theorem Shows.sits (h : c.Shows w) : c.Sits where
  opcodeAt := h.opcodeAt
  length := ⟨_, h.length_eq, h.next⟩
  le := h.next ▸ h.bytes.le Written.bytes_ne_nil

/-- What is written is what is read back. -/
theorem Shows.written_eq (h : c.Shows w) : c.written = w := by
  obtain ⟨hfits, hbytes, hopcode, hwide, hnext⟩ := h
  have htable : (Opcode.lookupswitch = Opcode.tableswitch) = False := by simp; decide
  cases w with
  | plain op operands =>
    obtain ⟨-, hne, hne'⟩ := Opcode.ne_of_operandCount hfits
    have hoperands := (bytesAt_cons.1 hbytes).2.eq_take
    have hcount : c.next - (c.position + 1) = operands.length := by
      rw [hnext, Written.bytes, List.length_cons]
      omega
    simp only [written, hwide, Written.isWide, Bool.false_eq_true, if_false, hopcode, Written.opcode, hne,
      hne', hcount, slice, ← hoperands]
  | wideLocal op slot =>
    obtain ⟨-, -, hslot⟩ := Written.bytesAt_wideLocal.1 hbytes
    simp only [written, hwide, Written.isWide, if_true, hopcode, Written.opcode,
      (show op.Widens from hfits).ne_iinc, if_false, Bits.read_eq hslot]
  | wideIncrement slot amount =>
    obtain ⟨-, -, hslot, hamount⟩ := Written.bytesAt_wideIncrement.1 hbytes
    simp only [written, hwide, Written.isWide, if_true, hopcode, Written.opcode, Bits.read_eq hslot,
      Bits.read_eq hamount]
  | table padding fallback low high offsets =>
    obtain ⟨hpads, -, hcount⟩ := hfits
    obtain ⟨-, hpadding, hfallback, hlow, hhigh, hoffsets⟩ :=
      (Written.bytesAt_table (switchBase_eq hpads)).1 hbytes
    have hslice : c.slice (c.position + 1) (c.switchBase - (c.position + 1)) = padding := by
      rw [slice, switchBase, ← Written.pads_iff.1 hpads]
      exact hpadding.eq_take.symm
    have hrow : (List.range offsets.length).map (fun k => .read c.code (c.switchBase + 12 + 4 * k)) = offsets :=
      List.ext_getElem (by simp) fun k _ hk => by
        rw [List.getElem_map, List.getElem_range, Bits.read_eq (hoffsets k hk)]
    simp only [written, hwide, Written.isWide, Bool.false_eq_true, if_false, hopcode, Written.opcode, if_true,
      hslice, Bits.read_eq hfallback, Bits.read_eq hlow, Bits.read_eq hhigh, Bits.signed_eq, ← hcount,
      Int.toNat_natCast, hrow]
  | lookup padding fallback pairs =>
    obtain ⟨hpads, hcount⟩ := hfits
    obtain ⟨-, hpadding, hfallback, hpairs, hrows⟩ :=
      (Written.bytesAt_lookup (switchBase_eq hpads)).1 hbytes
    have hslice : c.slice (c.position + 1) (c.switchBase - (c.position + 1)) = padding := by
      rw [slice, switchBase, ← Written.pads_iff.1 hpads]
      exact hpadding.eq_take.symm
    have hrow : (List.range pairs.length).map (fun k => (.read c.code (c.switchBase + 8 + 8 * k),
        .read c.code (c.switchBase + 12 + 8 * k))) = pairs :=
      List.ext_getElem (by simp) fun k _ hk => by
        rw [List.getElem_map, List.getElem_range, Bits.read_eq (hrows k hk).1, Bits.read_eq (hrows k hk).2]
    simp only [written, hwide, Written.isWide, Bool.false_eq_true, if_false, hopcode, Written.opcode, htable,
      if_true, hslice, Bits.read_eq hfallback, Bits.read_eq hpairs, Bits.signed_eq,
      Written.toInt_count hcount, Int.toNat_natCast, hrow]

/-! ## From the cursor to what is written -/

theorem Sits.fits (h : c.Sits) : c.Fits := by
  obtain ⟨n, hlength, hnext⟩ := h.length
  exact ⟨n, hlength, hnext ▸ h.le⟩

theorem bytesAt_slice {address count : Nat} : BytesAt c.code address (c.slice address count) :=
  List.take_prefix _ _

theorem length_slice {address count : Nat} (h : address + count ≤ c.code.size) :
    (c.slice address count).length = count := by
  rw [slice, List.length_take, List.length_drop, c.code.length_toList]
  omega

theorem Sits.first_of_wide (h : c.Sits) (hwide : c.wide = true) :
    c.code[c.position]? = some Opcode.wide ∧ c.code[c.position + 1]? = some c.opcode := by
  obtain ⟨first, hfirst, hopcode⟩ := h.opcodeAt
  rw [hwide] at hopcode
  unfold opcodeAt? at hopcode
  split at hopcode
  · rename_i hw
    obtain ⟨op, hop, hpair⟩ := Option.map_eq_some_iff.1 hopcode
    rw [hfirst, eq_of_beq hw, ← (Prod.mk.inj hpair).1]
    exact ⟨rfl, hop⟩
  · simp at hopcode

theorem Sits.first (h : c.Sits) (hwide : c.wide = false) :
    c.code[c.position]? = some c.opcode ∧ c.opcode ≠ Opcode.wide := by
  obtain ⟨first, hfirst, hopcode⟩ := h.opcodeAt
  rw [hwide] at hopcode
  unfold opcodeAt? at hopcode
  split at hopcode
  · simp at hopcode
  · rename_i hw
    rw [← (Prod.mk.inj (Option.some.inj hopcode)).1]
    exact ⟨hfirst, by simpa using hw⟩

theorem Sits.shows_of_wide (h : c.Sits) (hwide : c.wide = true) : c.Shows c.written := by
  obtain ⟨hfirst, hop⟩ := h.first_of_wide hwide
  obtain ⟨n, hlength, hnext⟩ := h.length
  have hle := hnext ▸ h.le
  simp only [Cursor.length, hwide, if_true, Opcode.wideLength?_eq] at hlength
  by_cases hiinc : c.opcode = Opcode.iinc
  · have hn : n = 6 := by
      rw [if_pos hiinc] at hlength
      exact (Except.ok.inj hlength).symm
    subst hn
    have heq : c.written = .wideIncrement (.read c.code (c.position + 2)) (.read c.code (c.position + 4)) := by
      rw [written, if_pos hwide, if_pos hiinc]
    rw [heq]
    exact ⟨trivial, Written.bytesAt_wideIncrement.2 ⟨hfirst, hiinc ▸ hop, Bits.bytesAt_read (by omega),
      Bits.bytesAt_read (by omega)⟩, hiinc, hwide, hnext⟩
  · have hn : c.opcode.Widens ∧ n = 4 := by
      rw [if_neg hiinc] at hlength
      by_cases hwidens : c.opcode.Widens
      · rw [if_pos hwidens] at hlength
        exact ⟨hwidens, (Except.ok.inj hlength).symm⟩
      · rw [if_neg hwidens] at hlength
        cases hlength
    obtain ⟨hwidens, rfl⟩ := hn
    have heq : c.written = .wideLocal c.opcode (.read c.code (c.position + 2)) := by
      rw [written, if_pos hwide, if_neg hiinc]
    rw [heq]
    exact ⟨hwidens, Written.bytesAt_wideLocal.2 ⟨hfirst, hop, Bits.bytesAt_read (by omega)⟩, rfl, hwide, hnext⟩

theorem Sits.shows_of_table (h : c.Sits) (hwide : c.wide = false) (hop : c.opcode = Opcode.tableswitch) :
    c.Shows c.written := by
  obtain ⟨hfirst, -⟩ := h.first hwide
  obtain ⟨hnonneg, hle⟩ := h.fits.table_le hop
  obtain ⟨n, hlength, hnext⟩ := h.length
  rw [length_of_table hwide hop (signedAt_of_le (by omega)) (signedAt_of_le (by omega)) (by omega)] at hlength
  have hbase : c.position < c.switchBase ∧ c.switchBase ≤ c.position + 4 := by unfold switchBase; omega
  have hslice : (c.slice (c.position + 1) (c.switchBase - (c.position + 1))).length =
      c.switchBase - (c.position + 1) := length_slice (by omega)
  rw [written, if_neg (by rw [hwide]; exact Bool.false_ne_true), if_pos hop]
  have hpads := Written.pads_iff.2 hslice
  refine ⟨⟨hpads, ?_, ?_⟩, (Written.bytesAt_table (switchBase_eq hpads)).2
    ⟨hop ▸ hfirst, bytesAt_slice, Bits.bytesAt_read (by omega), Bits.bytesAt_read (by omega),
      Bits.bytesAt_read (by omega), fun k hk => ?_⟩, hop, hwide, ?_⟩
  · rw [← Bits.signed_eq, ← Bits.signed_eq]
    omega
  · rw [← Bits.signed_eq, ← Bits.signed_eq, List.length_map, List.length_range]
    omega
  · rw [List.length_map, List.length_range] at hk
    rw [List.getElem_map, List.getElem_range]
    exact Bits.bytesAt_read (by omega)
  · rw [hnext, Written.length_bytes_table, hslice, List.length_map, List.length_range,
      ← Except.ok.inj hlength]
    omega

theorem Sits.shows_of_pairs (h : c.Sits) (hwide : c.wide = false) (hop : c.opcode = Opcode.lookupswitch) :
    c.Shows c.written := by
  obtain ⟨hfirst, -⟩ := h.first hwide
  obtain ⟨hnonneg, hread, hle⟩ := h.fits.pairs_le hop
  obtain ⟨n, hlength, hnext⟩ := h.length
  rw [length_of_pairs hwide hop (signedAt_of_le hread) hnonneg] at hlength
  have hbase : c.position < c.switchBase ∧ c.switchBase ≤ c.position + 4 := by unfold switchBase; omega
  have hslice : (c.slice (c.position + 1) (c.switchBase - (c.position + 1))).length =
      c.switchBase - (c.position + 1) := length_slice (by omega)
  have hbounds := c.signed_bounds (c.switchBase + 4)
  rw [written, if_neg (by rw [hwide]; exact Bool.false_ne_true), if_neg (by rw [hop]; decide), if_pos hop]
  have hpads := Written.pads_iff.2 hslice
  refine ⟨⟨hpads, ?_⟩, (Written.bytesAt_lookup (switchBase_eq hpads)).2
    ⟨hop ▸ hfirst, bytesAt_slice, Bits.bytesAt_read (by omega), ?_, fun k hk => ?_⟩, hop, hwide, ?_⟩
  · rw [List.length_map, List.length_range]
    omega
  · have hcount : ∀ pairs : List (Bits 4 × Bits 4), pairs.length = (c.signed (c.switchBase + 4) 4).toNat →
        Written.count pairs = .read c.code (c.switchBase + 4) := by
      intro pairs hpairs
      refine BitVec.eq_of_toInt_eq ?_
      rw [Written.toInt_count (by omega), hpairs, ← Bits.signed_eq, Int.toNat_of_nonneg hnonneg]
    rw [hcount _ (by rw [List.length_map, List.length_range])]
    exact Bits.bytesAt_read hread
  · rw [List.length_map, List.length_range] at hk
    rw [List.getElem_map, List.getElem_range]
    exact ⟨Bits.bytesAt_read (by omega), Bits.bytesAt_read (by omega)⟩
  · rw [hnext, Written.length_bytes_lookup, hslice, List.length_map, List.length_range,
      ← Except.ok.inj hlength]
    omega

theorem Sits.shows (h : c.Sits) : c.Shows c.written := by
  cases hwide : c.wide with
  | true => exact h.shows_of_wide hwide
  | false =>
    obtain ⟨hfirst, hne⟩ := h.first hwide
    obtain ⟨n, hlength, hnext⟩ := h.length
    have hle := hnext ▸ h.le
    simp only [Cursor.length, hwide, Bool.false_eq_true, if_false, Opcode.length_eq] at hlength
    cases hcount : c.opcode.operandCount? with
    | some count =>
      rw [hcount] at hlength
      obtain ⟨-, htable, hpairs⟩ := Opcode.ne_of_operandCount hcount
      have hn : n = count + 1 := (Except.ok.inj hlength).symm
      have hslice : (c.slice (c.position + 1) (c.next - (c.position + 1))).length = count := by
        rw [length_slice (by omega)]
        omega
      rw [written, if_neg (by rw [hwide]; exact Bool.false_ne_true), if_neg htable, if_neg hpairs]
      refine ⟨hcount.trans (congrArg some hslice.symm), bytesAt_cons.2 ⟨hfirst, bytesAt_slice⟩, rfl, hwide, ?_⟩
      rw [Written.bytes, List.length_cons, hslice, hnext, hn]
    | none =>
      rw [hcount] at hlength
      by_cases hop : c.opcode = Opcode.tableswitch
      · exact h.shows_of_table hwide hop
      · by_cases hop' : c.opcode = Opcode.lookupswitch
        · exact h.shows_of_pairs hwide hop'
        · simp [hop, hop', hne] at hlength

/-- **A cursor moves to an index just when an instruction is written there**, and then it shows that
instruction. -/
theorem moveTo_ok_iff_shows {d : Cursor} {op : Opcode} : moveTo bci c = .ok op d ↔
    ∃ w, d.Shows w ∧ d.code = c.code ∧ d.position = bci ∧ d.opcode = op := by
  rw [moveTo_ok_iff_sits]
  constructor
  · rintro ⟨h, hd⟩
    exact ⟨_, h.shows, hd⟩
  · rintro ⟨w, h, hd⟩
    exact ⟨h.sits, hd⟩

/-! ## Operands -/

theorem Shows.localSlot_eq {slot : Nat} (h : c.Shows w) (huses : w.Uses slot) : c.localSlot = .ok slot := by
  obtain ⟨hfits, hbytes, hopcode, hwide, -⟩ := h
  unfold localSlot
  rw [hopcode, hwide]
  cases w with
  | plain op operands =>
    rcases huses with hnames | ⟨hop, b, rest, rfl, rfl⟩
    · simp only [Written.opcode, Opcode.impliedSlot?_of_namesSlot hnames]
    · have hle := hbytes.le Written.bytes_ne_nil
      have hb := (bytesAt_cons.1 (bytesAt_cons.1 hbytes).2).1
      rw [Written.bytes, List.length_cons, List.length_cons] at hle
      simp only [Written.opcode, Opcode.impliedSlot?_of_operand hop, Written.isWide, Bool.false_eq_true,
        if_false]
      rw [unsignedAt, if_pos (by omega)]
      simp [bigEndian, Array.getD_eq_getD_getElem?, hb]
  | wideLocal op x =>
    obtain ⟨-, -, hslot⟩ := Written.bytesAt_wideLocal.1 hbytes
    simp only [Written.opcode, Opcode.impliedSlot?_of_operand (.inl hfits), Written.isWide, if_true,
      Bits.unsignedAt_eq hslot (by decide)]
    exact congrArg Except.ok huses
  | wideIncrement x amount =>
    obtain ⟨-, -, hslot, -⟩ := Written.bytesAt_wideIncrement.1 hbytes
    simp only [Written.opcode, Opcode.impliedSlot?_of_operand (.inr rfl), Written.isWide, if_true,
      Bits.unsignedAt_eq hslot (by decide)]
    exact congrArg Except.ok huses
  | table padding fallback low high offsets => exact huses.elim
  | lookup padding fallback pairs => exact huses.elim

theorem targetOf_eq_reach {distance : Int} : c.targetOf distance = Written.reach c.code c.position distance :=
  rfl

theorem Shows.branchTarget_eq {distance : Int} (h : c.Shows w) (hjumps : w.Jumps distance) :
    c.branchTarget = Written.reach c.code c.position distance := by
  obtain ⟨-, hbytes, hopcode, -, -⟩ := h
  cases w with
  | plain op operands =>
    have hoperands := (bytesAt_cons.1 hbytes).2
    unfold branchTarget
    rcases hjumps with ⟨hop, x, rfl, rfl⟩ | ⟨hop, x, rfl, rfl⟩
    · simp only [hopcode, Written.opcode, Opcode.far_of_jumpsNear hop, Bool.false_eq_true, if_false,
        Bits.signedAt_eq hoperands (by decide)]
      exact targetOf_eq_reach
    · simp only [hopcode, Written.opcode, Opcode.far_of_jumpsFar hop, if_true,
        Bits.signedAt_eq hoperands (by decide)]
      exact targetOf_eq_reach
  | wideLocal op x => exact hjumps.elim
  | wideIncrement x amount => exact hjumps.elim
  | table padding fallback low high offsets => exact hjumps.elim
  | lookup padding fallback pairs => exact hjumps.elim

theorem targetAt_eq {address : Nat} {x : Bits 4} (h : BytesAt c.code address x.bytes) :
    c.targetAt address = Written.reach c.code c.position x.toInt := by
  rw [targetAt, Bits.signedAt_eq h (by decide)]
  exact targetOf_eq_reach

theorem targetsFrom_eq {stride : Nat} : ∀ {l : List (Bits 4)} {address : Nat},
    (∀ k (h : k < l.length), BytesAt c.code (address + stride * k) l[k].bytes) →
    c.targetsFrom address stride l.length =
      (l.map BitVec.toInt).mapM (Written.reach c.code c.position) := by
  intro l
  induction l with
  | nil => intro address _; rfl
  | cons x l ih =>
    intro address h
    have hhead : c.targetAt address = Written.reach c.code c.position x.toInt :=
      targetAt_eq (h 0 (Nat.succ_pos _))
    have htail : ∀ k (hk : k < l.length), BytesAt c.code (address + stride + stride * k) l[k].bytes := by
      intro k hk
      have hk' := h (k + 1) (Nat.succ_lt_succ hk)
      rwa [Nat.mul_succ, Nat.add_comm (stride * k), ← Nat.add_assoc] at hk'
    rw [List.length_cons, targetsFrom, ih htail, List.map_cons, List.mapM_cons, ← hhead]

theorem Shows.jumpTable_eq {distance : Int} {distances : List Int} (h : c.Shows w)
    (hw : w.distances? = some (distance, distances)) :
    c.jumpTable = do
      let fallback ← Written.reach c.code c.position distance
      return (fallback, ← distances.mapM (Written.reach c.code c.position)) := by
  obtain ⟨hfits, hbytes, hopcode, -, -⟩ := h
  cases w with
  | plain op operands => cases hw
  | wideLocal op x => cases hw
  | wideIncrement x amount => cases hw
  | table padding fallback low high offsets =>
    cases hw
    obtain ⟨hpads, -, hcount⟩ := hfits
    obtain ⟨-, -, hfallback, hlow, hhigh, hoffsets⟩ :=
      (Written.bytesAt_table (switchBase_eq hpads)).1 hbytes
    have hwords : wordCount (high.toInt - low.toInt + 1) = offsets.length := by
      have := high.toInt_lt
      have := low.le_toInt
      rw [wordCount_of_nonneg (by omega) (by omega), ← hcount, Int.toNat_natCast]
    have hop : (c.opcode == Opcode.tableswitch) = true := by rw [hopcode]; rfl
    simp only [jumpTable, hop, if_true, targetAt_eq hfallback, Bits.signedAt_eq hlow (Nat.succ_pos 3),
      Bits.signedAt_eq hhigh (Nat.succ_pos 3), hwords, targetsFrom_eq hoffsets, bind, Except.bind]
  | lookup padding fallback pairs =>
    cases hw
    obtain ⟨hpads, hcount⟩ := hfits
    obtain ⟨-, -, hfallback, hpairs, hrows⟩ :=
      (Written.bytesAt_lookup (switchBase_eq hpads)).1 hbytes
    have hwords : wordCount (Written.count pairs).toInt = (pairs.map Prod.snd).length := by
      rw [Written.toInt_count hcount, wordCount_of_nonneg (by omega) (by omega), Int.toNat_natCast,
        List.length_map]
    have hoffsets : ∀ k (hk : k < (pairs.map Prod.snd).length),
        BytesAt c.code (c.switchBase + 12 + 8 * k) ((pairs.map Prod.snd)[k]).bytes := by
      intro k hk
      rw [List.getElem_map]
      exact (hrows k (by rwa [List.length_map] at hk)).2
    have htable : (c.opcode == Opcode.tableswitch) = false := by
      rw [hopcode, Written.opcode]
      decide
    have hop : (c.opcode == Opcode.lookupswitch) = true := by rw [hopcode]; rfl
    simp only [jumpTable, htable, hop, if_true, Bool.false_eq_true, if_false, targetAt_eq hfallback,
      Bits.signedAt_eq hpairs (Nat.succ_pos 3), hwords, targetsFrom_eq hoffsets, List.map_map, bind, Except.bind]
    rfl

end Cursor

end BlockGraph
