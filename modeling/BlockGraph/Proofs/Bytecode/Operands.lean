import Mathlib.Data.List.Forall2
import BlockGraph.Proofs.Bytecode.Decoding

/-!
# Targets in the operands

The operands of a branch, a jump, a call or a switch spell how far its targets are from it
(`Cursor.offsets`). Once an instruction has been decoded all of them lie in the code, so that its targets
are refused only if one of them leads out of the code (`targets_ok_iff`).
-/

namespace BlockGraph

/-! ## Opcodes that name targets -/

namespace Opcode

theorem length_of_branches {op : Opcode} (h : op.flow = .branch ∨ op.flow = .goto ∨ op.flow = .jsr) :
    op.wideLength? = none ∧ op.length = .fixed (if op == gotoWide || op == jsrWide then 5 else 3) :=
  forall_of_ofNat (P := fun op => (op.flow = .branch ∨ op.flow = .goto ∨ op.flow = .jsr) →
    op.wideLength? = none ∧ op.length = .fixed (if op == gotoWide || op == jsrWide then 5 else 3))
    (by decide +kernel) op h

theorem length_of_switch {op : Opcode} (h : op.flow = .switch) :
    op.wideLength? = none ∧ op.length = .variable ∧ (op = tableswitch ∨ op = lookupswitch) :=
  forall_of_ofNat (P := fun op => op.flow = .switch →
    op.wideLength? = none ∧ op.length = .variable ∧ (op = tableswitch ∨ op = lookupswitch))
    (by decide +kernel) op h

end Opcode

namespace Cursor

variable {c : Cursor} {address width : Nat} {x : Int} {t : Nat} {ts : List Nat}

/-! ## Numbers -/

/-- The two's complement number of `width` bytes at an address, where bytes past the end of the code
count as zero. -/
def signed (c : Cursor) (address width : Nat) : Int :=
  (bigEndian c.code address width : Int).bmod (1 <<< (8 * width))

theorem signedAt_of_le (h : address + width ≤ c.code.size) :
    c.signedAt address width = .ok (c.signed address width) := by
  simp [signedAt, unsignedAt, h, signed, Except.map]

theorem eq_signed_of_signedAt (h : c.signedAt address width = .ok x) :
    address + width ≤ c.code.size ∧ x = c.signed address width := by
  by_cases hle : address + width ≤ c.code.size
  · rw [signedAt_of_le hle] at h
    cases h
    exact ⟨hle, rfl⟩
  · simp [signedAt, unsignedAt, hle, Except.map] at h

/-- A number of four bytes is far from the bounds of a word. -/
theorem signed_bounds (c : Cursor) (address : Nat) :
    -0x80000000 ≤ c.signed address 4 ∧ c.signed address 4 < 0x80000000 := by
  have hlow := Int.le_bmod (x := (bigEndian c.code address 4 : Int)) (m := 1 <<< (8 * 4)) (by decide)
  have hhigh := Int.bmod_lt (x := (bigEndian c.code address 4 : Int)) (m := 1 <<< (8 * 4)) (by decide)
  simp only [show (1 <<< (8 * 4) : Nat) = 0x100000000 from rfl] at hlow hhigh
  unfold signed
  simp only [show (1 <<< (8 * 4) : Nat) = 0x100000000 from rfl]
  omega

theorem wordCount_of_nonneg (hnonneg : 0 ≤ x) (hlt : x < 0x10000000000000000) :
    wordCount x = x.toNat := by
  unfold wordCount
  rw [Int.emod_eq_of_lt hnonneg hlt]

/-! ## Offsets -/

/-- How far the targets that the operands of an instruction name are from it, in code order. -/
def offsets (c : Cursor) : List Int :=
  match c.opcode.flow with
  | .branch | .goto | .jsr =>
    [c.signed (c.position + 1) (if c.opcode == Opcode.gotoWide || c.opcode == Opcode.jsrWide then 4 else 2)]
  | .switch =>
    let base := c.switchBase
    c.signed base 4 ::
      if c.opcode == Opcode.tableswitch then
        (List.range (c.signed (base + 8) 4 - c.signed (base + 4) 4 + 1).toNat).map fun k =>
          c.signed (base + 12 + 4 * k) 4
      else
        (List.range (c.signed (base + 4) 4).toNat).map fun k => c.signed (base + 12 + 8 * k) 4
  | .next | .ret | .leave | .throw => []

/-- An index lies that far from the instruction, and in the code. -/
def LiesAt (c : Cursor) (offset : Int) (t : Nat) : Prop := (t : Int) = c.position + offset ∧ t < c.code.size

theorem targetOf_ok_iff {offset : Int} : c.targetOf offset = .ok t ↔ c.LiesAt offset t := by
  unfold targetOf LiesAt
  simp only
  split
  · simp only [Except.ok.injEq]
    omega
  · simp only [reduceCtorEq, false_iff]
    omega

theorem bind_ok_iff {α β : Type} {r : Except Fault α} {f : α → Except Fault β} {b : β} :
    r >>= f = .ok b ↔ ∃ a, r = .ok a ∧ f a = .ok b := by
  cases r <;> simp [bind, Except.bind]

theorem targetAt_ok_iff (h : c.signedAt address 4 = .ok x) : c.targetAt address = .ok t ↔ c.LiesAt x t := by
  simp only [targetAt, bind_ok_iff, h, Except.ok.injEq, exists_eq_left', targetOf_ok_iff]

/-- A row of targets: one for each number that is read. -/
theorem targetsFrom_ok_iff {stride : Nat} : ∀ {count address : Nat} {read : Nat → Int} {ts : List Nat},
    (∀ k < count, c.signedAt (address + stride * k) 4 = .ok (read k)) →
    (c.targetsFrom address stride count = .ok ts ↔ List.Forall₂ c.LiesAt ((List.range count).map read) ts) := by
  intro count
  induction count with
  | zero =>
    intro address read ts _
    simp only [targetsFrom, List.range_zero, List.map_nil, List.forall₂_nil_left_iff, Except.ok.injEq]
    exact eq_comm
  | succ count ih =>
    intro address read ts hread
    have hhead : ∀ t, c.targetAt address = .ok t ↔ c.LiesAt (read 0) t := fun t =>
      targetAt_ok_iff (by simpa using hread 0 (Nat.succ_pos count))
    have htail : ∀ k < count, c.signedAt (address + stride + stride * k) 4 = .ok ((read ∘ Nat.succ) k) := by
      intro k hk
      rw [Function.comp_apply, ← hread (k + 1) (by omega), Nat.mul_add, Nat.mul_one, Nat.add_assoc,
        Nat.add_comm stride]
    rw [List.range_succ_eq_map, List.map_cons, List.map_map, List.forall₂_cons_left_iff, targetsFrom]
    simp only [bind_ok_iff, hhead, ih htail, pure, Except.pure, Except.ok.injEq]
    constructor
    · rintro ⟨t, ht, rest, hrest, rfl⟩
      exact ⟨t, rest, ht, hrest, rfl⟩
    · rintro ⟨t, rest, ht, hrest, rfl⟩
      exact ⟨t, ht, rest, hrest, rfl⟩

/-! ## Decoded instructions -/

/-- The instruction under the cursor lies in the code as a whole. -/
def Fits (c : Cursor) : Prop := ∃ n, c.length = .ok n ∧ c.position + n ≤ c.code.size

theorem fits_of_moveTo {bci : Nat} {op : Opcode} {d : Cursor} (h : moveTo bci d = .ok op c) : c.Fits := by
  obtain ⟨_, _, n, -, -, hlength, hle, rfl⟩ := moveTo_ok_iff.1 h
  exact ⟨n, hlength, hle⟩

theorem Fits.branch_le (h : c.Fits)
    (hf : c.opcode.flow = .branch ∨ c.opcode.flow = .goto ∨ c.opcode.flow = .jsr) :
    c.position + 1 + (if c.opcode == Opcode.gotoWide || c.opcode == Opcode.jsrWide then 4 else 2) ≤
      c.code.size := by
  obtain ⟨n, hlength, hle⟩ := h
  obtain ⟨hwide, hfixed⟩ := Opcode.length_of_branches hf
  unfold length at hlength
  rw [hwide, hfixed] at hlength
  by_cases hw : c.wide
  · simp [hw] at hlength
  · simp only [hw, Bool.false_eq_true, if_false, Except.ok.injEq] at hlength
    split at hlength <;> split <;> first | omega | contradiction

/-- The bounds of a table and all of its offsets lie in the code. -/
theorem Fits.table_le (h : c.Fits) (hop : c.opcode = Opcode.tableswitch) :
    0 ≤ c.signed (c.switchBase + 8) 4 - c.signed (c.switchBase + 4) 4 ∧
      c.switchBase + 12 + 4 * (c.signed (c.switchBase + 8) 4 - c.signed (c.switchBase + 4) 4 + 1).toNat ≤
        c.code.size := by
  obtain ⟨n, hlength, hle⟩ := h
  have hflow : c.opcode.flow = .switch := by rw [hop]; decide
  obtain ⟨hwide, hvariable, -⟩ := Opcode.length_of_switch hflow
  unfold length at hlength
  rw [hwide, hvariable] at hlength
  by_cases hw : c.wide
  · simp [hw] at hlength
  · simp only [hw, Bool.false_eq_true, if_false, switchLength, hop, beq_self_eq_true, if_true] at hlength
    cases hlow : c.signedAt (c.switchBase + 4) 4 with
    | error fault => rw [hlow] at hlength; cases hlength
    | ok low =>
      cases hhigh : c.signedAt (c.switchBase + 8) 4 with
      | error fault => rw [hlow, hhigh] at hlength; cases hlength
      | ok high =>
        obtain ⟨-, hlow'⟩ := eq_signed_of_signedAt hlow
        obtain ⟨-, hhigh'⟩ := eq_signed_of_signedAt hhigh
        rw [hlow, hhigh] at hlength
        rw [← hlow', ← hhigh']
        simp only [bind, Except.bind, pure, Except.pure, throw, throwThe, MonadExceptOf.throw] at hlength
        split at hlength
        · cases hlength
        · cases hlength
          have hbase : c.position < c.switchBase + 1 := by unfold switchBase; omega
          omega

theorem Fits.pairs_le (h : c.Fits) (hop : c.opcode = Opcode.lookupswitch) :
    0 ≤ c.signed (c.switchBase + 4) 4 ∧ c.switchBase + 4 + 4 ≤ c.code.size ∧
      c.switchBase + 8 + 8 * (c.signed (c.switchBase + 4) 4).toNat ≤ c.code.size := by
  obtain ⟨n, hlength, hle⟩ := h
  have hflow : c.opcode.flow = .switch := by rw [hop]; decide
  obtain ⟨hwide, hvariable, -⟩ := Opcode.length_of_switch hflow
  have htable : (c.opcode == Opcode.tableswitch) = false := by rw [hop]; decide
  unfold length at hlength
  rw [hwide, hvariable] at hlength
  by_cases hw : c.wide
  · simp [hw] at hlength
  · simp only [hw, Bool.false_eq_true, if_false, switchLength, htable] at hlength
    cases hpairs : c.signedAt (c.switchBase + 4) 4 with
    | error fault => rw [hpairs] at hlength; cases hlength
    | ok pairs =>
      obtain ⟨hread, hpairs'⟩ := eq_signed_of_signedAt hpairs
      rw [hpairs] at hlength
      rw [← hpairs']
      simp only [bind, Except.bind, pure, Except.pure, throw, throwThe, MonadExceptOf.throw] at hlength
      split at hlength
      · cases hlength
      · cases hlength
        have hbase : c.position < c.switchBase + 1 := by unfold switchBase; omega
        omega

/-! ## Targets -/

section
variable {first low high pairs : Int} {read : Nat → Int} {p : Nat × List Nat}

theorem jumpTable_of_table (hop : c.opcode = Opcode.tableswitch)
    (hfirst : c.signedAt c.switchBase 4 = .ok first) (hlow : c.signedAt (c.switchBase + 4) 4 = .ok low)
    (hhigh : c.signedAt (c.switchBase + 8) 4 = .ok high)
    (hread : ∀ k < wordCount (high - low + 1), c.signedAt (c.switchBase + 12 + 4 * k) 4 = .ok (read k)) :
    c.jumpTable = .ok p ↔ List.Forall₂ c.LiesAt
      (first :: (List.range (wordCount (high - low + 1))).map read) (p.1 :: p.2) := by
  unfold jumpTable
  simp only [hop, beq_self_eq_true, if_true, bind_ok_iff, targetAt_ok_iff hfirst, hlow, hhigh,
    Except.ok.injEq, exists_eq_left', targetsFrom_ok_iff hread, pure, Except.pure, List.forall₂_cons]
  constructor
  · rintro ⟨t, ht, ts, hts, rfl⟩
    exact ⟨ht, hts⟩
  · rintro ⟨ht, hts⟩
    exact ⟨_, ht, _, hts, rfl⟩

theorem jumpTable_of_pairs (hop : c.opcode = Opcode.lookupswitch)
    (hfirst : c.signedAt c.switchBase 4 = .ok first) (hpairs : c.signedAt (c.switchBase + 4) 4 = .ok pairs)
    (hread : ∀ k < wordCount pairs, c.signedAt (c.switchBase + 12 + 8 * k) 4 = .ok (read k)) :
    c.jumpTable = .ok p ↔
      List.Forall₂ c.LiesAt (first :: (List.range (wordCount pairs)).map read) (p.1 :: p.2) := by
  have htable : (c.opcode == Opcode.tableswitch) = false := by rw [hop]; decide
  have hlookup : (c.opcode == Opcode.lookupswitch) = true := by rw [hop]; decide
  unfold jumpTable
  simp only [htable, Bool.false_eq_true, if_false, hlookup, if_true, bind_ok_iff, targetAt_ok_iff hfirst,
    hpairs, Except.ok.injEq, exists_eq_left', targetsFrom_ok_iff hread, pure,
    Except.pure, List.forall₂_cons]
  constructor
  · rintro ⟨t, ht, ts, hts, rfl⟩
    exact ⟨ht, hts⟩
  · rintro ⟨ht, hts⟩
    exact ⟨_, ht, _, hts, rfl⟩

end

theorem jumpTable_ok_iff (h : c.Fits) (hf : c.opcode.flow = .switch) {p : Nat × List Nat} :
    c.jumpTable = .ok p ↔ List.Forall₂ c.LiesAt c.offsets (p.1 :: p.2) := by
  obtain ⟨-, -, hop⟩ := Opcode.length_of_switch hf
  unfold offsets
  rw [hf]
  rcases hop with hop | hop
  · obtain ⟨hnonneg, hle⟩ := h.table_le hop
    have hlow := c.signed_bounds (c.switchBase + 4)
    have hhigh := c.signed_bounds (c.switchBase + 8)
    rw [← wordCount_of_nonneg (by omega) (by omega)] at hle
    simp only [hop, beq_self_eq_true, if_true]
    rw [← wordCount_of_nonneg (by omega) (by omega)]
    exact jumpTable_of_table hop (signedAt_of_le (by omega)) (signedAt_of_le (by omega))
      (signedAt_of_le (by omega)) fun k hk => signedAt_of_le (by omega)
  · obtain ⟨hnonneg, hread, hle⟩ := h.pairs_le hop
    have hpairs := c.signed_bounds (c.switchBase + 4)
    have htable : (c.opcode == Opcode.tableswitch) = false := by rw [hop]; decide
    rw [← wordCount_of_nonneg hnonneg (by omega)] at hle
    simp only [htable, Bool.false_eq_true, if_false]
    rw [← wordCount_of_nonneg hnonneg (by omega)]
    exact jumpTable_of_pairs hop (signedAt_of_le (by omega)) (signedAt_of_le (by omega))
      fun k hk => signedAt_of_le (by omega)

theorem offsets_of_branches
    (hf : c.opcode.flow = .branch ∨ c.opcode.flow = .goto ∨ c.opcode.flow = .jsr) :
    c.offsets = [c.signed (c.position + 1)
      (if c.opcode == Opcode.gotoWide || c.opcode == Opcode.jsrWide then 4 else 2)] := by
  unfold offsets
  rcases hf with hf | hf | hf <;> rw [hf]

theorem branchTarget_ok_iff (h : c.Fits)
    (hf : c.opcode.flow = .branch ∨ c.opcode.flow = .goto ∨ c.opcode.flow = .jsr) :
    c.branchTarget.map ([·]) = .ok ts ↔ List.Forall₂ c.LiesAt c.offsets ts := by
  have hone : ∀ t, c.branchTarget = .ok t ↔ List.Forall₂ c.LiesAt c.offsets [t] := by
    intro t
    simp only [offsets_of_branches hf, List.forall₂_cons, List.Forall₂.nil, and_true, branchTarget,
      bind_ok_iff, signedAt_of_le (h.branch_le hf), Except.ok.injEq, exists_eq_left', targetOf_ok_iff]
  constructor
  · intro hts
    cases hb : c.branchTarget with
    | error fault => rw [hb] at hts; cases hts
    | ok t =>
      rw [hb] at hts
      cases hts
      exact (hone t).1 hb
  · intro hall
    have hlength := hall.length_eq
    rw [offsets_of_branches hf] at hlength
    obtain ⟨t, rfl⟩ := List.length_eq_one_iff.1 hlength.symm
    rw [(hone t).2 hall]
    rfl

/-- **The targets of an instruction that has been decoded** lie in the code, one for each offset that its
operands spell; if all of them do, there is nothing else to refuse. -/
theorem targets_ok_iff (h : c.Fits) : c.targets = .ok ts ↔ List.Forall₂ c.LiesAt c.offsets ts := by
  have hnone (hoffsets : c.offsets = []) : (.ok [] : Except Fault (List Nat)) = .ok ts ↔
      List.Forall₂ c.LiesAt c.offsets ts := by
    rw [hoffsets, List.forall₂_nil_left_iff, Except.ok.injEq]
    exact eq_comm
  unfold targets
  cases hf : c.opcode.flow with
  | branch => exact branchTarget_ok_iff h (.inl hf)
  | goto => exact branchTarget_ok_iff h (.inr (.inl hf))
  | jsr => exact branchTarget_ok_iff h (.inr (.inr hf))
  | switch =>
    simp only
    constructor
    · intro hts
      cases hjump : c.jumpTable with
      | error fault => rw [hjump] at hts; cases hts
      | ok p =>
        rw [hjump] at hts
        cases hts
        exact (jumpTable_ok_iff h hf).1 hjump
    · intro hall
      cases ts with
      | nil => simp [offsets, hf] at hall
      | cons t ts =>
        rw [(jumpTable_ok_iff h hf (p := (t, ts))).2 hall]
        rfl
  | next => exact hnone (by simp [offsets, hf])
  | ret => exact hnone (by simp [offsets, hf])
  | leave => exact hnone (by simp [offsets, hf])
  | throw => exact hnone (by simp [offsets, hf])

/-- The instruction under the cursor names an index as a target. -/
def Names (c : Cursor) (t : Nat) : Prop := ∃ offset ∈ c.offsets, (t : Int) = c.position + offset

theorem mem_targets_iff (h : c.Fits) (hts : c.targets = .ok ts) : t ∈ ts ↔ c.Names t := by
  have hall := (targets_ok_iff h).1 hts
  unfold Names
  clear h hts
  generalize c.offsets = offsets at hall ⊢
  induction hall with
  | nil => simp
  | @cons offset t' offsets ts hlies _ ih =>
    have hhead : t = t' ↔ (t : Int) = c.position + offset := by
      have := hlies.1
      omega
    rw [List.mem_cons, List.exists_mem_cons_iff, hhead]
    exact or_congr_right ih

/-- A target of a decoded instruction is an index of the code. -/
theorem targets_lt (h : c.Fits) (hts : c.targets = .ok ts) : ∀ t ∈ ts, t < c.code.size := by
  have hall := (targets_ok_iff h).1 hts
  clear h hts
  generalize c.offsets = offsets at hall
  induction hall with
  | nil => simp
  | cons hlies _ ih => exact List.forall_mem_cons.2 ⟨hlies.2, ih⟩

theorem exists_mem_targets (h : c.Fits) (hts : c.targets = .ok ts) :
    ∀ offset ∈ c.offsets, ∃ t ∈ ts, (t : Int) = c.position + offset := by
  have hall := (targets_ok_iff h).1 hts
  clear h hts
  generalize c.offsets = offsets at hall ⊢
  induction hall with
  | nil => simp
  | cons hlies _ ih =>
    intro offset ho
    rcases List.mem_cons.1 ho with rfl | ho
    · exact ⟨_, List.mem_cons_self, hlies.1⟩
    · obtain ⟨t, ht, hoffset⟩ := ih offset ho
      exact ⟨t, List.mem_cons_of_mem _ ht, hoffset⟩

theorem exists_targets (h : c.Fits) (hlies : ∀ offset ∈ c.offsets, ∃ t, c.LiesAt offset t) :
    ∃ ts, c.targets = .ok ts := by
  have hrow : ∃ ts, List.Forall₂ c.LiesAt c.offsets ts := by
    clear h
    generalize c.offsets = offsets at hlies ⊢
    induction offsets with
    | nil => exact ⟨[], .nil⟩
    | cons offset offsets ih =>
      obtain ⟨t, ht⟩ := hlies offset List.mem_cons_self
      obtain ⟨ts, hts⟩ := ih fun o ho => hlies o (List.mem_cons_of_mem _ ho)
      exact ⟨t :: ts, .cons ht hts⟩
  obtain ⟨ts, hts⟩ := hrow
  exact ⟨ts, (targets_ok_iff h).2 hts⟩

end Cursor
end BlockGraph
