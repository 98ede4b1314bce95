import BlockGraph.Bytecode.Sweep

/-!
# Decoding the instructions of the sweep

An instruction that was read once is read again without a fault: a cursor on code can move to it
(`moveTo_of_read`), its targets and the local that it writes are there (`targets_of_read`,
`exists_localSlot`). The sweep lists instructions that were read, one after the other
(`read_of_mem_sweep`, `exists_next_of_mem_sweep`).
-/

namespace BlockGraph

namespace Opcode

/-- A property of opcodes that holds for all bytes. -/
theorem forall_of_ofNat {P : Opcode → Prop} (h : ∀ n, n < 256 → P (UInt8.ofNat n)) (op : Opcode) :
    P op := by
  simpa using h op.toNat op.toNat_lt

/-- Does the opcode use one local, by writing it or by going back to what it holds? -/
def usesLocal (op : Opcode) : Bool := op.writtenSlots?.isSome || op.flow == .ret

theorem flow_of_writes {op : Opcode} (h : op.writtenSlots?.isSome = true) : op.flow = .next :=
  forall_of_ofNat (P := fun op => op.writtenSlots?.isSome = true → op.flow = .next)
    (by decide +kernel) op h

theorem writes_of_storesReference {op : Opcode} (h : op.storesReference = true) :
    op.writtenSlots?.isSome = true :=
  forall_of_ofNat (P := fun op => op.storesReference = true → op.writtenSlots?.isSome = true)
    (by decide +kernel) op h

/-- A local that is not named in the opcode is named in one operand byte, or in two after `wide`. -/
theorem slot_of_usesLocal {op : Opcode} (h : op.usesLocal = true) :
    op.impliedSlot?.isSome = true ∨ op.length = .fixed 2 ∧
      (op.wideLength? = none ∨ op.wideLength? = some 4) :=
  forall_of_ofNat (P := fun op => op.usesLocal = true → op.impliedSlot?.isSome = true ∨
    op.length = .fixed 2 ∧ (op.wideLength? = none ∨ op.wideLength? = some 4))
    (by decide +kernel) op h

end Opcode

namespace Insn

/-- The cursor that sits on an instruction. -/
def cursor (code : Array UInt8) (i : Insn) : Cursor :=
  { code := code, position := i.bci, next := i.next, opcode := i.opcode, wide := i.wide }

variable {code : Array UInt8} {bci : Nat} {i : Insn}

theorem read_ok_iff : read code bci = .ok i ↔
    Cursor.moveTo bci (.ofCode code) = .ok i.opcode (i.cursor code) ∧ i.bci = bci ∧
      (i.cursor code).targets = .ok i.targets ∧ (i.fallsThrough = true → i.next < code.size) := by
  unfold read
  cases hm : Cursor.moveTo bci (.ofCode code) with
  | error fault c => simp
  | ok opcode c =>
    obtain ⟨hcode, hpos, hop, -, -⟩ := Cursor.moveTo_progress hm
    simp only
    have hc : c = { code := code, position := bci, next := c.next, opcode := opcode, wide := c.wide } := by
      rw [← hpos, ← hop]; cases c; cases hcode; rfl
    cases ht : c.targets with
    | error fault =>
      constructor
      · intro h; cases h
      · rintro ⟨h, -, htargets, -⟩
        cases h; rw [ht] at htargets; cases htargets
    | ok targets =>
      simp only
      split
      · rename_i hf
        constructor
        · intro h; cases h
        · rintro ⟨h, -, -, hfalls⟩
          cases h; exact absurd (hfalls hf.1) (Nat.not_lt.2 hf.2)
      · rename_i hf
        constructor
        · intro h
          cases h
          refine ⟨by rw [hc]; rfl, rfl, ?_, fun h => ?_⟩
          · rw [← ht]; exact congrArg Cursor.targets hc.symm
          · exact Nat.lt_of_not_le fun hle => hf ⟨h, hle⟩
        · rintro ⟨h, rfl, htargets, -⟩
          cases h
          exact congrArg (fun ts => Except.ok (Insn.mk _ _ _ _ ts))
            (Except.ok.inj (ht.symm.trans htargets))

/-- A cursor anywhere on the code can move to an instruction. -/
theorem moveTo_of_read (h : read code bci = .ok i) {c : Cursor} (hc : c.code = code) :
    Cursor.moveTo bci c = .ok i.opcode (i.cursor code) := by
  obtain ⟨hm, hbci, -, -⟩ := read_ok_iff.1 h
  obtain ⟨first, wide, n, hfirst, hopcode, hlength, hsize, hcursor⟩ := Cursor.moveTo_ok_iff.1 hm
  subst hc
  exact Cursor.moveTo_ok_iff.2 ⟨first, wide, n, hfirst, hopcode, hlength, hsize, by
    rw [hcursor]; rfl⟩

theorem bci_of_read (h : read code bci = .ok i) : i.bci = bci := (read_ok_iff.1 h).2.1

theorem targets_of_read (h : read code bci = .ok i) : (i.cursor code).targets = .ok i.targets :=
  (read_ok_iff.1 h).2.2.1

theorem next_lt_of_read (h : read code bci = .ok i) (hf : i.fallsThrough = true) :
    i.next < code.size := (read_ok_iff.1 h).2.2.2 hf

/-- Only a branch, a jump, a call or a switch names targets. -/
theorem targets_eq_nil_of_read (h : read code bci = .ok i)
    (hf : i.flow = .next ∨ i.flow = .ret ∨ i.flow = .leave ∨ i.flow = .throw) : i.targets = [] := by
  have ht := targets_of_read h
  have hflow : (i.cursor code).opcode.flow = i.flow := rfl
  unfold Cursor.targets at ht
  rw [hflow] at ht
  rcases hf with hf | hf | hf | hf <;> (rw [hf] at ht; exact (Except.ok.inj ht).symm)

/-- A branch, a jump or a call names one target. -/
theorem branchTarget_of_read (h : read code bci = .ok i)
    (hf : i.flow = .branch ∨ i.flow = .goto ∨ i.flow = .jsr) :
    ∃ t, (i.cursor code).branchTarget = .ok t ∧ i.targets = [t] := by
  have ht := targets_of_read h
  have hflow : (i.cursor code).opcode.flow = i.flow := rfl
  unfold Cursor.targets at ht
  rw [hflow] at ht
  cases hb : (i.cursor code).branchTarget with
  | error fault => rcases hf with hf | hf | hf <;> (rw [hf, hb] at ht; cases ht)
  | ok t =>
    refine ⟨t, rfl, ?_⟩
    rcases hf with hf | hf | hf <;> (rw [hf, hb] at ht; exact (Except.ok.inj ht).symm)

/-- A switch names the target of its default case and those of its cases. -/
theorem jumpTable_of_read (h : read code bci = .ok i) (hf : i.flow = .switch) :
    ∃ t ts, (i.cursor code).jumpTable = .ok (t, ts) ∧ i.targets = t :: ts := by
  have ht := targets_of_read h
  have hflow : (i.cursor code).opcode.flow = i.flow := rfl
  unfold Cursor.targets at ht
  rw [hflow, hf] at ht
  cases hj : (i.cursor code).jumpTable with
  | error fault => rw [hj] at ht; cases ht
  | ok p => obtain ⟨t, ts⟩ := p; exact ⟨t, ts, rfl, by rw [hj] at ht; exact (Except.ok.inj ht).symm⟩

/-- The local of a store or a `ret` can be read. -/
theorem exists_localSlot (h : read code bci = .ok i) (hu : i.opcode.usesLocal = true) :
    ∃ slot, (i.cursor code).localSlot = .ok slot := by
  obtain ⟨hm, rfl, -, -⟩ := read_ok_iff.1 h
  obtain ⟨first, wide, n, -, -, hlength, hsize, hcursor⟩ := Cursor.moveTo_ok_iff.1 hm
  have hwide : i.wide = wide := congrArg Cursor.wide hcursor
  have hcode : (Cursor.ofCode code).code = code := rfl
  unfold Cursor.localSlot
  rcases Opcode.slot_of_usesLocal hu with himplied | ⟨hfixed, hwideLength⟩
  · obtain ⟨slot, hslot⟩ := Option.isSome_iff_exists.1 himplied
    exact ⟨slot, by simp [cursor, hslot]⟩
  · cases himplied : i.opcode.impliedSlot? with
    | some slot => exact ⟨slot, by simp [cursor, himplied]⟩
    | none =>
      cases wide with
      | true =>
        have hn : n = 4 := by
          simp only [Cursor.length, if_true] at hlength
          rcases hwideLength with hw | hw <;> rw [hw] at hlength <;> cases hlength
          rfl
        have hle : i.bci + 2 + 2 ≤ code.size := by rw [hcode] at hsize; omega
        exact ⟨_, by simp only [cursor, himplied, hwide, if_true, Cursor.unsignedAt, if_pos hle]; rfl⟩
      | false =>
        have hn : n = 2 := by
          simp only [Cursor.length, Bool.false_eq_true, if_false, hfixed] at hlength
          cases hlength; rfl
        have hle : i.bci + 1 + 1 ≤ code.size := by rw [hcode] at hsize; omega
        exact ⟨_, by
          simp only [cursor, himplied, hwide, Bool.false_eq_true, if_false, Cursor.unsignedAt, if_pos hle]
          rfl⟩

/-! ## The sweep -/

theorem sweepFrom_spec : ∀ {bci : Nat} {l : List Insn}, sweepFrom code bci = .ok l →
    (∃ i ∈ l, i.bci = bci) ∧ ∀ i ∈ l, read code i.bci = .ok i ∧
      (i.next < code.size → ∃ k ∈ l, k.bci = i.next) := by
  intro bci
  fun_induction sweepFrom code bci with
  | case1 bci fault h => intro l hl; cases hl
  | case2 bci i h hlt ih =>
    intro l hl
    cases hrest : sweepFrom code i.next with
    | error fault => rw [hrest] at hl; cases hl
    | ok rest =>
      rw [hrest] at hl; cases hl
      obtain ⟨⟨k, hk, hkbci⟩, ih⟩ := ih hrest
      have hbci := bci_of_read h
      refine ⟨⟨i, List.mem_cons_self, hbci⟩, fun j hj => ?_⟩
      rcases List.mem_cons.1 hj with rfl | hj
      · exact ⟨hbci ▸ h, fun _ => ⟨k, List.mem_cons_of_mem _ hk, hkbci⟩⟩
      · obtain ⟨hread, hnext⟩ := ih j hj
        refine ⟨hread, fun hlt => ?_⟩
        obtain ⟨k, hk, hkbci⟩ := hnext hlt
        exact ⟨k, List.mem_cons_of_mem _ hk, hkbci⟩
  | case3 bci i h hge =>
    intro l hl
    cases hl
    have hbci := bci_of_read h
    refine ⟨⟨i, List.mem_singleton_self i, hbci⟩, fun j hj => ?_⟩
    cases List.mem_singleton.1 hj
    exact ⟨hbci ▸ h, fun hlt => absurd hlt hge⟩

theorem read_of_mem_sweep {l : List Insn} (h : sweep code = .ok l) (hi : i ∈ l) :
    read code i.bci = .ok i := ((sweepFrom_spec h).2 i hi).1

/-- After an instruction that does not end the code comes another one. -/
theorem exists_next_of_mem_sweep {l : List Insn} (h : sweep code = .ok l) (hi : i ∈ l)
    (hlt : i.next < code.size) : ∃ k ∈ l, k.bci = i.next := ((sweepFrom_spec h).2 i hi).2 hlt

theorem exists_first_of_sweep {l : List Insn} (h : sweep code = .ok l) : ∃ i ∈ l, i.bci = 0 :=
  (sweepFrom_spec h).1

end Insn
end BlockGraph
