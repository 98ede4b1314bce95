import BlockGraph.Layout

/-!
# Faults of the layout

Decoding the code and laying out its blocks fail in one way only: something is wrong with the code or the
exception table, and the fault says at which index. `Decodes` says so of a result; main statement:
`decodes_layout`.
-/

namespace BlockGraph

/-- The fault lies in the code. -/
def Fault.IsMalformed (fault : Fault) : Prop := ∃ bci what, fault = .malformed bci what

/-- A result is missing only where the code is wrong. -/
def Decodes {α : Type} (x : Except Fault α) : Prop := ∀ fault, x = .error fault → fault.IsMalformed

namespace Decodes

variable {α β : Type} {x : Except Fault α}

theorem ok (a : α) : Decodes (.ok a : Except Fault α) := fun _ h => nomatch h

theorem malformed (bci : Nat) (what : Malformation) :
    Decodes (.error (.malformed bci what) : Except Fault α) := by
  rintro fault h
  cases h
  exact ⟨bci, what, rfl⟩

theorem bind {f : α → Except Fault β} (hx : Decodes x) (hf : ∀ a, Decodes (f a)) :
    Decodes (x >>= f) := by
  intro fault h
  cases x with
  | ok a => exact hf a fault h
  | error fault' =>
    cases h
    exact hx _ rfl

theorem map (f : α → β) (hx : Decodes x) : Decodes (x.map f) := by
  intro fault h
  cases x with
  | ok a => cases h
  | error fault' =>
    cases h
    exact hx _ rfl

end Decodes

namespace Cursor

variable (c : Cursor)

/-! ## Operands and targets -/

theorem decodes_unsignedAt (address width : Nat) : Decodes (c.unsignedAt address width) := by
  unfold unsignedAt
  split
  · exact .ok _
  · exact .malformed _ _

theorem decodes_signedAt (address width : Nat) : Decodes (c.signedAt address width) :=
  ((c.decodes_unsignedAt address width).bind fun _ => .ok _).map _

theorem decodes_targetOf (offset : Int) : Decodes (c.targetOf offset) := by
  unfold targetOf
  simp only
  split
  · exact .ok _
  · exact .malformed _ _

theorem decodes_targetAt (address : Nat) : Decodes (c.targetAt address) :=
  (c.decodes_signedAt address 4).bind c.decodes_targetOf

theorem decodes_branchTarget : Decodes c.branchTarget :=
  (c.decodes_signedAt _ _).bind c.decodes_targetOf

theorem decodes_targetsFrom (stride : Nat) : ∀ count address,
    Decodes (c.targetsFrom address stride count)
  | 0, _ => .ok _
  | count + 1, address => (c.decodes_targetAt address).bind fun _ =>
      (decodes_targetsFrom stride count (address + stride)).bind fun _ => .ok _

theorem decodes_jumpTable : Decodes c.jumpTable := by
  refine (c.decodes_targetAt _).bind fun fallback => ?_
  split
  · exact (c.decodes_signedAt _ _).bind fun low => (c.decodes_signedAt _ _).bind fun high =>
      (c.decodes_targetsFrom _ _ _).bind fun _ => .ok _
  · split
    · exact (c.decodes_signedAt _ _).bind fun pairs => (c.decodes_targetsFrom _ _ _).bind fun _ => .ok _
    · exact .malformed _ _

theorem decodes_targets : Decodes c.targets := by
  unfold targets
  split
  · exact c.decodes_branchTarget.map _
  · exact c.decodes_branchTarget.map _
  · exact c.decodes_branchTarget.map _
  · exact c.decodes_jumpTable.map _
  all_goals exact .ok _

theorem decodes_localSlot : Decodes c.localSlot := by
  unfold localSlot
  split
  · exact .ok _
  · split
    · exact c.decodes_unsignedAt _ _
    · exact c.decodes_unsignedAt _ _

/-- A switch has a default case. -/
theorem targets_ne_nil {ts : List Nat} (hf : c.opcode.flow = .switch) (ht : c.targets = .ok ts) :
    ts ≠ [] := by
  unfold targets at ht
  rw [hf] at ht
  cases hj : c.jumpTable with
  | error fault => rw [hj] at ht; cases ht
  | ok p => rw [hj] at ht; cases ht; exact List.cons_ne_nil _ _

/-! ## Moving -/

theorem decodes_switchLength : Decodes c.switchLength := by
  unfold switchLength
  simp only
  split
  · refine (c.decodes_signedAt _ _).bind fun low => (c.decodes_signedAt _ _).bind fun high => ?_
    split
    · exact (Decodes.malformed _ _).bind fun _ => .ok _
    · exact .ok _
  · refine (c.decodes_signedAt _ _).bind fun pairs => ?_
    split
    · exact (Decodes.malformed _ _).bind fun _ => .ok _
    · exact .ok _

theorem decodes_length : Decodes c.length := by
  unfold length
  split
  · split
    · exact .ok _
    · exact .malformed _ _
  · split
    · exact .ok _
    · exact c.decodes_switchLength
    · exact .malformed _ _

theorem isMalformed_of_moveTo {c d : Cursor} {bci : Nat} {fault : Fault}
    (h : moveTo bci c = .error fault d) : fault.IsMalformed := by
  unfold moveTo at h
  cases hfirst : c.code[bci]? with
  | none => rw [hfirst] at h; cases h; exact ⟨_, _, rfl⟩
  | some first =>
    rw [hfirst] at h
    simp only at h
    cases hopcode : opcodeAt? c.code bci first with
    | none => rw [hopcode] at h; cases h; exact ⟨_, _, rfl⟩
    | some p =>
      rw [hopcode] at h
      simp only at h
      cases hlength : Cursor.length { c with position := bci, opcode := p.1, wide := p.2 } with
      | error fault' =>
        rw [hlength] at h
        cases h
        exact decodes_length _ _ hlength
      | ok n =>
        rw [hlength] at h
        simp only at h
        split at h
        · cases h
        · cases h; exact ⟨_, _, rfl⟩

theorem isMalformed_of_advance {c d : Cursor} {fault : Fault} (h : advance c = .error fault d) :
    fault.IsMalformed := by
  unfold advance at h
  split at h
  · simp only [Functor.map, EStateM.map] at h
    cases hmove : moveTo c.next c with
    | error fault' d' => rw [hmove] at h; cases h; exact isMalformed_of_moveTo hmove
    | ok opcode d' => rw [hmove] at h; cases h
  · cases h

end Cursor

/-! ## The layout -/

theorem Insn.decodes_read (code : Array UInt8) (bci : Nat) : Decodes (Insn.read code bci) := by
  unfold Insn.read
  split
  · rename_i hmove
    intro fault h
    cases h
    exact Cursor.isMalformed_of_moveTo hmove
  · rename_i c hmove
    have htargets := c.decodes_targets
    split
    · rename_i htarget
      intro fault h
      cases h
      exact htargets _ htarget
    · split
      · exact .malformed _ _
      · exact .ok _

theorem Insn.decodes_sweepFrom (code : Array UInt8) (bci : Nat) : Decodes (Insn.sweepFrom code bci) := by
  fun_induction Insn.sweepFrom code bci with
  | case1 bci fault h =>
    intro fault' h'
    cases h'
    exact Insn.decodes_read code bci _ h
  | case2 bci i h hlt ih => exact ih.map _
  | case3 bci i h hge => exact .ok _

theorem Survey.decodes_checkTargets (isInsn : Nat → Bool) : ∀ l, Decodes (Survey.checkTargets isInsn l)
  | [] => .ok _
  | i :: rest => by
    unfold Survey.checkTargets
    split
    · exact decodes_checkTargets isInsn rest
    · exact .malformed _ _

theorem Survey.decodes_checkHandlers (size : Nat) (isInsn : Nat → Bool) :
    ∀ l, Decodes (Survey.checkHandlers size isInsn l)
  | [] => .ok _
  | x :: rest => by
    unfold Survey.checkHandlers
    split
    · exact decodes_checkHandlers size isInsn rest
    · split
      · exact decodes_checkHandlers size isInsn rest
      · exact .malformed _ _

theorem Survey.decodes_ofMethod (code : Array UInt8) (handlers : List Handler) :
    Decodes (Survey.ofMethod code handlers) := by
  unfold Survey.ofMethod
  have hchecked : Decodes (do
      let insns ← Insn.sweep code
      let isInsn := (Marks.ofList code.size (insns.map Insn.bci)).has
      Survey.checkTargets isInsn insns
      Survey.checkHandlers code.size isInsn handlers
      return ({ size := code.size, insns := insns,
                handlerEntries := handlers.filterMap (·.entryIndex?) } : Survey)) :=
    (Insn.decodes_sweepFrom code 0).bind fun insns => (decodes_checkTargets _ insns).bind fun _ =>
      (decodes_checkHandlers _ _ handlers).bind fun _ => .ok _
  split
  · exact (Decodes.malformed 0 .noCode).bind fun _ => hchecked
  · exact hchecked

/-- A method that cannot be laid out is malformed. -/
theorem decodes_layout (code : Array UInt8) (handlers : List Handler) :
    Decodes (layout code handlers) := (Survey.decodes_ofMethod code handlers).map _

end BlockGraph
