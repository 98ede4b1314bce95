import BlockGraph.Assembly

/-!
# Room for one more block

Putting one more block into a graph moves every block behind its place one index up. `shift` renames
indices that way, and here it is carried over to whatever refers to blocks: exits, handlers, tables and
contexts. Renaming tells blocks apart as well as before, so looking something up and renaming the answer
is the same as looking it up under its new name.
-/

namespace BlockGraph

/-! ## Indices -/

/-- The index of a block once another one has been put in at `n`. -/
def shift (n b : Nat) : Nat := if b < n then b else b + 1

section
variable {n b c : Nat}

theorem shift_of_lt (h : b < n) : shift n b = b := if_pos h

theorem shift_of_le (h : n ≤ b) : shift n b = b + 1 := if_neg (Nat.not_lt.2 h)

theorem shift_ne (n b : Nat) : shift n b ≠ n := by
  unfold shift
  split <;> omega

theorem shift_injective (n : Nat) : Function.Injective (shift n) := by
  intro b c h
  unfold shift at h
  split at h <;> split at h <;> omega

@[simp] theorem shift_inj : shift n b = shift n c ↔ b = c := (shift_injective n).eq_iff

theorem shift_lt_succ_iff {size : Nat} (h : n ≤ size) : shift n b < size + 1 ↔ b < size := by
  unfold shift
  split <;> omega

/-- Every other index is the new one of some block. -/
theorem exists_shift (h : c ≠ n) : ∃ b, c = shift n b := by
  rcases Nat.lt_or_ge c n with hlt | hge
  · exact ⟨c, (shift_of_lt hlt).symm⟩
  · refine ⟨c - 1, ?_⟩
    have hpos : c ≠ n := h
    rw [shift_of_le (by omega)]
    omega

theorem mem_map_shift {l : List BlockId} : shift n b ∈ l.map (shift n) ↔ b ∈ l :=
  (List.mem_map.trans ⟨fun ⟨_, hc, he⟩ => shift_inj.1 he ▸ hc, fun hb => ⟨b, hb, rfl⟩⟩)

theorem map_shift_eq_some {o : Option BlockId} : o.map (shift n) = some (shift n b) ↔ o = some b := by
  cases o <;> simp

theorem map_shift_ne_some (o : Option BlockId) : o.map (shift n) ≠ some n := by
  cases o <;> simp [shift_ne]

end

/-! ## Exits, blocks and instructions -/

theorem eraseDups_map {α β : Type} [DecidableEq α] [DecidableEq β] {f : α → β} (hf : Function.Injective f) :
    ∀ l : List α, (l.map f).eraseDups = l.eraseDups.map f
  | [] => rfl
  | a :: l => by
    have hsame : ((fun b => !b == f a) ∘ f) = fun b => !b == a := by
      funext b
      refine congrArg (!·) (Bool.eq_iff_iff.2 ?_)
      rw [beq_iff_eq, beq_iff_eq, hf.eq_iff]
    have hfilter : (l.map f).filter (fun b => !b == f a) = (l.filter fun b => !b == a).map f := by
      rw [List.filter_map, hsame]
    rw [List.map_cons, List.eraseDups_cons, List.eraseDups_cons, List.map_cons, hfilter,
      eraseDups_map hf (l.filter fun b => !b == a)]
termination_by l => l.length
decreasing_by exact Nat.lt_succ_of_le (List.length_filter_le _ _)

namespace Exit

/-- The same exit of the renamed blocks. -/
def shift (n : BlockId) : Exit → Exit
  | .goto target => .goto (BlockGraph.shift n target)
  | .branch taken notTaken => .branch (BlockGraph.shift n taken) (BlockGraph.shift n notTaken)
  | .switch fallback cases => .switch (BlockGraph.shift n fallback) (cases.map (BlockGraph.shift n))
  | .jsr entry continuation => .jsr (BlockGraph.shift n entry) (BlockGraph.shift n continuation)
  | .ret target => .ret (BlockGraph.shift n target)
  | .leave => .leave
  | .throw => .throw

theorem successors_shift (n : BlockId) (x : Exit) :
    (x.shift n).successors = x.successors.map (BlockGraph.shift n) := by
  cases x with
  | switch fallback cases => exact eraseDups_map (shift_injective n) (fallback :: cases)
  | goto | branch | jsr | ret | leave | throw => rfl

end Exit

namespace Block

/-- The same block with everything that it refers to renamed. -/
def shift (n : BlockId) (y : Block) : Block :=
  { y with
    exit := y.exit.map (Exit.shift n)
    predecessors := y.predecessors.map (BlockGraph.shift n)
    handlers := y.handlers.map (BlockGraph.shift n) }

/-- A block apart from its edge to the handler at `n`. -/
def without (n : BlockId) (y : Block) : Block := { y with handlers := y.handlers.filter (· ≠ n) }

end Block

/-- The same instruction in the renamed block. -/
def Instr.shift (n : BlockId) (i : Instr) : Instr := { i with block := BlockGraph.shift n i.block }

/-! ## Handlers and tables -/

namespace Handler

/-- The same handler with its entry renamed. -/
def shift (n : BlockId) (h : Handler) : Handler := { h with entry := h.entry.map (BlockGraph.shift n) }

theorem shift_eq_self {n : BlockId} {x : Handler} (h : ∀ b, x.entry = some b → b < n) : x.shift n = x := by
  obtain ⟨first, limit, target, catchType, entry⟩ := x
  cases entry with
  | none => rfl
  | some b =>
    have hb : BlockGraph.shift n b = b := shift_of_lt (h b rfl)
    simp [shift, hb]

/-- The handler without code of a method of the given size, which leads to block `n`. -/
def unlocking (size : Nat) (n : BlockId) : Handler :=
  { first := 0, limit := size, target := .unlock, catchType := 0, entry := some n }

end Handler

namespace BlockTable

/-- The same table of renamed blocks. -/
def map (f : BlockId → BlockId) (t : BlockTable) : BlockTable := ⟨t.entries.map (Option.map f)⟩

variable (f : BlockId → BlockId) (t : BlockTable)

@[simp] theorem get_map (bci : Nat) : (t.map f).get bci = (t.get bci).map f := by
  unfold get map
  rw [Array.getElem?_map]
  cases t.entries[bci]? <;> rfl

theorem map_set (bci : Nat) (b : BlockId) : (t.set bci b).map f = (t.map f).set bci (f b) := by
  simp only [set, map, Array.map_setIfInBounds, Option.map_some]

theorem map_blank (size : Nat) : (blank size).map f = blank size := by
  simp only [blank, map, Array.map_replicate, Option.map_none]

/-- Nothing changes if the blocks of a table keep their names. -/
theorem map_eq_self {f : BlockId → BlockId} {t : BlockTable} (h : ∀ bci b, t.get bci = some b → f b = b) :
    t.map f = t := by
  obtain ⟨entries⟩ := t
  unfold map
  congr 1
  refine Array.ext (Array.size_map) fun bci _ hbci => ?_
  rw [Array.getElem_map]
  cases hentry : entries[bci] with
  | none => rfl
  | some b => rw [Option.map_some, h bci b (by simp [get, hbci, hentry])]

end BlockTable

/-! ## Contexts -/

namespace Subroutine

/-- The same subroutine with its blocks renamed, where the handler without code is declared after the
others. -/
def shift (size : Nat) (n : BlockId) (sub : Subroutine) : Subroutine :=
  { sub with
    copies := sub.copies.map (BlockGraph.shift n)
    handlers := sub.handlers.map fun hs => hs.map (Handler.shift n) ++ [.unlocking size n] }

end Subroutine

namespace Context

/-- The same context with its blocks renamed, where the handler without code is declared after the others.
More blocks wait at the end of its agenda. -/
def shift (size : Nat) (n : BlockId) (waiting : List (BlockId × Nat)) (c : Context) : Context :=
  { c with
    table := c.table.map (BlockGraph.shift n)
    guarded := true
    agenda := ⟨c.agenda.entries.map (Prod.map (BlockGraph.shift n) id) ++ waiting⟩
    continuation := c.continuation.map (BlockGraph.shift n)
    subroutine := c.subroutine.map (Subroutine.shift size n)
    resume := c.resume.map (BlockGraph.shift n) }

variable {size : Nat} {n : BlockId} {waiting : List (BlockId × Nat)} {c : Context}

@[simp] theorem isSubroutine_shift : (c.shift size n waiting).isSubroutine = c.isSubroutine := by
  simp [isSubroutine, shift]

@[simp] theorem entryIndex_shift : (c.shift size n waiting).entryIndex = c.entryIndex := by
  cases hsub : c.subroutine <;> simp [entryIndex, shift, hsub, Subroutine.shift]

theorem keepCopy_shift (bci : Nat) (copy : BlockId) :
    (c.shift size n waiting).keepCopy bci (BlockGraph.shift n copy) =
      (c.keepCopy bci copy).shift size n waiting := by
  cases hsub : c.subroutine <;> simp [keepCopy, shift, hsub, Subroutine.shift, BlockTable.map_set]

theorem setHandlers_shift (hs : List Handler) :
    { c.shift size n waiting with
      subroutine := (c.shift size n waiting).subroutine.map
        ({ · with handlers := some (hs.map (Handler.shift n) ++ [.unlocking size n]) }) } =
      ({ c with subroutine := c.subroutine.map ({ · with handlers := some hs }) } : Context).shift size n
        waiting := by
  cases hsub : c.subroutine <;> simp [shift, hsub, Subroutine.shift]

/-- A subroutine is entered in the same way, with no copies yet. -/
theorem enter_shift (hsub : c.subroutine = none) (entry : Nat) :
    (c.shift size n waiting).enter entry = (c.enter entry).map (·.shift size n waiting) := by
  unfold enter
  split
  · rfl
  · simp [shift, hsub, Subroutine.shift, BlockTable.map_blank, Except.map]

end Context
end BlockGraph
