/-!
# Handlers

An entry of an exception table protects a range of the code. Its handler is code of the method,
or else it is the unlock entry, which stands for the handler that a synchronized method is given:
that one has no code, it unlocks and throws again.
-/

namespace BlockGraph

/-- Index of a block in its graph. -/
abbrev BlockId := Nat

/-- Where a block or an instruction comes from. -/
inductive Site where
  /-- The code at an index. -/
  | code (bci : Nat)
  /-- The handler without code. -/
  | unlock
deriving DecidableEq, Repr, Inhabited

namespace Site

/-- The index that stands for the unlock entry where an index is asked for: the last 64-bit word, which no
code reaches (`SYNCHRONIZATION_ENTRY_BCI`). -/
def unlockIndex : Nat := 0xffffffffffffffff

/-- A site as an index. -/
def index : Site → Nat
  | .code bci => bci
  | .unlock => unlockIndex

/-- The site that an index stands for. -/
def ofIndex (index : Nat) : Site := if index = unlockIndex then .unlock else .code index

theorem index_ofIndex (n : Nat) : (ofIndex n).index = n := by
  unfold ofIndex; split
  · rename_i h; exact h.symm
  · rfl

theorem ofIndex_index {s : Site} (h : s ≠ .code unlockIndex) : ofIndex s.index = s := by
  cases s with
  | unlock => rfl
  | code bci =>
    have : bci ≠ unlockIndex := fun e => h (by rw [e])
    simp [index, ofIndex, this]

end Site

/-- An entry of an exception table (`ExceptionHandler`). -/
structure Handler where
  /-- First protected index. -/
  first : Nat
  /-- First index after the protected range. -/
  limit : Nat
  /-- Where the handler starts. -/
  target : Site
  /-- Index of the class that is caught, zero for every class. -/
  catchType : Nat
  /-- The block where the handler starts, once it is known. -/
  entry : Option BlockId := none
deriving DecidableEq, Repr

namespace Handler

/-- Is the instruction at this index protected (`ExceptionHandler::covers`)? -/
def protects (h : Handler) (bci : Nat) : Bool := h.first ≤ bci && bci < h.limit

/-- Does the handler catch every class (`ExceptionHandler::is_catch_all`)? -/
def catchesAll (h : Handler) : Bool := h.catchType == 0

/-- Is this the handler without code (`ExceptionHandler::is_synchronization_entry`)? -/
def isUnlock (h : Handler) : Bool := h.target == .unlock

/-- The index where the handler's code starts, if it has code. -/
def entryIndex? (h : Handler) : Option Nat :=
  match h.target with
  | .code bci => some bci
  | .unlock => none

theorem isUnlock_iff (h : Handler) : h.isUnlock = true ↔ h.entryIndex? = none := by
  cases ht : h.target <;> simp [isUnlock, entryIndex?, ht]

end Handler
end BlockGraph
