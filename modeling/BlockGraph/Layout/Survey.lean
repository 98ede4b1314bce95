import BlockGraph.Bytecode.Sweep
import BlockGraph.Graph.Block

/-!
# Surveys

A survey of a method lists its instructions and the entries of its handlers, once both have been
checked against each other. From it one reads where blocks start, what kinds of entries those
starts are, and which start control can reach from which.
-/

namespace BlockGraph

/-! ## Marked indices -/

/-- For each index of the code, whether it is marked. -/
structure Marks where
  flags : Array Bool
deriving DecidableEq, Repr

namespace Marks

/-- Marks the listed indices of code of a given size; an index past the end is ignored. -/
def ofList (size : Nat) (indices : List Nat) : Marks :=
  ⟨indices.foldl (fun flags i => flags.setIfInBounds i true) (Array.replicate size false)⟩

/-- Is the index marked? -/
def has (m : Marks) (i : Nat) : Bool := m.flags[i]?.getD false

theorem getElem?_foldl (i : Nat) : ∀ (indices : List Nat) (flags : Array Bool),
    (indices.foldl (fun flags i => flags.setIfInBounds i true) flags)[i]? =
      if i ∈ indices ∧ i < flags.size then some true else flags[i]?
  | [], flags => by simp
  | j :: rest, flags => by
    rw [List.foldl_cons, getElem?_foldl i rest, Array.getElem?_setIfInBounds]
    by_cases hij : j = i
    · subst hij
      by_cases hs : j < flags.size <;> simp [hs]
    · simp [hij, Ne.symm hij]

theorem has_ofList {size : Nat} {indices : List Nat} {i : Nat} :
    (ofList size indices).has i = true ↔ i < size ∧ i ∈ indices := by
  unfold ofList has
  rw [getElem?_foldl, Array.size_replicate, Array.getElem?_replicate]
  by_cases hs : i < size <;> by_cases hi : i ∈ indices <;> simp [hs, hi]

end Marks

/-! ## Instructions and handlers -/

/-- The instructions of a method and where its handlers start. -/
structure Survey where
  /-- Size of the code. -/
  size : Nat
  insns : List Insn
  /-- Where the handlers with code start, in the order of the exception table. -/
  handlerEntries : List Nat
deriving DecidableEq, Repr

/-- Which indices are entries of each kind. -/
structure EntryMarks where
  handlers : Marks
  subroutines : Marks
  backward : Marks
deriving DecidableEq, Repr

/-- The flags of a block that starts at an index. -/
def EntryMarks.flagsAt (m : EntryMarks) (bci : Nat) : BlockFlags where
  standardEntry := bci == 0
  exceptionEntry := m.handlers.has bci
  subroutineEntry := m.subroutines.has bci
  backwardTarget := m.backward.has bci
  loopHeader := m.backward.has bci

namespace Survey

/-! ## Checks -/

/-- Every target is an instruction (`BlockMap::build`, behind its first pass). -/
def checkTargets (isInsn : Nat → Bool) : List Insn → Except Fault Unit
  | [] => .ok ()
  | i :: rest =>
    if i.targets.all isInsn then checkTargets isInsn rest
    else .error (.malformed i.bci .targetInside)

/-- Every handler with code protects a range of the code that is not empty, and starts at an instruction
(`BlockMap::build`, behind its first pass). -/
def checkHandlers (size : Nat) (isInsn : Nat → Bool) : List Handler → Except Fault Unit
  | [] => .ok ()
  | h :: rest =>
    match h.entryIndex? with
    | none => checkHandlers size isInsn rest
    | some bci =>
      if h.first < h.limit ∧ h.limit ≤ size ∧ bci < size ∧ isInsn bci then
        checkHandlers size isInsn rest
      else .error (.malformed bci .badHandler)

/-- Surveys a method, unless something is wrong with it (`BlockMap::build`, as far as to its second pass). -/
def ofMethod (code : Array UInt8) (handlers : List Handler) : Except Fault Survey := do
  if code.isEmpty then throw (.malformed 0 .noCode)
  let insns ← Insn.sweep code
  let isInsn := (Marks.ofList code.size (insns.map Insn.bci)).has
  checkTargets isInsn insns
  checkHandlers code.size isInsn handlers
  return { size := code.size, insns := insns, handlerEntries := handlers.filterMap (·.entryIndex?) }

/-! ## Starts -/

/-- Where blocks start: at the beginning, at every target and handler, and after every instruction that ends
a block, unless it is the last one (`starts` in `BlockMap::build`). -/
def startIndices (s : Survey) : List Nat :=
  0 :: (s.insns.flatMap fun i =>
    i.targets ++ if i.endsBlock && i.next < s.size then [i.next] else []) ++ s.handlerEntries

/-- Where subroutines start. -/
def subroutineEntries (s : Survey) : List Nat :=
  s.insns.flatMap fun i => if i.flow = .jsr then i.targets else []

/-- The targets of instructions at the same or a higher index. -/
def backwardTargets (s : Survey) : List Nat :=
  s.insns.flatMap fun i => i.targets.filter (· ≤ i.bci)

/-- The block starts, by increasing index. -/
def starts (s : Survey) : List Nat :=
  (List.range s.size).filter (Marks.ofList s.size s.startIndices).has

/-- Which indices are entries of each kind (`flags` in `BlockMap::build`). -/
def entryMarks (s : Survey) : EntryMarks where
  handlers := .ofList s.size s.handlerEntries
  subroutines := .ofList s.size s.subroutineEntries
  backward := .ofList s.size s.backwardTargets

/-! ## Edges -/

/-- The edges between block starts that some instructions give, in code order, when the first of
them belongs to the block that starts at `block` unless it starts one itself. -/
def edgesFrom (isStart : Nat → Bool) (block : Nat) : List Insn → List (Nat × Nat)
  | [] => []
  | i :: rest =>
    let block := if isStart i.bci then i.bci else block
    i.targets.map (block, ·) ++ (if i.fallsThrough && isStart i.next then [(block, i.next)] else []) ++
      edgesFrom isStart block rest

/-- The edges between block starts: the targets of the instructions of a block, and the next start where
control can fall into it (the second pass of `BlockMap::build`). -/
def edges (s : Survey) : List (Nat × Nat) :=
  edgesFrom (Marks.ofList s.size s.startIndices).has 0 s.insns

end Survey
end BlockGraph
