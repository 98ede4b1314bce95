import BlockGraph.Proofs.Assembly.Homes
import BlockGraph.Proofs.Layout.Starts

/-!
# Settings

What stays the same while the graph of a method is made: its survey, the table of its blocks and the
handlers that its scope declares. `Catches` says to which block of a copy a declared handler leads.
-/

namespace BlockGraph

/-- A handler with the block where it starts. -/
def BlockTable.resolve (t : BlockTable) (x : Handler) : Handler :=
  { x with entry := x.entryIndex?.bind t.get }

/-- A surveyed method with a table of its blocks. -/
structure Setting where
  method : Method
  survey : Survey
  surveyed : Survey.ofMethod method.code method.handlers = .ok survey
  table : BlockTable
  isSome_get : ∀ bci, (table.get bci).isSome = true ↔ bci ∈ survey.starts
  /-- Every handler of the method has code. -/
  coded : ∀ x ∈ method.handlers, x.isUnlock = false
  /-- The declared handlers without code. -/
  unlocks : List Handler
  unlock : ∀ x ∈ unlocks, x.target = .unlock ∧ ∀ bci, bci < method.code.size → x.protects bci = true
  /-- Only a synchronized method is given one. -/
  single : unlocks.length ≤ 1

namespace Setting

variable (st : Setting)

/-- The declared handlers, in order. -/
def handlers : List Handler := st.method.handlers.map st.table.resolve ++ st.unlocks

/-- The scope of the method. -/
def scope : Scope := { Scope.root st.method with handlers := st.handlers }

theorem read_of_mem {i : Insn} (hi : i ∈ st.survey.insns) :
    Insn.read st.method.code i.bci = .ok i := Survey.read_of_mem st.surveyed hi

theorem exists_get {bci : Nat} (h : bci ∈ st.survey.starts) : ∃ b, st.table.get bci = some b :=
  Option.isSome_iff_exists.1 ((st.isSome_get bci).2 h)

theorem mem_starts_of_get {bci : Nat} {b : BlockId} (h : st.table.get bci = some b) :
    bci ∈ st.survey.starts := (st.isSome_get bci).1 (by rw [h]; rfl)

/-- A declared handler with code comes from the method. -/
theorem exists_handler_of_code {x : Handler} {bci : Nat} (hx : x ∈ st.handlers)
    (ht : x.target = .code bci) : ∃ y ∈ st.method.handlers, x = st.table.resolve y ∧
      y.entryIndex? = some bci := by
  rcases List.mem_append.1 hx with hx | hx
  · obtain ⟨y, hy, rfl⟩ := List.mem_map.1 hx
    have hty : y.target = .code bci := ht
    exact ⟨y, hy, rfl, by simp [Handler.entryIndex?, hty]⟩
  · rw [(st.unlock x hx).1] at ht; cases ht

theorem handler_mem_starts {x : Handler} {bci : Nat} (hx : x ∈ st.handlers)
    (ht : x.target = .code bci) : bci ∈ st.survey.starts := by
  obtain ⟨y, hy, -, hb⟩ := st.exists_handler_of_code hx ht
  exact Survey.handler_mem_starts st.surveyed hy hb

theorem entry_eq_get {x : Handler} {bci : Nat} (hx : x ∈ st.handlers) (ht : x.target = .code bci) :
    x.entry = st.table.get bci := by
  obtain ⟨y, -, rfl, hb⟩ := st.exists_handler_of_code hx ht
  show y.entryIndex?.bind st.table.get = _
  rw [hb]; rfl

/-- The handlers of the method itself have code. -/
theorem mem_unlocks {x : Handler} (hx : x ∈ st.handlers) (ht : x.target = .unlock) :
    x ∈ st.unlocks := by
  refine (List.mem_append.1 hx).resolve_left fun hx => ?_
  obtain ⟨y, hy, rfl⟩ := List.mem_map.1 hx
  have hty : y.target = .unlock := ht
  have hy := st.coded y hy
  simp [Handler.isUnlock, hty] at hy

theorem unlock_protects {x : Handler} (hx : x ∈ st.handlers) (ht : x.target = .unlock) {bci : Nat}
    (hb : bci < st.method.code.size) : x.protects bci = true :=
  (st.unlock x (st.mem_unlocks hx ht)).2 bci hb

/-- There is one handler without code at most. -/
theorem unlock_unique {x y : Handler} (hx : x ∈ st.handlers) (hy : y ∈ st.handlers)
    (htx : x.target = .unlock) (hty : y.target = .unlock) : x = y := by
  have hsingle := st.single
  have hx := st.mem_unlocks hx htx
  have hy := st.mem_unlocks hy hty
  generalize st.unlocks = l at hsingle hx hy
  match l with
  | [] => cases hx
  | [z] => rw [List.mem_singleton.1 hx, List.mem_singleton.1 hy]
  | _ :: _ :: _ => simp at hsingle

end Setting

/-- A declared handler leads to block `d` in the copy that was made for a call. The handler without
code leads to the same block everywhere. -/
def Catches (home : Homes) (g : Graph) (call : Option BlockId) (x : Handler) (d : BlockId) : Prop :=
  match x.target with
  | .code bci => g.LiesAt home call bci d
  | .unlock => x.entry = some d ∧ d < g.blocks.size ∧ (g.block d).site = .unlock

section
variable {home home' : Homes} {g g' : Graph} {call : Option BlockId} {x : Handler} {d : BlockId}

theorem Catches.lt (h : Catches home g call x d) : d < g.blocks.size := by
  unfold Catches at h
  cases ht : x.target with
  | code bci => rw [ht] at h; exact h.lt
  | unlock => rw [ht] at h; exact h.2.1

theorem Catches.site (h : Catches home g call x d) : (g.block d).site = x.target := by
  unfold Catches at h
  cases ht : x.target with
  | code bci => rw [ht] at h; exact h.site
  | unlock => rw [ht] at h; exact h.2.2

theorem Catches.grows (h : Catches home g call x d) (hg : Grows home g home' g') :
    Catches home' g' call x d := by
  unfold Catches at h ⊢
  cases ht : x.target with
  | code bci => rw [ht] at h; exact hg.liesAt h
  | unlock => rw [ht] at h; exact ⟨h.1, hg.lt h.2.1, (hg.site h.2.1).trans h.2.2⟩

end

end BlockGraph
