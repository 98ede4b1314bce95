import BlockGraph.Bytecode.Sweep
import BlockGraph.Method

/-!
# The control machine of a method

What a method may do as far as control goes: the code decides where control can go from an instruction,
and the exception table where an exception may take it. `Traces` lists what is seen of the finite runs of
a system; bisimilar states have the same traces (`traces_iff_of_bisimilar`).
-/

namespace BlockGraph

/-- Where control is in the code, and where the calls that are open come back to, innermost first. -/
structure Control where
  bci : Nat
  returns : List Nat := []
deriving DecidableEq, Repr

/-- Where control may go after an instruction, when these calls are open. -/
def Insn.goes (i : Insn) (returns : List Nat) : List Control :=
  match i.flow with
  | .next => [⟨i.next, returns⟩]
  | .branch => i.targets.map (⟨·, returns⟩) ++ [⟨i.next, returns⟩]
  | .goto | .switch => i.targets.map (⟨·, returns⟩)
  | .jsr => i.targets.map (⟨·, i.next :: returns⟩)
  | .ret => match returns with
    | [] => []
    | r :: outer => [⟨r, outer⟩]
  | .leave | .throw => []

/-- A step of control: after the instruction, or to a handler that protects it. -/
inductive Method.Step (m : Method) (c : Control) : Control → Prop where
  | goes {i : Insn} {d : Control} :
    Insn.read m.code c.bci = .ok i → d ∈ i.goes c.returns → m.Step c d
  | caught {x : Handler} {entry : Nat} : x ∈ m.handlers → x.protects c.bci = true →
    x.entryIndex? = some entry → m.Step c ⟨entry, c.returns⟩

/-! ## Traces -/

/-- What is seen of a finite run from a state: one label for each state that it passes through. -/
inductive Traces {α β : Type} (Step : α → α → Prop) (label : α → β) : α → List β → Prop where
  | stop {a : α} : Traces Step label a [label a]
  | step {a b : α} {l : List β} : Step a b → Traces Step label b l → Traces Step label a (label a :: l)

section
variable {α α' β : Type} {Step : α → α → Prop} {Step' : α' → α' → Prop} {label : α → β}
  {label' : α' → β} {R : α → α' → Prop}

theorem Traces.simulate (hlabel : ∀ {a a'}, R a a' → label a = label' a')
    (hstep : ∀ {a a' b}, R a a' → Step a b → ∃ b', Step' a' b' ∧ R b b') {a : α} {l : List β}
    (h : Traces Step label a l) : ∀ {a' : α'}, R a a' → Traces Step' label' a' l := by
  induction h with
  | stop => intro a' hR; rw [hlabel hR]; exact .stop
  | step hab _ ih =>
    intro a' hR
    obtain ⟨b', hab', hR'⟩ := hstep hR hab
    rw [hlabel hR]
    exact .step hab' (ih hR')

/-- Of two states that can follow each other's steps the same is seen. -/
theorem traces_iff_of_bisimilar (hlabel : ∀ {a a'}, R a a' → label a = label' a')
    (hforth : ∀ {a a' b}, R a a' → Step a b → ∃ b', Step' a' b' ∧ R b b')
    (hback : ∀ {a a' b'}, R a a' → Step' a' b' → ∃ b, Step a b ∧ R b b') {a : α} {a' : α'}
    (hR : R a a') {l : List β} : Traces Step label a l ↔ Traces Step' label' a' l := by
  constructor
  · intro h
    exact h.simulate (R := R) hlabel hforth hR
  · intro h
    exact h.simulate (R := fun a' a => R a a') (fun h => (hlabel h).symm) hback hR

end

end BlockGraph
