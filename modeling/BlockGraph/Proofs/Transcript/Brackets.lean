import BlockGraph.Proofs.Assembly.Lasting

/-!
# Transcripts

What can be read off a transcript: which contexts are open at a place of it (`around`), which blocks have been
scheduled and which parsed. `Event.Fits` says what an entry has to do with those before it, `Faithful` that
each entry fits. A block that waits has been announced, with no context open since then but those inside of
its own (`Announced`).
-/

namespace BlockGraph

namespace Event

/-- The block that the entry says to be scheduled. -/
def scheduled? : Event → Option BlockId
  | .scheduling b _ _ => some b
  | _ => none

/-- The block that the entry says to be parsed. -/
def parsed? : Event → Option BlockId
  | .parsing b _ _ => some b
  | _ => none

end Event

namespace Transcript

/-- The contexts that are open after an entry, innermost first, when `opened` are open before it. There are
none if a context is popped that is not the innermost open one. -/
def after (opened : List ContextLabel) : Event → Option (List ContextLabel)
  | .pushed c => some (c :: opened)
  | .popped c =>
    match opened with
    | [] => none
    | d :: outer => if c = d then some outer else none
  | _ => some opened

/-- The contexts that are open after some entries. -/
def around (opened : List ContextLabel) (l : List Event) : Option (List ContextLabel) := l.foldlM after opened

/-- Each context that is pushed is popped again, the innermost one first, and no other one is popped. -/
def WellNested (l : List Event) : Prop := around [] l = some []

instance (l : List Event) : Decidable (WellNested l) := inferInstanceAs (Decidable (_ = _))

/-- The blocks that are said to be scheduled, in order. -/
def scheduled (l : List Event) : List BlockId := l.filterMap Event.scheduled?

/-- The blocks that are said to be parsed, in order. -/
def parsed (l : List Event) : List BlockId := l.filterMap Event.parsed?

end Transcript

open Transcript

/-- What an entry has to do with those before it. The innermost open context is named where a block is
scheduled or parsed. Neither is said of a block twice, and a block that is parsed has been scheduled between
the same push and pop. -/
def Event.Fits (before : List Event) : Event → Prop
  | .scheduling b _ c => (∃ outer, around [] before = some (c :: outer)) ∧ b ∉ scheduled before
  | .parsing b _ c => (∃ outer, around [] before = some (c :: outer)) ∧ b ∉ parsed before ∧
      ∃ number earlier between,
        before = earlier ++ .scheduling b number c :: between ∧ WellNested between
  | _ => True

namespace Transcript

/-- Every entry fits those before it. -/
def Faithful (l : List Event) : Prop := ∀ before e rest, l = before ++ e :: rest → e.Fits before

variable {l l' added : List Event} {e : Event} {opened opened' inner inner' : List ContextLabel}
  {c : ContextLabel} {b : BlockId}

/-! ## Open contexts -/

theorem around_append (opened : List ContextLabel) (l l' : List Event) :
    around opened (l ++ l') = (around opened l).bind (around · l') := List.foldlM_append

theorem around_cons (opened : List ContextLabel) (e : Event) (l : List Event) :
    around opened (e :: l) = (after opened e).bind (around · l) := List.foldlM_cons

theorem around_singleton (opened : List ContextLabel) (e : Event) : around opened [e] = after opened e := by
  rw [around_cons]
  cases after opened e <;> rfl

/-- Only pushing and popping changes which contexts are open. -/
theorem after_of_isRemark (he : e.isRemark = true) : after opened e = some opened := by
  cases e <;> first | rfl | cases he

theorem around_of_isRemark : ∀ {l : List Event}, (∀ e ∈ l, e.isRemark = true) → around opened l = some opened
  | [], _ => rfl
  | e :: l, h => by
    rw [around_cons, after_of_isRemark (h e List.mem_cons_self)]
    exact around_of_isRemark fun e he => h e (List.mem_cons_of_mem _ he)

/-- Once all open contexts are popped, the transcript is well nested. -/
theorem around_popped : ∀ opened : List ContextLabel, around opened (opened.map .popped) = some []
  | [] => rfl
  | c :: opened => by
    rw [List.map_cons, around_cons]
    exact (congrArg (Option.bind · _) (if_pos rfl)).trans (around_popped opened)

theorem wellNested_of_around (h : around [] l = some opened) : WellNested (l ++ opened.map .popped) := by
  rw [WellNested, around_append, h]
  exact around_popped opened

/-! ## Remarks -/

theorem scheduled_of_isRemark (h : ∀ e ∈ l, e.isRemark = true) : scheduled l = [] := by
  refine List.filterMap_eq_nil_iff.2 fun e he => ?_
  have := h e he
  cases e <;> first | rfl | cases this

theorem parsed_of_isRemark (h : ∀ e ∈ l, e.isRemark = true) : parsed l = [] := by
  refine List.filterMap_eq_nil_iff.2 fun e he => ?_
  have := h e he
  cases e <;> first | rfl | cases this

theorem fits_of_isRemark (he : e.isRemark = true) : e.Fits l := by
  cases e <;> trivial

/-! ## Faithful transcripts -/

theorem faithful_nil : Faithful [] := fun before e rest h => by simp at h

theorem Faithful.concat (h : Faithful l) (he : e.Fits l) : Faithful (l ++ [e]) := by
  intro before e' rest hsplit
  rcases List.eq_nil_or_concat rest with rfl | ⟨rest, last, rfl⟩
  · obtain ⟨rfl, hsame⟩ := List.append_inj' hsplit rfl
    cases hsame
    exact he
  · have hsplit' : before ++ e' :: rest.concat last = (before ++ e' :: rest) ++ [last] := by simp
    rw [hsplit'] at hsplit
    exact h before e' rest (List.append_inj' hsplit rfl).1

theorem Faithful.append : ∀ {added l : List Event}, Faithful l → (∀ e ∈ added, e.isRemark = true) →
    Faithful (l ++ added)
  | [], l, h, _ => by rwa [List.append_nil]
  | e :: added, l, h, hadded => by
    rw [List.append_cons]
    exact (h.concat (fits_of_isRemark (hadded e List.mem_cons_self))).append fun e' he' =>
      hadded e' (List.mem_cons_of_mem _ he')

/-! ## Announced blocks -/

/-- In context `c` block `b` has been scheduled, and since then the contexts `inner` have been pushed inside
of that one and not yet popped. -/
def Announced (l : List Event) (inner : List ContextLabel) (c : ContextLabel) (b : BlockId) : Prop :=
  ∃ number earlier since, l = earlier ++ .scheduling b number c :: since ∧ around [] since = some inner

theorem Announced.append (h : Announced l inner c b) (hadded : around inner added = some inner') :
    Announced (l ++ added) inner' c b := by
  obtain ⟨number, earlier, since, rfl, hsince⟩ := h
  refine ⟨number, earlier, since ++ added, by simp, ?_⟩
  rw [around_append, hsince]
  exact hadded

theorem announced_scheduling (l : List Event) (b : BlockId) (number : Nat) (c : ContextLabel) :
    Announced (l ++ [.scheduling b number c]) [] c b := ⟨number, l, [], rfl, rfl⟩

theorem scheduled_append (l l' : List Event) : scheduled (l ++ l') = scheduled l ++ scheduled l' :=
  List.filterMap_append

theorem parsed_append (l l' : List Event) : parsed (l ++ l') = parsed l ++ parsed l' := List.filterMap_append

end Transcript
end BlockGraph
