import BlockGraph.Assembly.Step

/-!
# Outcomes of actions

What an action on an assembly leads to, for its answers and for its faults at once. `Yields` says
it; the lemmas take an action apart, one for each way in which actions are put together. `Pairs` says
of two actions that they answer both or fail with the same fault.
-/

namespace BlockGraph
namespace Assembly

variable {α β : Type} {s : Assembly} {good : α → Assembly → Prop} {bad : Fault → Assembly → Prop}

/-- From `s` the action answers something `good`, or fails in a way that is `bad` at worst. -/
def Yields (x : Assemble α) (s : Assembly) (good : α → Assembly → Prop)
    (bad : Fault → Assembly → Prop) : Prop :=
  match x s with
  | .ok a t => good a t
  | .error fault t => bad fault t

theorem yields_pure {a : α} : Yields (pure a) s good bad ↔ good a s := Iff.rfl

theorem yields_bind {x : Assemble α} {f : α → Assemble β} {good : β → Assembly → Prop} :
    Yields (x >>= f) s good bad ↔ Yields x s (fun a t => Yields (f a) t good bad) bad := by
  simp only [Yields, bind, EStateM.bind]
  cases x s <;> rfl

theorem yields_get {good : Assembly → Assembly → Prop} :
    Yields get s good bad ↔ good s s := Iff.rfl

theorem yields_modify {f : Assembly → Assembly} {good : Unit → Assembly → Prop} :
    Yields (modify f) s good bad ↔ good () (f s) := Iff.rfl

theorem yields_modifyGet {f : Assembly → α × Assembly} :
    Yields (modifyGet f) s good bad ↔ good (f s).1 (f s).2 := Iff.rfl

theorem yields_ofExcept {x : Except Fault α} :
    Yields (ofExcept x) s good bad ↔
      match x with
      | .ok a => good a s
      | .error fault => bad fault s := by
  cases x <;> rfl

theorem yields_innermost {c : Context} {outer : List Context} {good : Context → Assembly → Prop}
    (hs : s.chain = c :: outer) : Yields innermost s good bad ↔ good c s := by
  simp [Yields, innermost, hs]

theorem yields_withCursor {act : EStateM Fault Cursor α} {c : Context} {outer : List Context}
    {a : α} {cursor : Cursor} (hs : s.chain = c :: outer) (ha : act c.cursor = .ok a cursor) :
    Yields (withCursor act) s good bad ↔
      good a { s with chain := { c with cursor := cursor } :: outer } := by
  simp [Yields, withCursor, hs, ha]

theorem Yields.mono {x : Assemble α} {good' : α → Assembly → Prop} {bad' : Fault → Assembly → Prop}
    (h : Yields x s good bad) (hgood : ∀ a t, good a t → good' a t)
    (hbad : ∀ fault t, bad fault t → bad' fault t) : Yields x s good' bad' := by
  unfold Yields at h ⊢
  cases hx : x s with
  | ok a t => rw [hx] at h; exact hgood a t h
  | error fault t => rw [hx] at h; exact hbad fault t h

/-- Two things known of the same action. -/
theorem Yields.and {x : Assemble α} {good' : α → Assembly → Prop} {bad' : Fault → Assembly → Prop}
    (h : Yields x s good bad) (h' : Yields x s good' bad') :
    Yields x s (fun a t => good a t ∧ good' a t) fun fault t => bad fault t ∧ bad' fault t := by
  unfold Yields at h h' ⊢
  cases hx : x s with
  | ok a t => rw [hx] at h h'; exact ⟨h, h'⟩
  | error fault t => rw [hx] at h h'; exact ⟨h, h'⟩

/-- The answers of an action, followed by what comes after it. -/
theorem Yields.bind {x : Assemble α} {f : α → Assemble β} {good' : β → Assembly → Prop}
    (h : Yields x s good bad) (hf : ∀ a t, good a t → Yields (f a) t good' bad) :
    Yields (x >>= f) s good' bad :=
  yields_bind.2 (h.mono hf fun _ _ hb => hb)

theorem Yields.of_ok {x : Assemble α} {a : α} {t : Assembly} (h : Yields x s good bad)
    (hx : x s = .ok a t) : good a t := by
  unfold Yields at h; rwa [hx] at h

/-- An action that cannot fail answers. -/
theorem Yields.exists_ok {x : Assemble α} (h : Yields x s good fun _ _ => False) :
    ∃ a t, x s = .ok a t ∧ good a t := by
  unfold Yields at h
  cases hx : x s with
  | ok a t => rw [hx] at h; exact ⟨a, t, rfl, h⟩
  | error fault t => rw [hx] at h; exact h.elim

/-- What an action in two parts has answered. -/
theorem exists_of_bind_ok {x : Assemble α} {f : α → Assemble β} {b : β} {t : Assembly}
    (h : (x >>= f) s = .ok b t) : ∃ a u, x s = .ok a u ∧ f a u = .ok b t := by
  simp only [bind, EStateM.bind] at h
  cases hx : x s with
  | ok a u => rw [hx] at h; exact ⟨a, u, rfl, h⟩
  | error fault u => rw [hx] at h; cases h

theorem Yields.of_error {x : Assemble α} {fault : Fault} {t : Assembly} (h : Yields x s good bad)
    (hx : x s = .error fault t) : bad fault t := by
  unfold Yields at h; rwa [hx] at h

/-! ## Two actions -/

section
variable {α' β' : Type} {s' : Assembly} {x : Assemble α} {x' : Assemble α'} {f : α → Assemble β}
  {f' : α' → Assemble β'} {mid mid' : α → Assembly → α' → Assembly → Prop}
  {both : β → Assembly → β' → Assembly → Prop}

/-- From `s` and `s'` two actions answer something that suits `both`, or they fail with the same fault. -/
def Pairs (x : Assemble α) (x' : Assemble α') (s s' : Assembly)
    (both : α → Assembly → α' → Assembly → Prop) : Prop :=
  match x s, x' s' with
  | .ok a t, .ok a' t' => both a t a' t'
  | .error fault _, .error fault' _ => fault' = fault
  | _, _ => False

theorem Pairs.bind (h : Pairs x x' s s' mid)
    (hf : ∀ a t a' t', mid a t a' t' → Pairs (f a) (f' a') t t' both) :
    Pairs (x >>= f) (x' >>= f') s s' both := by
  unfold Pairs at h
  cases hx : x s <;> cases hx' : x' s' <;> rw [hx, hx'] at h
  case ok.ok a t a' t' =>
    have hrest := hf a t a' t' h
    simp only [Pairs, Bind.bind, EStateM.bind, hx, hx'] at hrest ⊢
    exact hrest
  case error.error =>
    simp only [Pairs, Bind.bind, EStateM.bind, hx, hx']
    exact h
  case ok.error | error.ok => exact h.elim

/-- Two actions that answer, followed by what comes after them. -/
theorem Pairs.bind_ok {a : α} {a' : α'} {t t' : Assembly} (hx : x s = .ok a t) (hx' : x' s' = .ok a' t')
    (h : Pairs (f a) (f' a') t t' both) : Pairs (x >>= f) (x' >>= f') s s' both := by
  simp only [Pairs, Bind.bind, EStateM.bind, hx, hx'] at h ⊢
  exact h

theorem Pairs.mono (h : Pairs x x' s s' mid)
    (hmid : ∀ a t a' t', mid a t a' t' → mid' a t a' t') : Pairs x x' s s' mid' := by
  unfold Pairs at h ⊢
  cases hx : x s <;> cases hx' : x' s' <;> rw [hx, hx'] at h
  case ok.ok => exact hmid _ _ _ _ h
  case error.error => exact h
  case ok.error | error.ok => exact h.elim

/-- Only what the actions lead to matters. -/
theorem Pairs.of_eq {y : Assemble α} {y' : Assemble α'} {t t' : Assembly} (h : Pairs y y' t t' mid)
    (hx : x s = y t) (hx' : x' s' = y' t') : Pairs x x' s s' mid := by
  unfold Pairs at h ⊢
  rw [hx, hx']
  exact h

/-- What is known of each of the actions may tell that they go alike. -/
theorem Pairs.of_yields {good' : α' → Assembly → Prop} {bad' : Fault → Assembly → Prop}
    (h : Yields x s good bad) (h' : Yields x' s' good' bad')
    (hgood : ∀ a t a' t', good a t → good' a' t' → mid a t a' t')
    (hfails : ∀ a t fault t', good a t → ¬ bad' fault t') (hfails' : ∀ fault t a t', bad fault t → ¬ good' a t')
    (hbad : ∀ fault t fault' t', bad fault t → bad' fault' t' → fault' = fault) : Pairs x x' s s' mid := by
  unfold Yields at h h'
  unfold Pairs
  cases hx : x s <;> cases hx' : x' s' <;> rw [hx] at h <;> rw [hx'] at h'
  case ok.ok => exact hgood _ _ _ _ h h'
  case ok.error => exact hfails _ _ _ _ h h'
  case error.ok => exact hfails' _ _ _ _ h h'
  case error.error => exact hbad _ _ _ _ h h'

theorem Pairs.of_ok (h : Pairs x x' s s' mid) {a : α} {t : Assembly} (hx : x s = .ok a t) :
    ∃ a' t', x' s' = .ok a' t' ∧ mid a t a' t' := by
  unfold Pairs at h
  cases hx' : x' s' <;> rw [hx, hx'] at h
  · exact ⟨_, _, rfl, h⟩
  · exact h.elim

theorem Pairs.of_error (h : Pairs x x' s s' mid) {fault : Fault} {t : Assembly}
    (hx : x s = .error fault t) : ∃ t', x' s' = .error fault t' := by
  unfold Pairs at h
  cases hx' : x' s' <;> rw [hx, hx'] at h
  · exact h.elim
  · exact ⟨_, congrArg (EStateM.Result.error · _) h⟩

end

end Assembly
end BlockGraph
