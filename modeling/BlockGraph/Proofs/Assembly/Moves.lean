import BlockGraph.Proofs.Assembly.Depth
import BlockGraph.Proofs.Assembly.Steps
import BlockGraph.Proofs.Layout.Malformed

/-!
# What a step moves

Most actions leave an assembly at its place: the contexts stay on the chain and find what they found before,
their cursors stay, no block is opened and none is closed (`SamePlace`, `KeepsPlace`). A step does one thing
more: it goes on to the next instruction of the open block, closes that block, puts one context on the chain
or takes one off, or opens a block (`Moves`). Only opening a block may fail because there are too many. Main
statement: `Inv.moves`.
-/

namespace BlockGraph

open Assembly

/-- The fault says that there would be too many blocks. -/
def Fault.IsLimit (fault : Fault) : Prop := ∃ limit, fault = .bailout (.tooManyBlocks limit)

theorem Fault.IsMalformed.not_isLimit {fault : Fault} (h : fault.IsMalformed) : ¬ fault.IsLimit := by
  rintro ⟨limit, rfl⟩
  obtain ⟨bci, what, h⟩ := h
  cases h

/-! ## Contexts -/

/-- The block that a context has at an index, outside of subroutines the one of the table, in a subroutine
the copy that it has made. -/
def Context.finds (c : Context) (bci : Nat) : Option BlockId :=
  match c.subroutine with
  | none => c.table.get bci
  | some sub => sub.copies.get bci

theorem ContextFits.finds_iff {st : Setting} {home : Homes} {g : Graph} {call : Option BlockId} {c : Context}
    {bci : Nat} {b : BlockId} (h : ContextFits st home g call c) (hlaid : Laid st home g) :
    c.finds bci = some b ↔ g.LiesAt home call bci b := by
  unfold Context.finds
  cases call with
  | none =>
    rw [h.root rfl, h.table]
    exact hlaid.get_iff
  | some j =>
    obtain ⟨sub, hsub, -, hget⟩ := h.copies j rfl
    rw [hsub]
    exact hget bci b

/-- What a context keeps while it is on the chain. It finds more and more blocks, and those that it has
found stay the same. -/
structure Context.Becomes (c c' : Context) : Prop where
  scope : c'.scope = c.scope
  entry : c'.subroutine.map (·.entry) = c.subroutine.map (·.entry)
  resume : c'.resume = c.resume
  finds : ∀ bci b, c.finds bci = some b → c'.finds bci = some b

namespace Context.Becomes

variable {c c' c'' : Context}

theorem refl (c : Context) : c.Becomes c := ⟨rfl, rfl, rfl, fun _ _ h => h⟩

theorem trans (h : c.Becomes c') (h' : c'.Becomes c'') : c.Becomes c'' where
  scope := h'.scope.trans h.scope
  entry := h'.entry.trans h.entry
  resume := h'.resume.trans h.resume
  finds bci b hb := h'.finds bci b (h.finds bci b hb)

/-- Cursor, agenda, counters and the local of the return address may change. -/
theorem of_eq (hscope : c'.scope = c.scope) (htable : c'.table = c.table)
    (hsub : c'.subroutine = c.subroutine) (hresume : c'.resume = c.resume) : c.Becomes c' := by
  refine ⟨hscope, by rw [hsub], hresume, fun bci b hb => ?_⟩
  rwa [Context.finds, htable, hsub]

/-- A copy may be made of a block that has not been copied. -/
theorem keepCopy {sub : Subroutine} {bci : Nat} (hsub : c.subroutine = some sub)
    (hnone : sub.copies.get bci = none) (copy : BlockId) : c.Becomes (c.keepCopy bci copy) := by
  refine ⟨rfl, ?_, rfl, fun i b hb => ?_⟩
  · simp [Context.keepCopy, hsub]
  · simp only [Context.finds, hsub] at hb
    simp only [Context.finds, Context.keepCopy, hsub, Option.map_some, BlockTable.get_set]
    by_cases hi : i = bci
    · rw [hi, hnone] at hb; cases hb
    · rwa [if_neg fun h => hi h.1]

/-- A subroutine may be given its handlers. -/
theorem setHandlers (c : Context) (hs : Option (List Handler)) :
    c.Becomes { c with subroutine := c.subroutine.map ({ · with handlers := hs }) } := by
  refine ⟨rfl, ?_, rfl, fun bci b hb => ?_⟩
  · cases c.subroutine <;> rfl
  · unfold Context.finds at hb ⊢
    cases hsub : c.subroutine <;> simpa [hsub] using hb

end Context.Becomes

/-- What has become of the contexts of a chain. -/
abbrev Chain.Becomes : List Context → List Context → Prop := List.Forall₂ Context.Becomes

namespace Chain.Becomes

variable {chain chain' chain'' : List Context} {c c' : Context}

theorem refl (chain : List Context) : Chain.Becomes chain chain :=
  List.forall₂_same.2 fun c _ => .refl c

theorem trans (h : Chain.Becomes chain chain') (h' : Chain.Becomes chain' chain'') :
    Chain.Becomes chain chain'' := by
  induction h generalizing chain'' with
  | nil => exact h'
  | cons hc _ ih =>
    cases h' with
    | cons hc' hrest => exact .cons (hc.trans hc') (ih hrest)

/-- The innermost context changes. -/
theorem head (h : c.Becomes c') (outer : List Context) : Chain.Becomes (c :: outer) (c' :: outer) :=
  .cons h (refl outer)

end Chain.Becomes

/-! ## Assemblies that stay at their place -/

/-- The contexts stay where they are, and so does the open block. -/
structure Assembly.SamePlace (s t : Assembly) : Prop where
  chain : Chain.Becomes s.chain t.chain
  cursors : t.chain.map (·.cursor) = s.chain.map (·.cursor)
  order : t.graph.order = s.graph.order
  current : t.current = s.current

namespace Assembly.SamePlace

variable {s t u : Assembly} {b : BlockId}

theorem refl (s : Assembly) : s.SamePlace s := ⟨.refl _, rfl, rfl, rfl⟩

theorem trans (h : s.SamePlace t) (h' : t.SamePlace u) : s.SamePlace u where
  chain := h.chain.trans h'.chain
  cursors := h'.cursors.trans h.cursors
  order := h'.order.trans h.order
  current := h'.current.trans h.current

/-- Blocks may be added and change, and notes be taken. -/
theorem graph {d : Draft} (horder : d.graph.order = s.graph.order) :
    s.SamePlace { s with toDraft := d } := ⟨.refl _, rfl, horder, rfl⟩

theorem note (s : Assembly) (e : Event) : s.SamePlace (s.note e) := .graph rfl

/-- The innermost context changes, but its cursor stays. -/
theorem modifyInnermost {f : Context → Context} (hf : ∀ c : Context, c.Becomes (f c))
    (hcursor : ∀ c, (f c).cursor = c.cursor) : s.SamePlace (s.modifyInnermost f) := by
  unfold Assembly.modifyInnermost
  cases hchain : s.chain with
  | nil => exact .refl s
  | cons c outer =>
    refine ⟨?_, by simp [hchain, hcursor], rfl, rfl⟩
    rw [hchain]
    exact .head (hf c) outer

end Assembly.SamePlace

theorem Chain.locate_becomes (bci : Nat) : ∀ (chain : List Context) (d : Draft),
    Chain.Becomes chain (Chain.locate bci chain d).2.1 ∧
      (Chain.locate bci chain d).2.1.map (·.cursor) = chain.map (·.cursor) ∧
      (Chain.locate bci chain d).2.2.graph.order = d.graph.order
  | [], d => ⟨.nil, rfl, rfl⟩
  | c :: outer, d => by
    obtain ⟨hchain, hcursors, horder⟩ := locate_becomes bci outer d
    rw [locate]
    cases hsub : c.subroutine with
    | none => exact ⟨.refl _, rfl, rfl⟩
    | some sub =>
      simp only
      cases hcopy : sub.copies.get bci with
      | some copy => exact ⟨.refl _, rfl, rfl⟩
      | none =>
        simp only
        generalize locate bci outer d = found at hchain hcursors horder ⊢
        obtain ⟨original, outer', d'⟩ := found
        cases original with
        | none => exact ⟨.cons (.refl c) hchain, congrArg (c.cursor :: ·) hcursors, horder⟩
        | some original =>
          refine ⟨.cons (.keepCopy hsub hcopy _) hchain, congrArg (c.cursor :: ·) hcursors, ?_⟩
          exact horder

theorem Assembly.locate_samePlace (bci : Nat) (s : Assembly) : s.SamePlace (locate bci s).2 := by
  obtain ⟨hchain, hcursors, horder⟩ := Chain.locate_becomes bci s.chain s.toDraft
  exact ⟨hchain, hcursors, horder, rfl⟩

theorem Assembly.schedule_samePlace (b : BlockId) (s : Assembly) : s.SamePlace (schedule b s) := by
  unfold Assembly.schedule
  cases hchain : s.chain with
  | nil => exact .refl s
  | cons c outer =>
    simp only
    split
    · exact .refl s
    · refine ⟨?_, by rw [hchain]; rfl, rfl, rfl⟩
      rw [hchain]
      exact .cons (.of_eq rfl rfl rfl rfl) (Chain.Becomes.refl outer)

theorem Assembly.countReturn_samePlace (s : Assembly) : s.SamePlace (countReturn s) := by
  refine ⟨?_, Chain.map_countReturn _ (fun _ _ => rfl) _, rfl, rfl⟩
  show Chain.Becomes s.chain (Chain.countReturn s.chain)
  generalize s.chain = chain
  induction chain with
  | nil => exact .nil
  | cons c outer ih =>
    cases outer with
    | nil => exact .cons (.of_eq rfl rfl rfl rfl) .nil
    | cons d outer =>
      unfold Chain.countReturn
      split
      · exact .cons (.refl c) ih
      · exact .cons (.of_eq rfl rfl rfl rfl) (Chain.Becomes.refl _)

/-! ## KeepsPlace actions -/

namespace Assembly

/-- The fault does not say that there would be too many blocks. -/
abbrev Unlimited (fault : Fault) (_ : Assembly) : Prop := ¬ fault.IsLimit

/-- The action leaves every assembly at its place. -/
def KeepsPlace {α : Type} (x : Assemble α) : Prop := ∀ s, Yields x s (fun _ t => s.SamePlace t) Unlimited

variable {α β : Type} {x : Assemble α} {f : α → Assemble β} {s : Assembly} {good : β → Assembly → Prop}

/-- What comes after an action that keeps the place finds the assembly there. -/
theorem KeepsPlace.andThen (hx : KeepsPlace x) (hf : ∀ a t, s.SamePlace t → Yields (f a) t good Unlimited) :
    Yields (x >>= f) s good Unlimited := (hx s).bind hf

theorem KeepsPlace.bind (hx : KeepsPlace x) (hf : ∀ a, KeepsPlace (f a)) : KeepsPlace (x >>= f) := fun _ =>
  hx.andThen fun a t ht => (hf a t).mono (fun _ _ hu => ht.trans hu) fun _ _ h => h

theorem keepsPlace_pure (a : α) : KeepsPlace (pure a : Assemble α) := fun s => .refl s

theorem keepsPlace_throw {fault : Fault} (h : ¬ fault.IsLimit) : KeepsPlace (throw fault : Assemble α) :=
  fun _ => h

/-- Nothing comes after a fault. -/
theorem keepsPlace_throw_bind {fault : Fault} (h : ¬ fault.IsLimit) : KeepsPlace (throw fault >>= f) := fun _ => h

theorem keepsPlace_get : KeepsPlace (get : Assemble Assembly) := fun s => .refl s

theorem keepsPlace_modify {f : Assembly → Assembly} (hf : ∀ s : Assembly, s.SamePlace (f s)) :
    KeepsPlace (modify f : Assemble Unit) := hf

theorem keepsPlace_modifyGet {f : Assembly → α × Assembly} (hf : ∀ s : Assembly, s.SamePlace (f s).2) :
    KeepsPlace (modifyGet f : Assemble α) := hf

theorem keepsPlace_innermost : KeepsPlace innermost := by
  intro s
  unfold Yields innermost
  cases s.chain with
  | nil => rintro ⟨_, h⟩; cases h
  | cons c outer => exact .refl s

theorem keepsPlace_ofExcept {x : Except Fault α} (h : ∀ fault, x = .error fault → ¬ fault.IsLimit) :
    KeepsPlace (ofExcept x) := by
  intro s
  rw [yields_ofExcept]
  cases x with
  | ok a => exact .refl s
  | error fault => exact h fault rfl

theorem keepsPlace_decode {x : Except Fault α} (h : Decodes x) : KeepsPlace (ofExcept x) :=
  keepsPlace_ofExcept fun fault hx => (h fault hx).not_isLimit

theorem keepsPlace_expectBlock (bci : Nat) : KeepsPlace (expectBlock bci) := by
  unfold expectBlock
  refine (keepsPlace_modifyGet (locate_samePlace bci)).bind fun b => ?_
  cases b with
  | none => exact keepsPlace_throw fun ⟨_, h⟩ => nomatch h
  | some b => exact keepsPlace_pure b

theorem keepsPlace_scheduleAt (bci : Nat) : KeepsPlace (scheduleAt bci) :=
  (keepsPlace_expectBlock bci).bind fun b =>
    (keepsPlace_modify (schedule_samePlace b)).bind fun _ => keepsPlace_pure b

theorem keepsPlace_scheduleAll : ∀ targets : List Nat, KeepsPlace (targets.mapM scheduleAt)
  | [] => keepsPlace_pure []
  | bci :: targets => by
    rw [List.mapM_cons]
    exact (keepsPlace_scheduleAt bci).bind fun _ =>
      (keepsPlace_scheduleAll targets).bind fun _ => keepsPlace_pure _

theorem linkEntries_samePlace (b : BlockId) : ∀ (entries : List BlockId) (s : Assembly),
    s.SamePlace (linkEntries b entries s)
  | [], s => .refl s
  | d :: entries, s =>
    have hlinked : s.SamePlace { s with graph := s.graph.addHandlerEdge b d } := .graph rfl
    (hlinked.trans (schedule_samePlace d _)).trans (linkEntries_samePlace b entries _)

theorem keepsPlace_linkHandlers (b : BlockId) (bci : Nat) : KeepsPlace (linkHandlers b bci) := by
  unfold linkHandlers
  refine keepsPlace_innermost.bind fun c => ?_
  split
  · refine keepsPlace_get.bind fun s => (keepsPlace_ofExcept fun fault hx => ?_).bind fun hs =>
      keepsPlace_modify (linkEntries_samePlace b _)
    unfold Context.visibleHandlers at hx
    split at hx
    · cases hx
    · split at hx
      · cases hx
      · cases hx; rintro ⟨_, h⟩; cases h
  · exact keepsPlace_pure ()

theorem keepsPlace_copyHandlers : ∀ l : List Handler, KeepsPlace (copyHandlers l)
  | [] => keepsPlace_pure []
  | x :: rest => by
    rw [copyHandlers]
    cases x.entryIndex? with
    | some bci =>
      exact (keepsPlace_modifyGet (locate_samePlace bci)).bind fun _ =>
        (keepsPlace_copyHandlers rest).bind fun _ => keepsPlace_pure _
    | none =>
      refine keepsPlace_get.bind fun s => ?_
      split
      · exact (keepsPlace_copyHandlers rest).bind fun _ => keepsPlace_pure _
      · refine keepsPlace_throw ?_
        rintro ⟨_, h⟩
        cases h

theorem keepsPlace_setUpHandlers : KeepsPlace setUpHandlers := by
  unfold setUpHandlers
  refine keepsPlace_innermost.bind fun c => ?_
  split
  · exact keepsPlace_throw_bind fun ⟨_, h⟩ => nomatch h
  · refine keepsPlace_get.bind fun s => (keepsPlace_copyHandlers _).bind fun hs => keepsPlace_modify fun s => ?_
    exact .modifyInnermost (fun c => .setHandlers c _) fun _ => rfl

theorem keepsPlace_returnTarget (slot : Nat) : KeepsPlace (returnTarget slot) := by
  unfold returnTarget
  refine keepsPlace_innermost.bind fun c => ?_
  by_cases hsub : c.isSubroutine = true
  · by_cases hlocal : c.returnLocal = some slot
    · simp only [hsub, hlocal, Bool.not_true, Bool.false_eq_true, if_false, ne_eq, not_true_eq_false]
      cases c.resume with
      | none => exact keepsPlace_throw fun ⟨_, h⟩ => nomatch h
      | some target => exact keepsPlace_pure target
    · simp only [hsub, hlocal, Bool.not_true, Bool.false_eq_true, if_false, ne_eq, not_false_eq_true, if_true]
      refine (keepsPlace_modify fun s => .note s _).bind fun _ => ?_
      exact keepsPlace_throw_bind fun ⟨_, h⟩ => nomatch h
  · simp only [hsub, Bool.not_false, if_true]
    exact keepsPlace_throw_bind fun ⟨_, h⟩ => nomatch h

theorem keepsPlace_trackStore (opcode : Opcode) (bci slot width : Nat) :
    KeepsPlace (trackStore opcode bci slot width) := by
  intro s
  unfold Yields trackStore
  cases hchain : s.chain with
  | nil => rintro ⟨_, h⟩; cases h
  | cons c outer =>
    simp only
    cases hsub : c.subroutine with
    | none => exact .refl s
    | some sub =>
      have hplace : ∀ kept log, s.SamePlace { s with
          log := log, chain := { c with subroutine := some sub, returnLocal := kept } :: outer } := by
        intro kept log
        refine ⟨?_, by rw [hchain]; rfl, rfl, rfl⟩
        rw [hchain]
        exact .cons (.of_eq rfl rfl hsub.symm rfl) (Chain.Becomes.refl outer)
      by_cases hfirst : bci = sub.entry ∧ opcode.storesReference = true
      · simp only [if_pos hfirst]
        by_cases henclosing : Chain.enclosingKeeps (c :: outer) slot = true
        · simp only [if_pos henclosing]
          rintro ⟨_, h⟩; cases h
        · simp only [if_neg henclosing]
          exact hsub ▸ hplace _ _
      · simp only [if_neg hfirst]
        by_cases hlost : c.returnLocal.any (overwrites slot width) = true
        · simp only [if_pos hlost]
          exact hsub ▸ hplace _ _
        · simp only [if_neg hlost]
          exact .refl s

/-! ## Steps -/

/-- Where the cursor of the innermost context stands. -/
def position (s : Assembly) : Nat := s.chain.head?.elim 0 (·.cursor.position)

/-- The block that the next step opens. -/
def Opens (s : Assembly) (b : BlockId) : Prop :=
  s.current = none ∧ (takeNext (skipVisited s)).1 = some b

/-- What a step does. While a block is open the cursor goes on to the next instruction, or the block is
closed, with a call or without one. While none is, a step opens one, or leaves a context whose agenda
is empty; the outermost one it does not leave, and then nothing is left to do. -/
inductive Moves (s : Assembly) : Bool → Assembly → Prop
  | proceeds {t : Assembly} : s.current.isSome = true → Chain.Becomes s.chain t.chain →
    t.graph.order = s.graph.order → t.current = s.current →
    (∀ c ∈ s.chain.head?, t.position = c.cursor.next) → Moves s false t
  | closes {t : Assembly} : s.current.isSome = true → Chain.Becomes s.chain t.chain →
    t.graph.order = s.graph.order → t.current = none → Moves s false t
  | calls {t : Assembly} {c : Context} {outer : List Context} : s.current.isSome = true →
    t.chain = c :: outer → Chain.Becomes s.chain outer → t.graph.order = s.graph.order →
    t.current = none → Moves s false t
  | opens {t : Assembly} {b : BlockId} : s.Opens b → Chain.Becomes s.chain t.chain →
    t.graph.order = s.graph.order.push b → Moves s false t
  | leaves {t : Assembly} {c : Context} {outer : List Context} : s.current = none →
    s.chain = c :: outer → c.agenda.entries = [] → outer ≠ [] → Chain.Becomes outer t.chain →
    t.graph.order = s.graph.order → t.current = none → Moves s false t
  | ends {c : Context} : s.current = none → s.chain = [c] → c.agenda.entries = [] → Moves s true s

variable {o : Options} {m : Method} {b : BlockId} {t : Assembly}

/-- When nothing is left to do, nothing is done. -/
theorem Moves.eq_of_done (h : s.Moves true t) : t = s := by
  cases h
  rfl

/-- The open block is closed. -/
theorem SamePlace.finish (h : s.SamePlace t) (hb : s.current = some b) (x : Exit) :
    s.Moves false (finishBlock b x t) := by
  refine .closes (by rw [hb]; rfl) h.chain ?_ rfl
  show (t.graph.close b x).order = _
  rw [Graph.close_eq]
  exact h.order

theorem SamePlace.append (h : s.SamePlace t) (b : BlockId) (site : Site) (opcode : Opcode) :
    s.SamePlace (appendInstr b site opcode t) := ⟨h.chain, h.cursors, h.order, h.current⟩

theorem SamePlace.next (h : s.SamePlace t) (hb : s.current = some b) (bci : Nat) : Yields (do
    let next ← scheduleAt bci
    modify (finishBlock b (.goto next))) t (fun _ u => s.Moves false u) Unlimited :=
  (keepsPlace_scheduleAt bci).andThen fun _ _ hu => (h.trans hu).finish hb _

theorem SamePlace.callSubroutine (h : s.SamePlace t) (hb : s.current = some b) (entry back : Nat) :
    Yields (callSubroutine o b entry back) t (fun _ u => s.Moves false u) Unlimited := by
  unfold Assembly.callSubroutine
  refine keepsPlace_innermost.andThen fun c t₁ h₁ => ?_
  rw [yields_bind, yields_get]
  by_cases hentered : Chain.isEntered t₁.chain entry = true
  · simp only [hentered, if_true]
    exact fun ⟨_, h⟩ => nomatch h
  · simp only [hentered, Bool.false_eq_true, if_false]
    refine (keepsPlace_expectBlock back).andThen fun r t₂ h₂ => ?_
    rw [yields_bind, yields_get]
    refine (keepsPlace_ofExcept fun fault hx => ?_).andThen fun inner t₃ h₃ => ?_
    · unfold Context.enter at hx
      split at hx
      · cases hx; exact fun ⟨_, h⟩ => nomatch h
      · cases hx
    rw [yields_bind, yields_modify]
    refine keepsPlace_setUpHandlers.andThen fun _ t₄ h₄ => ?_
    rw [yields_bind, yields_modify]
    refine (keepsPlace_expectBlock entry).andThen fun first t₅ h₅ => ?_
    rw [yields_bind, yields_modify, yields_modify]
    have hold := ((h.trans h₁).trans h₂).trans h₃
    have hpushed := (h₄.trans (.note t₄ _)).trans h₅
    have hlast := schedule_samePlace first (finishBlock b (.jsr first r) t₅)
    obtain ⟨c', outer, -, houter, hchain⟩ :=
      List.forall₂_cons_left_iff.1 (hpushed.chain.trans hlast.chain)
    refine .calls (by rw [hb]; rfl) hchain (hold.chain.trans houter) (hlast.order.trans ?_) hlast.current
    show (t₅.graph.close b _).order = _
    rw [Graph.close_eq]
    exact hpushed.order.trans hold.order

/-- The cursor goes on to the next instruction of the block. -/
theorem SamePlace.advance (h : s.SamePlace t) (hb : s.current = some b) :
    Yields (withCursor Cursor.advance) t (fun opcode u => opcode.isSome = true → s.Moves false u)
      Unlimited := by
  have hcursors := h.cursors
  have hbecomes := h.chain
  unfold Yields withCursor
  cases hchain : t.chain with
  | nil => exact fun ⟨_, h⟩ => nomatch h
  | cons c outer =>
    rw [hchain] at hcursors hbecomes
    obtain ⟨c₀, outer₀, -, -, hs⟩ := List.forall₂_cons_right_iff.1 hbecomes
    rw [hs, List.map_cons, List.map_cons] at hcursors
    have hcursor : c.cursor = c₀.cursor := (List.cons.inj hcursors).1
    simp only
    cases hadvance : Cursor.advance c.cursor with
    | error fault d => exact (Cursor.isMalformed_of_advance hadvance).not_isLimit
    | ok opcode d =>
      intro hsome
      obtain ⟨opcode, rfl⟩ := Option.isSome_iff_exists.1 hsome
      refine .proceeds (by rw [hb]; rfl) (hbecomes.trans ?_) h.order h.current fun c' hc' => ?_
      · exact .cons (.of_eq rfl rfl rfl rfl) (Chain.Becomes.refl outer)
      · rw [hs] at hc'
        cases hc'
        rw [← hcursor]
        exact Cursor.position_of_advance hadvance

theorem parseInstr_moves (hb : s.current = some b) :
    Yields (parseInstr o b) s (fun _ t => s.Moves false t) Unlimited := by
  unfold parseInstr
  refine keepsPlace_innermost.andThen fun c s₀ h₀ => ?_
  refine (keepsPlace_linkHandlers _ _).andThen fun _ s₁ h₁ => ?_
  rw [yields_bind, yields_modify]
  have h₂ := (h₀.trans h₁).append b (.code c.cursor.position) c.cursor.opcode
  cases c.cursor.opcode.flow with
  | branch =>
    refine (keepsPlace_decode c.cursor.decodes_branchTarget).andThen fun target s₃ h₃ => ?_
    refine (keepsPlace_scheduleAt target).andThen fun d s₄ h₄ => ?_
    refine (keepsPlace_scheduleAt _).andThen fun d' s₅ h₅ => ?_
    rw [yields_modify]
    exact (((h₂.trans h₃).trans h₄).trans h₅).finish hb _
  | goto =>
    refine (keepsPlace_decode c.cursor.decodes_branchTarget).andThen fun target s₃ h₃ => ?_
    exact (h₂.trans h₃).next hb target
  | switch =>
    refine (keepsPlace_decode c.cursor.decodes_jumpTable).andThen fun targets s₃ h₃ => ?_
    refine (keepsPlace_scheduleAt _).andThen fun d s₄ h₄ => ?_
    refine (keepsPlace_scheduleAll _).andThen fun ds s₅ h₅ => ?_
    rw [yields_modify]
    exact (((h₂.trans h₃).trans h₄).trans h₅).finish hb _
  | jsr =>
    refine (keepsPlace_decode c.cursor.decodes_branchTarget).andThen fun target s₃ h₃ => ?_
    exact (h₂.trans h₃).callSubroutine hb target _
  | ret =>
    refine (keepsPlace_decode c.cursor.decodes_localSlot).andThen fun slot s₃ h₃ => ?_
    refine (keepsPlace_returnTarget slot).andThen fun target s₄ h₄ => ?_
    rw [yields_modify]
    exact ((h₂.trans h₃).trans h₄).finish hb _
  | leave =>
    rw [yields_bind, yields_modify, yields_modify]
    exact (h₂.trans (countReturn_samePlace _)).finish hb _
  | throw =>
    rw [yields_modify]
    exact h₂.finish hb _
  | next =>
    have hrest : ∀ u : Assembly, s.SamePlace u → Yields (do
        if ((← innermost).table.get c.cursor.next).isSome then
          let next ← scheduleAt c.cursor.next
          modify (finishBlock b (.goto next))
        else if (← withCursor Cursor.advance).isNone then
          throw (.malformed c.cursor.position .fallsOff)) u (fun _ t => s.Moves false t) Unlimited := by
      intro u hu
      refine keepsPlace_innermost.andThen fun c' v hv => ?_
      split
      · exact (hu.trans hv).next hb _
      · refine ((hu.trans hv).advance hb).bind fun opcode w hw => ?_
        cases opcode with
        | none => exact fun ⟨_, h⟩ => nomatch h
        | some opcode => exact hw rfl
    simp only
    cases c.cursor.opcode.writtenSlots? with
    | none => exact hrest _ h₂
    | some width =>
      refine (keepsPlace_decode c.cursor.decodes_localSlot).andThen fun slot s₃ h₃ => ?_
      exact (keepsPlace_trackStore _ _ slot width).andThen fun _ s₄ h₄ => hrest s₄ ((h₂.trans h₃).trans h₄)

/-- Going back leaves one context. -/
theorem closeContext_moves (hs : s.current = none) (hagenda : ∀ c ∈ s.chain.head?, c.agenda.entries = []) :
    Yields closeContext s (fun done t => s.Moves done t) Unlimited := by
  unfold Yields closeContext
  cases hchain : s.chain with
  | nil => exact fun ⟨_, h⟩ => nomatch h
  | cons c outer =>
    have hempty := hagenda c (by rw [hchain]; rfl)
    cases outer with
    | nil => exact .ends hs hchain hempty
    | cons c' outer =>
      let left : Assembly := { s.note (.popped c.label) with chain := c' :: outer }
      have hleaves : ∀ t : Assembly, left.SamePlace t → s.Moves false t := fun t ht =>
        .leaves hs hchain hempty (by simp) ht.chain ht.order (ht.current.trans hs)
      cases hresume : c.resume with
      | none =>
        simp only [hresume]
        exact hleaves left (.refl left)
      | some r =>
        simp only [hresume]
        by_cases hnone : ((s.note (.popped c.label)).graph.block r).predecessors.isEmpty = true
        · rw [if_pos hnone]; exact hleaves left (.refl left)
        · rw [if_neg hnone]; exact hleaves _ (schedule_samePlace r left)

end Assembly

variable {st : Setting} {home : Homes} {path : List BlockId} {s : Assembly} {o : Options} {m : Method}
  {b : BlockId} {c : Context} {outer : List Context}

theorem Base.opens_iff (h : Base st home path s) (hchain : s.chain = c :: outer) :
    s.Opens b ↔ s.current = none ∧ ∃ n rest, c.agenda.entries = (b, n) :: rest := by
  rw [Opens, h.skipVisited_eq, takeNext, hchain]
  cases hentries : c.agenda.entries with
  | nil => simp [Agenda.pop, hentries]
  | cons e rest => obtain ⟨d, n⟩ := e; simp [Agenda.pop, hentries]

/-- A block that is opened belongs to the innermost context, and it has not been opened before. -/
theorem Base.new_of_opens (h : Base st home path s) (hb : s.Opens b) :
    home b = path.head? ∧ b < s.graph.blocks.size ∧ (s.graph.block b).visited = false := by
  obtain ⟨c, outer, hchain⟩ := h.contexts.exists_cons
  obtain ⟨-, n, rest, hentries⟩ := (h.opens_iff hchain).1 hb
  obtain ⟨hhome, hqueued, hnew⟩ := (hchain ▸ h.queue.agendas).head.fits b (by rw [hentries]; simp)
  exact ⟨hhome, Graph.lt_of_queued hqueued, hnew⟩

theorem Inv.openBlock_moves {n : Nat} {rest : List (BlockId × Nat)} (h : Inv st home path s)
    (hcurrent : s.current = none) (hchain : s.chain = c :: outer)
    (hagenda : c.agenda.entries = (b, n) :: rest) :
    Yields (Assembly.openBlock m o b) { s with chain := { c with agenda := ⟨rest⟩ } :: outer }
      (fun _ t => s.Moves false t) fun fault _ => fault.IsLimit →
        o.blockLimit ≤ s.graph.order.size ∧ s.graph.order.size < s.graph.blocks.size := by
  have hopens : s.Opens b := (h.base.opens_iff hchain).2 ⟨hcurrent, n, rest, hagenda⟩
  have hbecomes : ∀ cursor, Chain.Becomes s.chain
      ({ c with agenda := ⟨rest⟩, cursor := cursor } :: outer) := by
    intro cursor
    rw [hchain]
    exact .cons (.of_eq rfl rfl rfl rfl) (Chain.Becomes.refl outer)
  unfold Assembly.openBlock
  rw [yields_bind, yields_modify, yields_bind, yields_get]
  split
  · rename_i hlimit
    intro _
    obtain ⟨-, hlt, hnew⟩ := h.base.new_of_opens hopens
    have hle : o.blockLimit ≤ s.parsedBlocks := Nat.le_of_lt_succ hlimit
    exact ⟨h.base.queue.counted ▸ hle, h.base.order_size_lt hlt hnew⟩
  · rw [yields_bind, yields_modify, yields_bind, yields_get]
    show Yields (if ((s.graph.visit b).block b).flags.defaultHandler = true then _ else _) _ _ _
    split
    · rw [yields_modify]
      refine .opens hopens (hbecomes c.cursor) ?_
      show (Graph.close _ b .throw).order = _
      rw [Graph.close_eq]
      rfl
    · rw [yields_bind, yields_innermost rfl, yields_bind, yields_modify, yields_bind]
      unfold Yields withCursor
      simp only [note]
      cases hmove : Cursor.moveTo _ c.cursor with
      | error fault cursor => exact fun hl => absurd hl (Cursor.isMalformed_of_moveTo hmove).not_isLimit
      | ok opcode cursor => exact .opens hopens (hbecomes cursor) rfl

/-- **What a step does.** It moves as described, and it is refused for too many blocks only if the limit
has been reached while there is a block that has not been opened. -/
theorem Inv.moves (h : Inv st home path s) : Yields (Assembly.step m o) s (fun done t => s.Moves done t)
    fun fault _ => fault.IsLimit →
      o.blockLimit ≤ s.graph.order.size ∧ s.graph.order.size < s.graph.blocks.size := by
  cases hcurrent : s.current with
  | some b =>
    rw [yields_step_some hcurrent]
    exact (parseInstr_moves hcurrent).mono (fun _ _ ht => ht) fun _ _ hf hl => absurd hl hf
  | none =>
    obtain ⟨c, outer, hchain⟩ := h.base.contexts.exists_cons
    cases hentries : c.agenda.entries with
    | nil =>
      rw [h.base.yields_step_nil hcurrent hchain hentries]
      refine (closeContext_moves hcurrent fun c' hc' => ?_).mono (fun _ _ ht => ht) fun _ _ hf hl => absurd hl hf
      rw [hchain] at hc'
      cases hc'
      exact hentries
    | cons e rest =>
      rw [h.base.yields_step_cons hcurrent hchain hentries]
      exact h.openBlock_moves hcurrent hchain hentries

end BlockGraph
