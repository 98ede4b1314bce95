import BlockGraph.Proofs.Answers
import BlockGraph.Proofs.Assembly.Lasting

/-!
# Handlers of subroutines

A subroutine sees no handlers before it has got copies of those of its scope. A handler with code then starts
at the block that the subroutine finds there from then on. The handler without code is not copied, and it must
be the one that unlocks. To set the handlers up is to look for some blocks, one after another, and then to
enter the copies (`setUpHandlers_eq`). Main statement: `handlers_copied`.
-/

namespace BlockGraph

open Assembly

/-! ## Setting handlers up -/

/-- The handler has code, or else it starts at a block that unlocks. -/
def Graph.unlocks (g : Graph) (x : Handler) : Bool :=
  x.entryIndex?.isSome || x.entry.any fun b => (g.block b).flags.defaultHandler

theorem Graph.unlocks_iff {g : Graph} {x : Handler} : g.unlocks x = true ↔
    (x.isUnlock → ∃ b, x.entry = some b ∧ (g.block b).flags.defaultHandler = true) := by
  rw [unlocks, x.isUnlock_iff]
  cases x.entryIndex? <;> simp [Option.any_eq_true]

namespace Graph.Extends

variable {g g' : Graph} {x : Handler}

theorem declaredHandlers_eq (h : g.Extends g') (scope : ScopeId) :
    g'.declaredHandlers scope = g.declaredHandlers scope := by
  unfold Graph.declaredHandlers
  rw [h.scopes_eq]

theorem unlocks_eq (h : g.Extends g') (hx : x.isUnlock → ∀ b, x.entry = some b → b < g.blocks.size) :
    g'.unlocks x = g.unlocks x := by
  unfold Graph.unlocks
  cases hindex : x.entryIndex? with
  | some bci => rfl
  | none =>
    cases hentry : x.entry with
    | none => rfl
    | some b => rw [Option.any_some, Option.any_some, h.block_eq b (hx (x.isUnlock_iff.2 hindex) b hentry)]

end Graph.Extends

namespace Assembly

variable {s t u : Assembly} {c : Context} {outer : List Context} {l : List Handler} {x : Handler}
  {bci : Nat} {bcis : List Nat}

/-- Blocks have been looked for: copies were made, and what was answered is answered still. -/
structure Searched (s t : Assembly) : Prop where
  graph : s.graph.Extends t.graph
  kept : Chain.Kept 0 s.chain t.chain
  firm : s.Firm t

theorem Searched.refl (s : Assembly) : s.Searched s := ⟨.refl _, .refl _, .refl _⟩

theorem Searched.trans (h : s.Searched t) (h' : t.Searched u) : s.Searched u :=
  ⟨h.graph.trans h'.graph, h.kept.trans h'.kept, h.firm.trans h'.firm⟩

theorem searched_locate (bci : Nat) (s : Assembly) : s.Searched (locate bci s).2 :=
  ⟨(locate_onlyCopies bci s).graph, Chain.kept_locate bci s.chain s.toDraft, firm_locate bci s⟩

theorem searched_locateEach : ∀ (bcis : List Nat) (s : Assembly), s.Searched (s.locateEach bcis)
  | [], s => .refl s
  | bci :: bcis, s => (searched_locate bci s).trans (searched_locateEach bcis (locate bci s).2)

/-- All that has been looked for is answered afterwards. -/
theorem answers_locateEach (h : Chain.Shares s.chain) (hbci : bci ∈ bcis) :
    ∃ e, Chain.Answers bci e (s.locateEach bcis).chain := by
  induction bcis generalizing s with
  | nil => cases hbci
  | cons first bcis ih =>
    rcases List.mem_cons.1 hbci with rfl | hbci
    · exact ⟨_, (searched_locateEach bcis _).firm.answers (h.answers_locate bci s.toDraft)⟩
    · exact ih (h.kept (searched_locate first s).kept) hbci

theorem locate_of_answers {e : Option BlockId} (h : Chain.Answers bci e s.chain) :
    locate bci s = (e, s) := by
  unfold locate
  rw [h.locate_eq]

theorem locateEach_of_answers (h : ∀ bci ∈ bcis, ∃ e, Chain.Answers bci e s.chain) :
    s.locateEach bcis = s := by
  induction bcis with
  | nil => rfl
  | cons bci bcis ih =>
    obtain ⟨e, he⟩ := h bci List.mem_cons_self
    show locateEach bcis (locate bci s).2 = s
    rw [locate_of_answers he]
    exact ih fun bci hbci => h bci (List.mem_cons_of_mem _ hbci)

/-- A handler as the innermost context sees it: its code starts at the block that is found there. -/
def relocate (s : Assembly) (x : Handler) : Handler :=
  match x.entryIndex? with
  | some bci => { x with entry := (locate bci s).1 }
  | none => x

theorem relocate_congr (h : ∀ bci, x.entryIndex? = some bci → ∃ e, Chain.Answers bci e s.chain)
    (hfirm : s.Firm t) : t.relocate x = s.relocate x := by
  unfold relocate
  cases hx : x.entryIndex? with
  | none => rfl
  | some bci =>
    obtain ⟨e, he⟩ := h bci hx
    simp only [locate_of_answers he, locate_of_answers (hfirm.answers he)]

theorem copyHandlers_code (hx : x.entryIndex? = some bci) (rest : List Handler) (s : Assembly) :
    copyHandlers (x :: rest) s =
      (copyHandlers rest >>= fun hs => pure ({ x with entry := (locate bci s).1 } :: hs)) (locate bci s).2 := by
  rw [copyHandlers, hx]
  rfl

theorem copyHandlers_unlock (hx : x.entryIndex? = none) (rest : List Handler) (s : Assembly) :
    copyHandlers (x :: rest) s =
      if s.graph.unlocks x then (copyHandlers rest >>= fun hs => pure (x :: hs)) s
      else .error .noUnlockBlock s := by
  rw [copyHandlers, Graph.unlocks, hx, Option.isSome_none, Bool.false_or]
  show (ite _ _ _ : Assemble (List Handler)) s = _
  split <;> rfl

/-- Copying handlers looks for the blocks where they start, up to the first handler without code that does not
unlock. -/
theorem copyHandlers_eq {g : Graph} : ∀ (l : List Handler) (s : Assembly), Chain.Shares s.chain →
    g.Extends s.graph → (∀ x ∈ l, x.isUnlock → ∀ b, x.entry = some b → b < g.blocks.size) →
    copyHandlers l s =
      if l.all g.unlocks then
        .ok (l.map (s.locateEach (l.filterMap Handler.entryIndex?)).relocate)
          (s.locateEach (l.filterMap Handler.entryIndex?))
      else .error .noUnlockBlock (s.locateEach ((l.takeWhile g.unlocks).filterMap Handler.entryIndex?))
  | [], s, _, _, _ => rfl
  | x :: rest, s, hshares, hextends, hentries => by
    have hrest : ∀ x ∈ rest, x.isUnlock → ∀ b, x.entry = some b → b < g.blocks.size := fun x hx =>
      hentries x (List.mem_cons_of_mem _ hx)
    cases hx : x.entryIndex? with
    | some bci =>
      have hunlocks : g.unlocks x = true := by simp [Graph.unlocks, hx]
      have hsearched := searched_locate bci s
      have ih := copyHandlers_eq rest (locate bci s).2 (hshares.kept hsearched.kept)
        (hextends.trans hsearched.graph) hrest
      have hfirst : ((locate bci s).2.locateEach (rest.filterMap Handler.entryIndex?)).relocate x =
          { x with entry := (locate bci s).1 } := by
        have hanswers : Chain.Answers bci (locate bci s).1 (locate bci s).2.chain :=
          hshares.answers_locate bci s.toDraft
        unfold relocate
        simp only [hx, locate_of_answers ((searched_locateEach _ _).firm.answers hanswers)]
      have heach : ∀ bcis, s.locateEach (bci :: bcis) = (locate bci s).2.locateEach bcis := fun _ => rfl
      rw [copyHandlers_code hx]
      simp only [bind, EStateM.bind, ih, List.all_cons, hunlocks, Bool.true_and, List.takeWhile_cons, if_true,
        List.filterMap_cons, hx, heach, List.map_cons, hfirst]
      cases rest.all g.unlocks <;> rfl
    | none =>
      have ih := copyHandlers_eq rest s hshares hextends hrest
      have hfirst : ∀ t : Assembly, t.relocate x = x := fun t => by
        unfold relocate
        rw [hx]
      rw [copyHandlers_unlock hx, hextends.unlocks_eq (hentries x List.mem_cons_self)]
      cases hunlocks : g.unlocks x with
      | false =>
        simp only [Bool.false_eq_true, if_false, List.all_cons, hunlocks, Bool.false_and, List.takeWhile_cons]
        rfl
      | true =>
        simp only [bind, EStateM.bind, if_true, ih, List.all_cons, hunlocks, Bool.true_and,
          List.takeWhile_cons, List.filterMap_cons, hx, List.map_cons, hfirst]
        cases rest.all g.unlocks <;> rfl

theorem enterHandlers_eq {sub : Subroutine} (hchain : s.chain = c :: outer) (hsub : c.subroutine = some sub)
    (hs : List Handler) : s.enterHandlers hs = { s with
      chain := { c with subroutine := some { sub with handlers := some hs } } :: outer } := by
  unfold enterHandlers modifyInnermost
  simp only [hchain, hsub, Option.map_some]

theorem setUpHandlers_eq (hchain : s.chain = c :: outer) (hsub : c.isSubroutine)
    (hshares : Chain.Shares s.chain)
    (hentries : ∀ x ∈ s.graph.declaredHandlers c.scope, x.isUnlock →
      ∀ b, x.entry = some b → b < s.graph.blocks.size) :
    setUpHandlers s =
      if (s.graph.declaredHandlers c.scope).all s.graph.unlocks then
        let t := s.locateEach ((s.graph.declaredHandlers c.scope).filterMap Handler.entryIndex?)
        .ok () (t.enterHandlers ((s.graph.declaredHandlers c.scope).map t.relocate))
      else
        .error .noUnlockBlock
          (s.locateEach (((s.graph.declaredHandlers c.scope).takeWhile s.graph.unlocks).filterMap
            Handler.entryIndex?)) := by
  have hcopies := copyHandlers_eq (s.graph.declaredHandlers c.scope) s hshares (.refl _) hentries
  have henter : setUpHandlers s =
      (copyHandlers (s.graph.declaredHandlers c.scope) >>= fun hs => modify (·.enterHandlers hs)) s := by
    simp only [setUpHandlers, bind, EStateM.bind, innermost, hchain, hsub, Bool.not_true, Bool.false_eq_true,
      if_false]
    rfl
  rw [henter]
  simp only [bind, EStateM.bind, hcopies]
  cases (s.graph.declaredHandlers c.scope).all s.graph.unlocks <;> rfl

/-- To set up handlers that are set up, and whose entries are answered, does nothing. -/
theorem setUpHandlers_of_answers {sub : Subroutine} (hchain : s.chain = c :: outer)
    (hsub : c.subroutine = some sub)
    (hhandlers : sub.handlers = some ((s.graph.declaredHandlers c.scope).map s.relocate))
    (hshares : Chain.Shares s.chain)
    (hentries : ∀ x ∈ s.graph.declaredHandlers c.scope, x.isUnlock →
      ∀ b, x.entry = some b → b < s.graph.blocks.size)
    (hunlocks : ∀ x ∈ s.graph.declaredHandlers c.scope, s.graph.unlocks x)
    (hanswers : ∀ x ∈ s.graph.declaredHandlers c.scope, ∀ bci, x.entryIndex? = some bci →
      ∃ e, Chain.Answers bci e s.chain) : setUpHandlers s = .ok () s := by
  have hnone : s.locateEach ((s.graph.declaredHandlers c.scope).filterMap Handler.entryIndex?) = s := by
    refine locateEach_of_answers fun bci hbci => ?_
    obtain ⟨x, hx, hbci⟩ := List.mem_filterMap.1 hbci
    exact hanswers x hx bci hbci
  have hkeep : { c with subroutine := some { sub with handlers := sub.handlers } } = c := by
    rw [← hsub]
  rw [setUpHandlers_eq hchain (by rw [Context.isSubroutine, hsub]; rfl) hshares hentries,
    if_pos (List.all_eq_true.2 hunlocks)]
  simp only [hnone]
  rw [enterHandlers_eq hchain hsub, ← hhandlers, hkeep, ← hchain]

end Assembly

/-! ## What setting handlers up leads to -/

/-- The handlers of the subroutine that the innermost context parses have been set up; `declared` are those of its
scope. -/
structure Assembly.HandlersCopied (s : Assembly) (declared : List Handler) (t : Assembly) : Prop where
  /-- The context sees a handler for each of its scope, in their order, which has another entry at most. -/
  visible : ∃ d ∈ t.chain.head?, d.visibleHandlers t.graph = .ok (declared.map t.relocate)
  /-- Handlers whose code starts at the same index share a block. -/
  shared : ∀ x ∈ declared, ∀ y ∈ declared, x.entryIndex? = y.entryIndex? → x.isUnlock = false →
    (t.relocate x).entry = (t.relocate y).entry
  /-- That is the block that is found there from then on. -/
  finds : ∀ x ∈ declared, ∀ bci, x.entryIndex? = some bci → ∀ u : Session, u.ReachedFrom t.chain →
    u.answer (u.chain.length - t.chain.length) (.locate bci) = ((t.relocate x).entry, u.toAssembly)
  /-- A handler that is declared in the context later is added to those that it sees, and to no others. -/
  adds : ∀ (x : Handler) (u : Session), u.ReachedFrom t.chain → ∃ d sub hs,
    u.chain[u.chain.length - t.chain.length]? = some d ∧ d.subroutine = some sub ∧ sub.handlers = some hs ∧
      u.answer (u.chain.length - t.chain.length) (.addHandler x) = (none, { u.toAssembly with
        chain := u.chain.set (u.chain.length - t.chain.length) { d with
          guarded := true
          subroutine := some { sub with handlers := some (hs ++ [x]) } } })
  /-- To set them up once more at once does nothing. -/
  again : setUpHandlers t = .ok () t
  /-- The entries have been looked for and the handlers entered, and nothing else was done. -/
  left : t = (s.locateEach (declared.filterMap Handler.entryIndex?)).enterHandlers (declared.map t.relocate)
  /-- Scopes keep their handlers. -/
  scopes : t.graph.scopes = s.graph.scopes
  /-- The graph got copies of blocks, -/
  graph : s.graph.Extends t.graph
  /-- as did the subroutines around the innermost one. -/
  outer : Chain.Kept 0 s.chain.tail t.chain.tail

/-- The handlers have not been set up. -/
structure Assembly.HandlersRefused (s : Assembly) (declared : List Handler) (fault : Fault) (t : Assembly) :
    Prop where
  /-- One without code does not unlock. -/
  fault : fault = .noUnlockBlock
  /-- The entries of those before it have been looked for, and nothing else was done. -/
  left : t = s.locateEach ((declared.takeWhile s.graph.unlocks).filterMap Handler.entryIndex?)
  /-- What was found for them is found from then on. -/
  finds : ∀ x ∈ declared.takeWhile s.graph.unlocks, ∀ bci, x.entryIndex? = some bci →
    ∀ u : Session, u.ReachedFrom t.chain →
      u.answer (u.chain.length - t.chain.length) (.locate bci) = ((t.relocate x).entry, u.toAssembly)
  /-- The context sees what it saw. -/
  visible : t.chain.head?.map (·.visibleHandlers t.graph) = s.chain.head?.map (·.visibleHandlers s.graph)
  scopes : t.graph.scopes = s.graph.scopes
  /-- Copies were made, and what was answered is answered still. -/
  searched : s.Searched t

theorem Context.Kept.visibleHandlers {c d : Context} {g g' : Graph} (h : Context.Kept 0 c d)
    (hscopes : g'.scopes = g.scopes) : d.visibleHandlers g' = c.visibleHandlers g := by
  have hscope : d.scope = c.scope := by rw [h.same]
  unfold Context.visibleHandlers
  cases hsub : c.subroutine with
  | none =>
    simp only [h.method hsub, Graph.declaredHandlers, hscopes, hscope]
  | some sub =>
    obtain ⟨sub', hsub', hgains⟩ := h.subroutine sub hsub
    simp only [hsub', hgains.handlers]

section
variable {s t : Assembly} {c : Context} {outer : List Context} {declared : List Handler} {x : Handler} {bci : Nat}

theorem Assembly.entry_relocate (hx : x.entryIndex? = some bci) : (t.relocate x).entry = (locate bci t).1 := by
  unfold relocate
  simp only [hx]

/-- The entries that have been looked for are answered. -/
theorem Assembly.answers_entry (h : Chain.Shares s.chain)
    (hfirm : (s.locateEach (declared.filterMap Handler.entryIndex?)).Firm t) :
    ∀ x ∈ declared, ∀ bci, x.entryIndex? = some bci → Chain.Answers bci (t.relocate x).entry t.chain := by
  intro x hx bci hbci
  obtain ⟨e, he⟩ := answers_locateEach h (List.mem_filterMap.2 ⟨x, hx, hbci⟩)
  have he := hfirm.answers he
  rw [entry_relocate hbci, locate_of_answers he]
  exact he

theorem Assembly.handlersRefused (hchain : s.chain = c :: outer) (hshares : Chain.Shares s.chain)
    (ht : t = s.locateEach ((declared.takeWhile s.graph.unlocks).filterMap Handler.entryIndex?)) :
    s.HandlersRefused declared .noUnlockBlock t := by
  have hsearched : s.Searched t := ht ▸ searched_locateEach _ s
  have hkept := hsearched.kept
  rw [hchain] at hkept
  obtain ⟨d, outer', ht', hd, -⟩ := hkept.uncons
  exact {
    fault := rfl
    left := ht
    finds := fun x hx bci hbci u hu =>
      hu.answer_locate (answers_entry hshares (ht ▸ firm_refl t) x hx bci hbci)
    visible := by
      rw [ht', hchain]
      exact congrArg some (hd.visibleHandlers hsearched.graph.scopes_eq)
    scopes := hsearched.graph.scopes_eq
    searched := hsearched }

theorem Assembly.handlersCopied (hchain : s.chain = c :: outer) (hsub : c.isSubroutine)
    (hshares : Chain.Shares s.chain) (hdeclared : s.graph.declaredHandlers c.scope = declared)
    (hentries : ∀ x ∈ declared, x.isUnlock → ∀ b, x.entry = some b → b < s.graph.blocks.size)
    (hunlocks : ∀ x ∈ declared, s.graph.unlocks x)
    (ht : t = s.locateEach (declared.filterMap Handler.entryIndex?)) :
    s.HandlersCopied declared (t.enterHandlers (declared.map t.relocate)) := by
  have hsearched : s.Searched t := ht ▸ searched_locateEach _ s
  have hkept := hsearched.kept
  rw [hchain] at hkept
  obtain ⟨d, outer', htchain, hd, houter⟩ := hkept.uncons
  obtain ⟨sub, hdsub⟩ := Option.isSome_iff_exists.1 (hd.isSubroutine.trans hsub)
  have hu := enterHandlers_eq htchain hdsub (declared.map t.relocate)
  have hfirm := firm_enterHandlers t (declared.map t.relocate)
  generalize hentered : t.enterHandlers (declared.map t.relocate) = u at hu hfirm
  have hgraph : u.graph = t.graph := by rw [hu]
  have huchain : u.chain = _ :: outer' := congrArg Assembly.chain hu
  have hanswers := answers_entry hshares (ht ▸ hfirm)
  have hcopies : declared.map u.relocate = declared.map t.relocate := List.map_congr_left fun x hx =>
    relocate_congr (fun bci hbci => ⟨_, answers_entry hshares (ht ▸ firm_refl t) x hx bci hbci⟩) hfirm
  exact {
    visible := ⟨_, by rw [huchain]; rfl, by rw [hcopies]; rfl⟩
    shared := fun x _ y _ hxy hx => by
      cases hbci : x.entryIndex? with
      | none => rw [x.isUnlock_iff.2 hbci] at hx; cases hx
      | some bci => rw [entry_relocate hbci, entry_relocate (hxy ▸ hbci)]
    finds := fun x hx bci hbci v hv => hv.answer_locate (hanswers x hx bci hbci)
    adds := fun x v hv => by
      rw [huchain] at hv ⊢
      obtain ⟨d', sub', hs, hd', hsub', hhs⟩ := hv.exists_handlers rfl
      exact ⟨d', sub', hs, hd', hsub', hhs, Session.answer_addHandler hd' hsub' hhs⟩
    again := by
      have hscope : d.scope = c.scope := by rw [hd.same]
      have hextends : s.graph.Extends u.graph := hgraph ▸ hsearched.graph
      have hsame : u.graph.declaredHandlers d.scope = declared := by
        rw [hscope, hextends.declaredHandlers_eq, hdeclared]
      have hshares' : Chain.Shares u.chain := by
        have h := hshares.kept hsearched.kept
        rw [htchain] at h
        rw [huchain]
        exact h.replace rfl rfl (by rw [hdsub]; rfl)
      refine setUpHandlers_of_answers huchain rfl ?_ hshares' ?_ ?_ ?_ <;> simp only [hsame]
      · rw [hcopies]
      · exact fun x hx hunlock b hb => Nat.lt_of_lt_of_le (hentries x hx hunlock b hb) hextends.size_le
      · exact fun x hx => (hextends.unlocks_eq (hentries x hx)).trans (hunlocks x hx)
      · exact fun x hx bci hbci => ⟨_, hanswers x hx bci hbci⟩
    left := by rw [hcopies, ← ht, hentered]
    scopes := by rw [hgraph, hsearched.graph.scopes_eq]
    graph := by rw [hgraph]; exact hsearched.graph
    outer := by rw [hchain, huchain]; exact houter }

/-- **What setting up the handlers of a subroutine does.** It answers just if the handlers without code that the
scope declares are known to start at a block that unlocks. Then the subroutine has copies of all handlers, in their
order; the entries of those with code are the blocks that it finds there from then on. Else what it sees is
unchanged. In any case the scope keeps its handlers, and all that has been made are copies of blocks. -/
theorem handlers_copied (hchain : s.chain = c :: outer) (hsub : c.isSubroutine) (hshares : Chain.Shares s.chain)
    (hentries : ∀ x ∈ s.graph.declaredHandlers c.scope, x.isUnlock →
      ∀ b, x.entry = some b → b < s.graph.blocks.size) :
    ((∃ t, setUpHandlers s = .ok () t) ↔ ∀ x ∈ s.graph.declaredHandlers c.scope, x.isUnlock →
      ∃ b, x.entry = some b ∧ (s.graph.block b).flags.defaultHandler = true) ∧
    (∀ t, setUpHandlers s = .ok () t → s.HandlersCopied (s.graph.declaredHandlers c.scope) t) ∧
    ∀ fault t, setUpHandlers s = .error fault t →
      s.HandlersRefused (s.graph.declaredHandlers c.scope) fault t := by
  have hready : (s.graph.declaredHandlers c.scope).all s.graph.unlocks = true ↔
      ∀ x ∈ s.graph.declaredHandlers c.scope, x.isUnlock →
        ∃ b, x.entry = some b ∧ (s.graph.block b).flags.defaultHandler = true := by
    simp only [List.all_eq_true, Graph.unlocks_iff]
  rw [setUpHandlers_eq hchain hsub hshares hentries, ← hready]
  generalize hdeclared : s.graph.declaredHandlers c.scope = declared at hentries ⊢
  split
  case isTrue hunlocks =>
    refine ⟨iff_of_true ⟨_, rfl⟩ hunlocks, fun t ht => ?_, fun fault t ht => nomatch ht⟩
    cases ht
    exact handlersCopied hchain hsub hshares hdeclared hentries (List.all_eq_true.1 hunlocks) rfl
  case isFalse hunlocks =>
    refine ⟨iff_of_false (fun ⟨t, ht⟩ => nomatch ht) hunlocks, fun _ => nofun, fun fault t ht => ?_⟩
    cases ht
    exact handlersRefused hchain hshares rfl

end

/-- A method with a subroutine that is being parsed. Two of its handlers start at index 2, where the subroutine
starts too. The third one has no code; its block unlocks if `flag` is set. -/
def guardedCall (flag : Bool) : Assembly :=
  let method := Context.nested [] 0 true twoBlocksTable (.ofCode #[0, 0, 0xb1]) {} {}
  { graph := {
      blocks := twoBlocks.blocks.push { site := .unlock, number := 2, flags := { defaultHandler := flag } }
      scopes := #[{ Scope.root { name := "guarded", code := #[0, 0, 0xb1] } with handlers := [
        { first := 0, limit := 1, target := .code 2, catchType := 3, entry := some 1 },
        { first := 0, limit := 3, target := .unlock, catchType := 0, entry := some 2 },
        { first := 1, limit := 2, target := .code 2, catchType := 0, entry := some 1 }] }] }
    chain := [{ method with subroutine := some { entry := 2, copies := .blank 3 } }, method] }

theorem guardedCall_copied :
    (∃ t, setUpHandlers (guardedCall true) = .ok () t ∧
      (guardedCall true).HandlersCopied ((guardedCall true).graph.declaredHandlers 0) t) ∧
    ∃ fault t, setUpHandlers (guardedCall false) = .error fault t ∧
      (guardedCall false).HandlersRefused ((guardedCall false).graph.declaredHandlers 0) fault t := by
  have hshares : ∀ flag, Chain.Shares (guardedCall flag).chain := fun flag =>
    .enter (.method rfl (by decide)) rfl rfl (show Context.enter _ 2 = _ from rfl)
  have hentries : ∀ flag, ∀ x ∈ (guardedCall flag).graph.declaredHandlers 0, x.isUnlock →
      ∀ b ∈ x.entry, b < (guardedCall flag).graph.blocks.size := by decide
  have hunlocks : ∀ flag, (∀ x ∈ (guardedCall flag).graph.declaredHandlers 0,
      (guardedCall flag).graph.unlocks x) ↔ flag := by decide
  obtain ⟨hready, hcopied, -⟩ := handlers_copied (s := guardedCall true) rfl rfl (hshares true) (hentries true)
  obtain ⟨hready', -, hrefused⟩ :=
    handlers_copied (s := guardedCall false) rfl rfl (hshares false) (hentries false)
  obtain ⟨t, ht⟩ := hready.2 fun x hx => Graph.unlocks_iff.1 ((hunlocks true).2 rfl x hx)
  refine ⟨⟨t, ht, hcopied t ht⟩, ?_⟩
  cases hrun : setUpHandlers (guardedCall false) with
  | ok _ t =>
    have hflag := (hunlocks false).1 fun x hx => Graph.unlocks_iff.2 (hready'.1 ⟨t, hrun⟩ x hx)
    cases hflag
  | error fault t => exact ⟨fault, t, rfl, hrefused fault t hrun⟩

end BlockGraph
