import BlockGraph.Proofs.Assembly.Steps
import BlockGraph.Proofs.Graph.Making

/-!
# Steps make a graph

Everything that a step does to the graph is something that may be done to a graph in the making
(`Inv.step_makes`), and so is everything that a run does (`Inv.run_makes`). Looking for blocks adds
copies, a block is queued once it has been promised, and instructions are added to the open block.
-/

namespace BlockGraph

open Assembly

variable {st : Setting} {home : Homes} {path : List BlockId} {s t : Assembly} {m : Method} {o : Options}
  {b d : BlockId} {bci : Nat} {current : Option BlockId} {due : List BlockId}

/-- The answers of an action, whatever its faults are. -/
abbrev Assembly.Answers {α : Type} (x : Assemble α) (s : Assembly) (good : α → Assembly → Prop) : Prop :=
  Yields x s good fun _ _ => True

/-- The graph of an assembly is in the making. -/
def Assembly.Makes (current : Option BlockId) (due : List BlockId) (s : Assembly) : Prop :=
  s.current = current ∧ s.graph.Making current due

/-! ## Looking for blocks -/

theorem Chain.making_locate : ∀ (chain : List Context) (draft : Draft),
    draft.graph.Making current due → (locate bci chain draft).2.2.graph.Making current due
  | [], _, h => h
  | c :: outer, draft, h => by
    rw [locate]
    cases c.subroutine with
    | none => exact h
    | some sub =>
      simp only
      cases sub.copies.get bci with
      | some copy => exact h
      | none =>
        have hrest := making_locate outer draft h
        simp only
        generalize locate bci outer draft = found at hrest ⊢
        obtain ⟨original, outer', draft'⟩ := found
        cases original with
        | none => exact hrest
        | some original => exact .copy original hrest

namespace Assembly.Makes

theorem congr (h : s.Makes current due) (hgraph : t.graph = s.graph) (hcurrent : t.current = s.current) :
    t.Makes current due := ⟨hcurrent.trans h.1, hgraph ▸ h.2⟩

theorem locate (h : s.Makes current due) (bci : Nat) : (locate bci s).2.Makes current due :=
  ⟨h.1, Chain.making_locate s.chain s.toDraft h.2⟩

theorem expectBlock (h : s.Makes current due) (bci : Nat) :
    Answers (expectBlock bci) s fun _ t => t.Makes current due := by
  unfold Assembly.expectBlock
  rw [Answers, yields_bind, yields_modifyGet]
  have hlocate := h.locate bci
  generalize Assembly.locate bci s = found at hlocate ⊢
  obtain ⟨d, t⟩ := found
  cases d with
  | none => trivial
  | some d => exact hlocate

/-- A block is queued for a reason. -/
theorem schedule (h : s.Makes current due) (hd : s.graph.Due due d) :
    (schedule d s).Makes current due := by
  unfold Assembly.schedule
  cases s.chain with
  | nil => exact h
  | cons c outer =>
    simp only
    split
    · exact h
    · exact ⟨h.1, h.2.enqueue hd⟩

/-- The open block has to lead to what is scheduled while it is open. -/
theorem scheduleAt (h : s.Makes (some b) due) (bci : Nat) :
    Answers (scheduleAt bci) s fun d t => t.Makes (some b) (d :: due) := by
  unfold Assembly.scheduleAt
  refine (h.expectBlock bci).bind fun d t ht => ?_
  rw [yields_bind, yields_modify, yields_pure]
  have hpromised : t.Makes (some b) (d :: due) := ⟨ht.1, ht.2.promise d⟩
  exact hpromised.schedule (.promised List.mem_cons_self)

theorem scheduleAll : ∀ (targets : List Nat) {due : List BlockId} {s : Assembly},
    s.Makes (some b) due →
    Answers (targets.mapM Assembly.scheduleAt) s fun ds t => t.Makes (some b) (ds.reverse ++ due)
  | [], _, _, h => by rw [List.mapM_nil]; exact h
  | bci :: targets, due, s, h => by
    rw [List.mapM_cons]
    refine (h.scheduleAt bci).bind fun d t ht => ?_
    refine (scheduleAll targets ht).bind fun ds u hu => ?_
    rw [yields_pure, List.reverse_cons, List.append_assoc]
    exact hu

/-! ## What changes no block -/

theorem innermost (h : s.Makes current due) : Answers innermost s fun _ t => t.Makes current due := by
  unfold Answers Yields Assembly.innermost
  cases s.chain with
  | nil => trivial
  | cons c outer => exact h

theorem ofExcept {α : Type} (h : s.Makes current due) (x : Except Fault α) :
    Answers (ofExcept x) s fun _ t => t.Makes current due := by
  cases x with
  | error fault => trivial
  | ok a => exact h

theorem withCursor {α : Type} (h : s.Makes current due) (act : EStateM Fault Cursor α) :
    Answers (withCursor act) s fun _ t => t.Makes current due := by
  unfold Answers Yields Assembly.withCursor
  cases s.chain with
  | nil => trivial
  | cons c outer =>
    simp only
    cases act c.cursor with
    | error fault cursor => trivial
    | ok a cursor => exact h.congr rfl rfl

theorem trackStore (h : s.Makes current due) (opcode : Opcode) (bci slot width : Nat) :
    Answers (trackStore opcode bci slot width) s fun _ t => t.Makes current due := by
  unfold Answers Yields Assembly.trackStore
  cases s.chain with
  | nil => trivial
  | cons c outer =>
    simp only
    cases c.subroutine with
    | none => exact h
    | some sub =>
      simp only
      by_cases hfirst : bci = sub.entry ∧ opcode.storesReference = true
      · rw [if_pos hfirst]
        by_cases henclosing : Chain.enclosingKeeps (c :: outer) slot = true
        · rw [if_pos henclosing]; trivial
        · rw [if_neg henclosing]; exact h.congr rfl rfl
      · rw [if_neg hfirst]
        by_cases hlost : c.returnLocal.any (overwrites slot width) = true
        · rw [if_pos hlost]; exact h.congr rfl rfl
        · rw [if_neg hlost]; exact h

theorem returnTarget (h : s.Makes current due) (slot : Nat) :
    Answers (returnTarget slot) s fun _ t => t.Makes current due := by
  unfold Assembly.returnTarget
  refine h.innermost.bind fun c t ht => ?_
  by_cases hsub : c.isSubroutine = true
  · by_cases hlocal : c.returnLocal = some slot
    · simp only [hsub, hlocal, Bool.not_true, Bool.false_eq_true, if_false, ne_eq, not_true_eq_false]
      cases c.resume with
      | none => trivial
      | some target => exact ht
    · simp only [hsub, hlocal, Bool.not_true, Bool.false_eq_true, if_false, ne_eq, not_false_eq_true, if_true]
      trivial
  · simp only [hsub, Bool.not_false, if_true]
    trivial

/-! ## The open block -/

theorem append (h : s.Makes (some b) due) (site : Site) (opcode : Opcode) :
    (appendInstr b site opcode s).Makes (some b) due := ⟨h.1, h.2.append site opcode⟩

theorem finish {x : Exit} (h : s.Makes (some b) due) (hx : ∀ d ∈ due, d ∈ x.successors) :
    (finishBlock b x s).Makes none [] := ⟨rfl, h.2.close hx⟩

theorem linkEntries : ∀ (entries : List BlockId) {s : Assembly}, s.Makes (some b) due →
    (linkEntries b entries s).Makes (some b) due
  | [], _, h => h
  | d :: entries, s, h => by
    have hlinked : Assembly.Makes (some b) due { s with graph := s.graph.addHandlerEdge b d } :=
      ⟨h.1, h.2.link d⟩
    have hedge : (s.graph.addHandlerEdge b d).Edge b d :=
      .inr ((Graph.mem_handlers_addHandlerEdge h.2.orderly.lt).2 (.inr rfl))
    exact linkEntries entries (hlinked.schedule (.edge hedge))

theorem linkHandlers (h : s.Makes (some b) due) (bci : Nat) :
    Answers (linkHandlers b bci) s fun _ t => t.Makes (some b) due := by
  unfold Assembly.linkHandlers
  refine h.innermost.bind fun c t ht => ?_
  split
  · rw [yields_bind, yields_get]
    refine (ht.ofExcept _).bind fun hs u hu => ?_
    exact hu.linkEntries _
  · exact ht

/-! ## Calling a subroutine and going back -/

theorem copyHandlers : ∀ (l : List Handler) {s : Assembly}, s.Makes current due →
    Answers (copyHandlers l) s fun _ t => t.Makes current due
  | [], _, h => h
  | x :: rest, s, h => by
    rw [Assembly.copyHandlers]
    cases x.entryIndex? with
    | some bci =>
      simp only
      rw [Answers, yields_bind, yields_modifyGet]
      exact (copyHandlers rest (h.locate bci)).bind fun _ _ ht => ht
    | none =>
      simp only
      rw [Answers, yields_bind, yields_get]
      split
      · exact (copyHandlers rest h).bind fun _ _ ht => ht
      · trivial

theorem setUpHandlers (h : s.Makes current due) :
    Answers setUpHandlers s fun _ t => t.Makes current due := by
  unfold Assembly.setUpHandlers
  refine h.innermost.bind fun c t ht => ?_
  by_cases hsub : c.isSubroutine = true
  · simp only [hsub, Bool.not_true, Bool.false_eq_true, if_false]
    rw [yields_bind, yields_get]
    refine (ht.copyHandlers _).bind fun hs u hu => ?_
    rw [yields_modify]
    unfold modifyInnermost
    cases u.chain with
    | nil => exact hu
    | cons c outer => exact hu.congr rfl rfl
  · simp only [hsub, Bool.not_false, if_true]
    trivial

theorem callSubroutine (h : s.Makes (some b) []) (o : Options) (entry back : Nat) :
    Answers (callSubroutine o b entry back) s fun _ t => t.Makes none [] := by
  unfold Assembly.callSubroutine
  refine h.innermost.bind fun c t ht => ?_
  rw [yields_bind, yields_get]
  by_cases hentered : Chain.isEntered t.chain entry = true
  · simp only [hentered, if_true]
    trivial
  · simp only [hentered, Bool.false_eq_true, if_false]
    refine (ht.expectBlock back).bind fun r u hu => ?_
    rw [yields_bind, yields_get]
    refine (hu.ofExcept _).bind fun inner v hv => ?_
    rw [yields_bind, yields_modify]
    refine Yields.bind (setUpHandlers (s := v.push _) (hv.congr rfl rfl)) fun _ w hw => ?_
    rw [yields_bind, yields_modify]
    refine Yields.bind (expectBlock (s := w.note _) (hw.congr rfl rfl) entry) fun first z hz => ?_
    rw [yields_bind, yields_modify, yields_modify]
    have hclosed : (finishBlock b (.jsr first r) z).Makes none [] := hz.finish (by simp)
    refine hclosed.schedule (.edge (a := b) (.inl ?_))
    unfold Block.successors
    rw [show ((finishBlock b (.jsr first r) z).graph.block b).exit = some (.jsr first r) from
      Graph.exit_close_self hz.2.orderly.lt]
    exact List.mem_singleton_self first

/-- Going back queues the block after a call only if something comes back to it. -/
theorem closeContext (h : s.Makes none []) : Answers closeContext s fun _ t => t.Makes none [] := by
  unfold Answers Yields Assembly.closeContext
  cases hchain : s.chain with
  | nil => trivial
  | cons c outer =>
    cases outer with
    | nil => exact h
    | cons c' outer =>
      let left : Assembly := { s.note (.popped c.label) with chain := c' :: outer }
      have hleft : left.Makes none [] := h.congr rfl rfl
      cases hresume : c.resume with
      | none =>
        simp only [hresume]
        exact hleft
      | some r =>
        simp only [hresume]
        by_cases hnone : ((s.note (.popped c.label)).graph.block r).predecessors.isEmpty = true
        · rw [if_pos hnone]; exact hleft
        · rw [if_neg hnone]
          exact hleft.schedule (.entered fun hnil => hnone (List.isEmpty_iff.2 hnil))

/-! ## The steps -/

theorem next (h : s.Makes (some b) []) (bci : Nat) :
    Answers (do
      let next ← Assembly.scheduleAt bci
      modify (finishBlock b (.goto next))) s fun _ t => t.Makes none [] := by
  refine (h.scheduleAt bci).bind fun d t ht => ?_
  rw [yields_modify]
  exact ht.finish (by simp [Exit.successors])

theorem parseInstr (h : s.Makes (some b) []) (o : Options) :
    Answers (parseInstr o b) s fun _ t => t.Makes t.current [] := by
  unfold Assembly.parseInstr
  refine h.innermost.bind fun c s₀ h₀ => ?_
  refine (h₀.linkHandlers _).bind fun _ s₁ h₁ => ?_
  rw [yields_bind, yields_modify]
  have h₂ := h₁.append (.code c.cursor.position) c.cursor.opcode
  have hclosed : ∀ {t : Assembly}, t.Makes none [] → t.Makes t.current [] := fun ht => ht.1.symm ▸ ht
  cases c.cursor.opcode.flow with
  | branch =>
    refine (h₂.ofExcept _).bind fun target s₃ h₃ => ?_
    refine (h₃.scheduleAt target).bind fun d s₄ h₄ => ?_
    refine (h₄.scheduleAt _).bind fun d' s₅ h₅ => ?_
    rw [yields_modify]
    exact hclosed (h₅.finish (by simp [Exit.successors]))
  | goto =>
    refine (h₂.ofExcept _).bind fun target s₃ h₃ => ?_
    exact (h₃.next target).mono (fun _ _ ht => hclosed ht) fun _ _ hb => hb
  | switch =>
    refine (h₂.ofExcept _).bind fun targets s₃ h₃ => ?_
    refine (h₃.scheduleAt _).bind fun d s₄ h₄ => ?_
    refine (h₄.scheduleAll _).bind fun ds s₅ h₅ => ?_
    rw [yields_modify]
    refine hclosed (h₅.finish fun d' hd' => List.mem_eraseDups.2 ?_)
    simpa [or_comm] using hd'
  | jsr =>
    refine (h₂.ofExcept _).bind fun target s₃ h₃ => ?_
    exact (h₃.callSubroutine o target _).mono (fun _ _ ht => hclosed ht) fun _ _ hb => hb
  | ret =>
    refine (h₂.ofExcept _).bind fun slot s₃ h₃ => ?_
    refine (h₃.returnTarget slot).bind fun target s₄ h₄ => ?_
    rw [yields_modify]
    exact hclosed (h₄.finish (by simp))
  | leave =>
    rw [yields_bind, yields_modify, yields_modify]
    have hcount : (countReturn (appendInstr b _ _ s₁)).Makes (some b) [] := h₂.congr rfl rfl
    exact hclosed (hcount.finish (by simp))
  | throw =>
    rw [yields_modify]
    exact hclosed (h₂.finish (by simp))
  | next =>
    have hrest : ∀ u : Assembly, u.Makes (some b) [] → Answers (do
        if ((← Assembly.innermost).table.get c.cursor.next).isSome then
          let next ← Assembly.scheduleAt c.cursor.next
          modify (finishBlock b (.goto next))
        else if (← Assembly.withCursor Cursor.advance).isNone then
          throw (.malformed c.cursor.position .fallsOff)) u fun _ t => t.Makes t.current [] := by
      intro u hu
      refine hu.innermost.bind fun c' v hv => ?_
      split
      · exact (hv.next _).mono (fun _ _ ht => hclosed ht) fun _ _ hb => hb
      · refine (hv.withCursor _).bind fun advanced w hw => ?_
        have hopen : w.Makes w.current [] := hw.1.symm ▸ hw
        split
        · trivial
        · exact hopen
    simp only
    cases c.cursor.opcode.writtenSlots? with
    | none => exact hrest _ h₂
    | some width =>
      refine (h₂.ofExcept _).bind fun slot s₃ h₃ => ?_
      exact (h₃.trackStore _ _ slot width).bind fun _ s₄ h₄ => hrest s₄ h₄

end Assembly.Makes

variable {c : Context} {outer : List Context}

theorem Inv.openBlock_makes {n : Nat} {rest : List (BlockId × Nat)} (h : Inv st home path s)
    (hs : s.Makes none []) (hchain : s.chain = c :: outer)
    (hagenda : c.agenda.entries = (b, n) :: rest) :
    Answers (Assembly.openBlock m o b) { s with chain := { c with agenda := ⟨rest⟩ } :: outer }
      fun _ t => t.Makes t.current [] := by
  obtain ⟨-, hqueued, hunvisited⟩ := (hchain ▸ h.base.queue.agendas).head.fits b (by rw [hagenda]; simp)
  have hvisit : (s.graph.visit b).Making (some b) [] := hs.2.visit hqueued hunvisited
  unfold Assembly.openBlock
  rw [Answers, yields_bind, yields_modify, yields_bind, yields_get]
  split
  · trivial
  · rw [yields_bind, yields_modify, yields_bind, yields_get]
    show Yields (if ((s.graph.visit b).block b).flags.defaultHandler = true then _ else _) _ _ _
    split
    · rw [yields_modify]
      exact ⟨rfl, ((hvisit.append _ _).append _ _).close (by simp)⟩
    · rw [yields_bind, yields_innermost rfl, yields_bind, yields_modify, yields_bind]
      unfold Yields withCursor
      simp only [note]
      cases Cursor.moveTo _ c.cursor with
      | error fault cursor => trivial
      | ok opcode cursor => exact ⟨rfl, hvisit⟩

theorem Inv.step_makes (h : Inv st home path s) (hs : s.Makes s.current []) :
    Answers (Assembly.step m o) s fun _ t => t.Makes t.current [] := by
  cases hcurrent : s.current with
  | some b =>
    rw [hcurrent] at hs
    exact (yields_step_some hcurrent).2 (hs.parseInstr o)
  | none =>
    rw [hcurrent] at hs
    obtain ⟨c, outer, hchain⟩ := h.base.contexts.exists_cons
    cases hentries : c.agenda.entries with
    | nil =>
      rw [Answers, h.base.yields_step_nil hcurrent hchain hentries]
      exact hs.closeContext.mono (fun _ _ ht => ht.1.symm ▸ ht) fun _ _ hb => hb
    | cons e rest =>
      rw [Answers, h.base.yields_step_cons hcurrent hchain hentries]
      exact h.openBlock_makes hs hchain hentries

/-- A run makes a graph. -/
theorem Inv.run_makes : ∀ {fuel : Nat} {home : Homes} {path : List BlockId} {s : Assembly},
    Inv st home path s → s.Makes s.current [] →
    Answers (Assembly.run m o fuel) s fun _ t => t.Makes t.current []
  | 0, _, _, _, _, _ => trivial
  | fuel + 1, _, _, s, h, hs => by
    unfold Assembly.run
    refine Yields.bind ((h.step.and (h.step_makes hs)).mono (fun _ _ ht => ht) fun _ _ _ => trivial) ?_
    rintro done t ⟨ht, hmakes⟩
    cases done with
    | true => exact hmakes
    | false =>
      obtain ⟨home', path', ht⟩ := ht
      exact ht.run_makes hmakes

end BlockGraph
