import BlockGraph.Proofs.Assembly.Scheduling
import BlockGraph.Proofs.Insertion.Graphs

/-!
# Actions beside one more block

An assembly may be another one with a block that unlocks put in, which waits at the end of the outermost
agenda once it is queued (`Assembly.Gains`). `Alike` says of two actions that they keep it so, with
answers that differ in names of blocks only. Every action of a step goes alike on both sides, but for
the edges to handlers: an instruction gets one more of them, and that queues the block that
was put in (`Assembly.Gains.linkHandlers`).
-/

namespace BlockGraph

variable {size : Nat} {n : BlockId} {queued : Bool} {c : Context} {chain chain' outer : List Context}
  {s s' : Assembly} {b : BlockId}

/-! ## Agendas -/

/-- A block goes before those with higher numbers that wait at the end. -/
theorem Agenda.insertEntry_shift {number : Nat} (hnumber : number < n) {waiting : List (BlockId × Nat)}
    (hwaiting : ∀ e ∈ waiting, e.2 = n) : ∀ l : List (BlockId × Nat),
    insertEntry (shift n b) number (l.map (Prod.map (shift n) id) ++ waiting) =
      (insertEntry b number l).map (Prod.map (shift n) id) ++ waiting
  | [] => by
    cases waiting with
    | nil => rfl
    | cons e rest =>
      have hlt : number < e.2 := hwaiting e List.mem_cons_self ▸ hnumber
      simp [insertEntry, hlt]
  | (d, k) :: l => by
    have hrest := insertEntry_shift hnumber hwaiting l
    by_cases hlt : number < k
    · simp [insertEntry, hlt]
    · simp [insertEntry, hlt, hrest]

/-- A block with a number that is higher than all others goes last. -/
theorem Agenda.insertEntry_last : ∀ {l : List (BlockId × Nat)}, (∀ e ∈ l, e.2 < n) →
    insertEntry n n l = l ++ [(n, n)]
  | [], _ => rfl
  | e :: l, h => by
    have hlt : ¬ n < e.2 := Nat.not_lt.2 (Nat.le_of_lt (h e List.mem_cons_self))
    have hrest := insertEntry_last fun d hd => h d (List.mem_cons_of_mem e hd)
    simp [insertEntry, hlt, hrest]

/-! ## Chains -/

/-- Chain `chain'` is `chain` with its blocks renamed, where the block that was put in waits at the end of
the outermost agenda if it is queued, as it is once there is another context. -/
inductive Chain.Gains (size : Nat) (n : BlockId) : Bool → List Context → List Context → Prop
  | root {queued : Bool} {c : Context} : c.scope = 0 → (∀ e ∈ c.agenda.entries, e.2 < n) →
    Gains size n queued [c] [c.shift size n (if queued then [(n, n)] else [])]
  | call {c : Context} {outer outer' : List Context} : c.scope = 0 → Gains size n true outer outer' →
    Gains size n true (c :: outer) (c.shift size n [] :: outer')

namespace Chain.Gains

/-- The innermost contexts correspond, and they may be exchanged for others that do. -/
theorem exists_cons (h : Chain.Gains size n queued (c :: outer) chain') : c.scope = 0 ∧
    ∃ waiting outer', chain' = c.shift size n waiting :: outer' ∧ (∀ e ∈ waiting, e = (n, n)) ∧
      ∀ d : Context, d.scope = 0 → (∀ e ∈ d.agenda.entries, e ∈ c.agenda.entries ∨ e.2 < n) →
        Chain.Gains size n queued (d :: outer) (d.shift size n waiting :: outer') := by
  cases h with
  | root hscope hagenda =>
    refine ⟨hscope, _, [], rfl, fun e he => ?_, fun d hd hentries => .root hd fun e he => ?_⟩
    · cases queued <;> simp at he
      exact he
    · exact (hentries e he).elim (hagenda e) id
  | call hscope hrest => exact ⟨hscope, [], _, rfl, by simp, fun d hd _ => .call hd hrest⟩

/-- Only on the outermost agenda does the block that was put in wait. -/
theorem waiting_cases {waiting : List (BlockId × Nat)} {outer' : List Context}
    (h : Chain.Gains size n queued (c :: outer) (c.shift size n waiting :: outer')) :
    waiting = [] ∨ waiting = [(n, n)] ∧ queued = true ∧ outer = [] ∧ outer' = [] := by
  generalize hshift : c.shift size n waiting = c' at h
  have hentries := congrArg (fun d : Context => d.agenda.entries) hshift
  cases h with
  | root =>
    obtain rfl := List.append_cancel_left hentries
    cases queued
    · exact .inl rfl
    · exact .inr ⟨rfl, rfl, rfl, rfl⟩
  | call => exact .inl (List.append_cancel_left hentries)

theorem exists_head (h : Chain.Gains size n queued chain chain') : ∃ c outer, chain = c :: outer := by
  cases h with
  | root => exact ⟨_, _, rfl⟩
  | call => exact ⟨_, _, rfl⟩

/-- As long as the block that was put in is not queued, there is one context. -/
theorem exists_root (h : Chain.Gains size n false chain chain') : ∃ c, chain = [c] ∧
    chain' = [c.shift size n []] ∧ c.scope = 0 ∧ ∀ e ∈ c.agenda.entries, e.2 < n := by
  cases h with
  | root hscope hagenda => exact ⟨_, rfl, rfl, hscope, hagenda⟩

/-- The innermost subroutines start at the same indices. -/
theorem any_entered (h : Chain.Gains size n queued chain chain') (p : Context → Bool)
    (hp : ∀ (c : Context) waiting, p (c.shift size n waiting) = p c) (scope : ScopeId) :
    (Chain.subroutinesOf scope chain').any p = (Chain.subroutinesOf scope chain).any p := by
  unfold Chain.subroutinesOf
  induction h with
  | @root _ c =>
    rw [List.takeWhile_cons, List.takeWhile_cons, Context.isSubroutine_shift]
    show (if (c.isSubroutine && c.scope == scope) = true then _ else _ : List Context).any p = _
    split
    · simp [hp]
    · rfl
  | @call c outer outer' _ _ ih =>
    rw [List.takeWhile_cons, List.takeWhile_cons, Context.isSubroutine_shift]
    show (if (c.isSubroutine && c.scope == scope) = true then _ else _ : List Context).any p = _
    split
    · rw [List.any_cons, List.any_cons, hp, ih]
    · rfl

theorem isEntered (h : Chain.Gains size n queued chain chain') (entry : Nat) :
    Chain.isEntered chain' entry = Chain.isEntered chain entry := by
  obtain ⟨c, outer, rfl⟩ := h.exists_head
  obtain ⟨-, waiting, outer', rfl, -⟩ := h.exists_cons
  exact h.any_entered (fun c => c.entryIndex == entry) (fun c waiting => by rw [Context.entryIndex_shift]) c.scope

theorem enclosingKeeps (h : Chain.Gains size n queued chain chain') (slot : Nat) :
    Chain.enclosingKeeps chain' slot = Chain.enclosingKeeps chain slot := by
  cases h with
  | root => rfl
  | call _ hrest => exact hrest.any_entered (fun c => c.returnLocal == some slot) (fun _ _ => rfl) _

theorem countReturn (h : Chain.Gains size n queued chain chain') :
    Chain.Gains size n queued (Chain.countReturn chain) (Chain.countReturn chain') := by
  induction h with
  | @root _ c hscope hagenda => exact .root (c := { c with returns := c.returns + 1 }) hscope hagenda
  | @call c outer outer' hscope hrest ih =>
    obtain ⟨d, inner, rfl⟩ := hrest.exists_head
    obtain ⟨-, waiting, inner', rfl, -⟩ := hrest.exists_cons
    unfold Chain.countReturn
    rw [Context.isSubroutine_shift]
    split
    · exact .call hscope ih
    · exact .call (c := { c with returns := c.returns + 1 }) hscope hrest

/-- A context that need not ask those around it finds a block under its new name. -/
theorem locate_here (c : Context) (waiting : List (BlockId × Nat)) (outer outer' : List Context) (bci : Nat)
    (d d' : Draft) :
    (∃ b, Chain.locate bci (c :: outer) d = (b, c :: outer, d) ∧
      Chain.locate bci (c.shift size n waiting :: outer') d' =
        (b.map (shift n), c.shift size n waiting :: outer', d')) ∨
      ∃ sub, c.subroutine = some sub ∧ sub.copies.get bci = none ∧
        (c.shift size n waiting).subroutine = some (sub.shift size n) ∧
        (sub.shift size n).copies.get bci = none := by
  have hsub' : (c.shift size n waiting).subroutine = c.subroutine.map (Subroutine.shift size n) := rfl
  have htable : (c.shift size n waiting).table.get bci = (c.table.get bci).map (shift n) :=
    BlockTable.get_map _ c.table bci
  cases hsub : c.subroutine with
  | none =>
    left
    simp only [Chain.locate, hsub', hsub, Option.map_none, htable]
    exact ⟨_, rfl, rfl⟩
  | some sub =>
    have hcopies : (sub.shift size n).copies.get bci = (sub.copies.get bci).map (shift n) :=
      BlockTable.get_map _ sub.copies bci
    cases hcopy : sub.copies.get bci with
    | some copy =>
      left
      simp only [Chain.locate, hsub', hsub, Option.map_some, hcopies, hcopy]
      exact ⟨_, rfl, rfl⟩
    | none => exact .inr ⟨sub, rfl, hcopy, by rw [hsub', hsub]; rfl, by rw [hcopies, hcopy]; rfl⟩

/-- A block is found under its new name. -/
theorem locate (h : Chain.Gains size n queued chain chain') (bci : Nat) {d d' : Draft}
    (hd : d.graph.Gains size n queued d'.graph) :
    (Chain.locate bci chain' d').1 = (Chain.locate bci chain d).1.map (shift n) ∧
      Chain.Gains size n queued (Chain.locate bci chain d).2.1 (Chain.locate bci chain' d').2.1 ∧
      (Chain.locate bci chain d).2.2.graph.Gains size n queued (Chain.locate bci chain' d').2.2.graph := by
  induction h with
  | @root queued c hscope hagenda =>
    have hchain : Chain.Gains size n queued [c] _ := .root hscope hagenda
    rcases locate_here c _ [] [] bci d d' with ⟨b, hfound, hfound'⟩ | ⟨sub, hsub, hcopy, hsub', hcopy'⟩
    · rw [hfound, hfound']
      exact ⟨rfl, hchain, hd⟩
    · simp only [Chain.locate, hsub, hcopy, hsub', hcopy']
      exact ⟨rfl, hchain, hd⟩
  | @call c outer outer' hscope hrest ih =>
    rcases locate_here c [] outer outer' bci d d' with ⟨b, hfound, hfound'⟩ | ⟨sub, hsub, hcopy, hsub', hcopy'⟩
    · rw [hfound, hfound']
      exact ⟨rfl, .call hscope hrest, hd⟩
    simp only [Chain.locate, hsub, hcopy, hsub', hcopy']
    have hfound := ih hd
    generalize Chain.locate bci outer d = found at hfound ⊢
    generalize Chain.locate bci outer' d' = found' at hfound ⊢
    obtain ⟨original, outer₁, d₁⟩ := found
    obtain ⟨original', outer₁', d₁'⟩ := found'
    obtain ⟨horiginal, hrest₁, hd₁⟩ := hfound
    cases horiginal
    cases original with
    | none => exact ⟨rfl, .call hscope hrest₁, hd₁⟩
    | some original =>
      obtain ⟨hcopied, hnew⟩ := hd₁.copyBlock original
      have hkept := Chain.Gains.call (c := c.keepCopy bci (d₁.graph.copyBlock original).1) hscope hrest₁
      rw [← Context.keepCopy_shift, ← hnew] at hkept
      exact ⟨congrArg some hnew, hkept, hcopied⟩

end Chain.Gains

/-! ## Assemblies -/

/-- Assembly `s'` is `s` with a block that unlocks put in. -/
structure Assembly.Gains (size : Nat) (n : BlockId) (queued : Bool) (s s' : Assembly) : Prop where
  graph : s.graph.Gains size n queued s'.graph
  chain : Chain.Gains size n queued s.chain s'.chain
  current : s'.current = s.current.map (shift n)
  parsedBlocks : s'.parsedBlocks = s.parsedBlocks

namespace Assembly

/-- The actions go alike from assemblies of which one is the other with a block put in, and keep that; what they
answer is related by `r`. -/
def Alike {α α' : Type} (size : Nat) (n : BlockId) (queued : Bool) (x : Assemble α) (x' : Assemble α')
    (r : α → α' → Prop) : Prop :=
  ∀ s s', s.Gains size n queued s' → Pairs x x' s s' fun a t a' t' => r a a' ∧ t.Gains size n queued t'

section
variable {α α' β β' : Type} {x : Assemble α} {x' : Assemble α'} {f : α → Assemble β} {f' : α' → Assemble β'}
  {r : α → α' → Prop} {r' : β → β' → Prop}

theorem Alike.bind (hx : Alike size n queued x x' r)
    (hf : ∀ a a', r a a' → Alike size n queued (f a) (f' a') r') :
    Alike size n queued (x >>= f) (x' >>= f') r' := fun s s' hs =>
  (hx s s' hs).bind fun a t a' t' ht => hf a a' ht.1 t t' ht.2

/-- Where the one answer is told from the other, only the first one is left. -/
theorem Alike.bind_eq {e : α → α'} (hx : Alike size n queued x x' fun a a' => a' = e a)
    (hf : ∀ a, Alike size n queued (f a) (f' (e a)) r') :
    Alike size n queued (x >>= f) (x' >>= f') r' :=
  hx.bind fun a _ ha => ha ▸ hf a

theorem alike_pure {a : α} {a' : α'} (h : r a a') : Alike size n queued (pure a) (pure a') r :=
  fun _ _ hs => ⟨h, hs⟩

theorem alike_throw (fault : Fault) :
    Alike size n queued (throw fault : Assemble α) (throw fault : Assemble α') r := fun _ _ _ => rfl

theorem alike_throw_bind (fault : Fault) :
    Alike size n queued (throw fault >>= f) (throw fault >>= f') r' := fun _ _ _ => rfl

theorem alike_get : Alike size n queued get get (Assembly.Gains size n queued) := fun _ _ hs => ⟨hs, hs⟩

theorem alike_modify {f f' : Assembly → Assembly}
    (h : ∀ s s', s.Gains size n queued s' → (f s).Gains size n queued (f' s')) :
    Alike size n queued (modify f) (modify f') fun _ _ => True := fun s s' hs => ⟨trivial, h s s' hs⟩

theorem alike_ofExcept (x : Except Fault α) :
    Alike size n queued (ofExcept x) (ofExcept x) fun a a' => a' = a := fun _ _ hs => by
  cases x with
  | ok a => exact ⟨rfl, hs⟩
  | error fault => rfl

end

/-- Nothing but the transcript is written. -/
theorem Gains.note (h : s.Gains size n queued s') (e e' : Event) :
    (s.note e).Gains size n queued (s'.note e') := ⟨h.graph, h.chain, h.current, h.parsedBlocks⟩

theorem alike_note (e e' : Event) :
    Alike size n queued (modify (·.note e)) (modify (·.note e')) fun _ _ => True :=
  alike_modify fun _ _ hs => hs.note e e'

/-- The innermost contexts correspond, and they may be exchanged for others that do. -/
theorem Gains.exists_cons (h : s.Gains size n queued s') : ∃ c outer waiting outer', s.chain = c :: outer ∧
    s'.chain = c.shift size n waiting :: outer' ∧ c.scope = 0 ∧ (∀ e ∈ waiting, e = (n, n)) ∧
    ∀ d : Context, d.scope = 0 → (∀ e ∈ d.agenda.entries, e ∈ c.agenda.entries ∨ e.2 < n) →
      Chain.Gains size n queued (d :: outer) (d.shift size n waiting :: outer') := by
  obtain ⟨c, outer, hchain⟩ := h.chain.exists_head
  obtain ⟨hscope, waiting, outer', hchain', hwaiting, hexchange⟩ := (hchain ▸ h.chain).exists_cons
  exact ⟨c, outer, waiting, outer', hchain, hchain', hscope, hwaiting, hexchange⟩

theorem alike_innermost : Alike size n queued innermost innermost fun c c' =>
    c.scope = 0 ∧ ∃ waiting, c' = c.shift size n waiting := by
  intro s s' hs
  obtain ⟨c, outer, waiting, outer', hchain, hchain', hscope, -⟩ := hs.exists_cons
  simp only [Pairs, innermost, hchain, hchain']
  exact ⟨⟨hscope, waiting, rfl⟩, hs⟩

theorem alike_withCursor {α : Type} (act : EStateM Fault Cursor α) :
    Alike size n queued (withCursor act) (withCursor act) fun a a' => a' = a := by
  intro s s' hs
  obtain ⟨c, outer, waiting, outer', hchain, hchain', hscope, -, hexchange⟩ := hs.exists_cons
  have hcursor : (c.shift size n waiting).cursor = c.cursor := rfl
  cases hact : act c.cursor with
  | ok a cursor =>
    simp only [Pairs, withCursor, hchain, hchain', hcursor, hact]
    exact ⟨trivial, hs.graph, hexchange { c with cursor := cursor } hscope fun _ he => .inl he, hs.current,
      hs.parsedBlocks⟩
  | error fault cursor => simp only [Pairs, withCursor, hchain, hchain', hcursor, hact]

/-! ## Looking for blocks -/

theorem alike_locate (bci : Nat) : Alike size n queued (modifyGet (locate bci)) (modifyGet (locate bci))
    fun b b' => b' = b.map (shift n) := by
  intro s s' hs
  obtain ⟨hfound, hchain, hgraph⟩ := hs.chain.locate bci hs.graph
  exact ⟨hfound, hgraph, hchain, hs.current, hs.parsedBlocks⟩

theorem alike_expectBlock (bci : Nat) :
    Alike size n queued (expectBlock bci) (expectBlock bci) fun b b' => b' = shift n b := by
  unfold expectBlock
  refine (alike_locate bci).bind_eq fun b => ?_
  cases b with
  | none => exact alike_throw _
  | some b => exact alike_pure rfl

/-! ## Putting blocks on agendas -/

theorem Gains.schedule (h : s.Gains size n queued s') (b : BlockId) :
    (schedule b s).Gains size n queued (schedule (shift n b) s') := by
  obtain ⟨c, outer, waiting, outer', hchain, hchain', hscope, hwaiting, hexchange⟩ := h.exists_cons
  have hcontinuation : ((c.shift size n waiting).continuation == some (shift n b)) = (c.continuation == some b) :=
    Bool.eq_iff_iff.2 (by rw [beq_iff_eq, beq_iff_eq]; exact map_shift_eq_some)
  have hresume : ((c.shift size n waiting).resume == some (shift n b)) = (c.resume == some b) :=
    Bool.eq_iff_iff.2 (by rw [beq_iff_eq, beq_iff_eq]; exact map_shift_eq_some)
  unfold Assembly.schedule
  simp only [hchain, hchain', h.graph.queued_eq, hcontinuation, hresume, h.graph.number_eq]
  split
  · exact h
  · refine ⟨h.graph.enqueue, ?_, h.current, h.parsedBlocks⟩
    have hinsert := Agenda.insertEntry_shift (b := b) (h.graph.number b)
      (fun e he => congrArg Prod.snd (hwaiting e he)) c.agenda.entries
    have hnew := hexchange { c with agenda := c.agenda.insert b (s.graph.block b).number } hscope fun e he => by
      rcases Agenda.mem_insertEntry.1 he with rfl | he
      · exact .inr (h.graph.number b)
      · exact .inl he
    show Chain.Gains size n queued _ ({ c.shift size n waiting with agenda := ⟨_⟩ } :: outer')
    rw [Context.shift, hinsert]
    exact hnew

/-- The block that was put in is put on the outermost agenda, unless it has been there. -/
theorem Gains.schedule_unlock (h : s.Gains size n queued s') :
    s.Gains size n true (Assembly.schedule n s') := by
  have hblock := h.graph.unlock
  cases queued with
  | true =>
    obtain ⟨c, outer, waiting, outer', hchain, hchain', -⟩ := h.exists_cons
    unfold Assembly.schedule
    simp only [hchain', hblock, Block.unlocking, Bool.true_or, if_true]
    exact h
  | false =>
    obtain ⟨c, hchain, hchain', hscope, hagenda⟩ := h.chain.exists_root
    have hcontinuation : ((c.shift size n []).continuation == some n) = false := by
      rw [beq_eq_false_iff_ne]
      exact map_shift_ne_some _
    have hresume : ((c.shift size n []).resume == some n) = false := by
      rw [beq_eq_false_iff_ne]
      exact map_shift_ne_some _
    unfold Assembly.schedule
    simp only [hchain', hblock, Block.unlocking, hcontinuation, hresume, Bool.or_false, Bool.false_eq_true,
      if_false]
    refine ⟨h.graph.enqueue_unlock, ?_, h.current, h.parsedBlocks⟩
    have hlast : Agenda.insertEntry n n (c.agenda.entries.map (Prod.map (shift n) id) ++ []) =
        c.agenda.entries.map (Prod.map (shift n) id) ++ [(n, n)] := by
      rw [List.append_nil]
      refine Agenda.insertEntry_last fun e he => ?_
      obtain ⟨d, hd, rfl⟩ := List.mem_map.1 he
      exact hagenda d hd
    have hroot : Chain.Gains size n true [c] _ := .root hscope hagenda
    show Chain.Gains size n true s.chain [{ c.shift size n [] with agenda := ⟨_⟩ }]
    rw [hchain, Context.shift, hlast]
    exact hroot

theorem alike_schedule (b : BlockId) :
    Alike size n queued (modify (schedule b)) (modify (schedule (shift n b))) fun _ _ => True :=
  alike_modify fun _ _ hs => hs.schedule b

theorem alike_scheduleAt (bci : Nat) :
    Alike size n queued (scheduleAt bci) (scheduleAt bci) fun b b' => b' = shift n b := by
  unfold scheduleAt
  refine (alike_expectBlock bci).bind_eq fun b => ?_
  exact (alike_schedule b).bind fun _ _ _ => alike_pure rfl

theorem alike_scheduleAll : ∀ targets : List Nat,
    Alike size n queued (targets.mapM scheduleAt) (targets.mapM scheduleAt) fun l l' => l' = l.map (shift n)
  | [] => alike_pure rfl
  | bci :: targets => by
    rw [List.mapM_cons]
    refine (alike_scheduleAt bci).bind_eq fun b => (alike_scheduleAll targets).bind_eq fun l => ?_
    exact alike_pure (List.map_cons ..).symm

/-! ## Blocks that are written -/

theorem alike_append (b : BlockId) (site : Site) (opcode : Opcode) : Alike size n queued
    (modify (appendInstr b site opcode)) (modify (appendInstr (shift n b) site opcode)) fun _ _ => True :=
  alike_modify fun _ _ hs => ⟨hs.graph.append site opcode, hs.chain, hs.current, hs.parsedBlocks⟩

theorem alike_finish (b : BlockId) (x : Exit) : Alike size n queued
    (modify (finishBlock b x)) (modify (finishBlock (shift n b) (x.shift n))) fun _ _ => True :=
  alike_modify fun _ _ hs => ⟨hs.graph.close x, hs.chain, rfl, hs.parsedBlocks⟩

theorem alike_countReturn :
    Alike size n queued (modify countReturn) (modify countReturn) fun _ _ => True :=
  alike_modify fun _ _ hs => ⟨hs.graph, hs.chain.countReturn, hs.current, hs.parsedBlocks⟩

/-! ## Return addresses -/

theorem alike_returnTarget (slot : Nat) :
    Alike size n queued (returnTarget slot) (returnTarget slot) fun b b' => b' = shift n b := by
  unfold returnTarget
  refine alike_innermost.bind fun c _ hc => ?_
  obtain ⟨-, waiting, rfl⟩ := hc
  rw [Context.isSubroutine_shift]
  by_cases hsub : c.isSubroutine = true
  · by_cases hlocal : c.returnLocal = some slot
    · have hlocal' : (c.shift size n waiting).returnLocal = some slot := hlocal
      simp only [hsub, hlocal, hlocal', Bool.not_true, Bool.false_eq_true, if_false, ne_eq, not_true_eq_false]
      have hresume : (c.shift size n waiting).resume = c.resume.map (shift n) := rfl
      rw [hresume]
      cases c.resume with
      | none => exact alike_throw _
      | some target => exact alike_pure rfl
    · have hlocal' : ¬ (c.shift size n waiting).returnLocal = some slot := hlocal
      simp only [hsub, hlocal, hlocal', Bool.not_true, Bool.false_eq_true, if_false, ne_eq, not_false_eq_true,
        if_true]
      exact (alike_note _ _).bind fun _ _ _ => alike_throw_bind _
  · simp only [hsub, Bool.not_false, if_true]
    exact alike_throw_bind _

theorem alike_trackStore (opcode : Opcode) (bci slot width : Nat) : Alike size n queued
    (trackStore opcode bci slot width) (trackStore opcode bci slot width) fun _ _ => True := by
  intro s s' hs
  obtain ⟨c, outer, waiting, outer', hchain, hchain', hscope, -, hexchange⟩ := hs.exists_cons
  have hkeeps := hs.chain.enclosingKeeps slot
  rw [hchain, hchain'] at hkeeps
  have hsub' : (c.shift size n waiting).subroutine = c.subroutine.map (Subroutine.shift size n) := rfl
  have hlocal : (c.shift size n waiting).returnLocal = c.returnLocal := rfl
  cases hsub : c.subroutine with
  | none =>
    simp only [Pairs, trackStore, hchain, hchain', hsub', hsub, Option.map_none]
    exact ⟨trivial, hs⟩
  | some sub =>
    have hset := fun kept =>
      hexchange { c with subroutine := some sub, returnLocal := kept } hscope fun _ he => .inl he
    have hentry : (sub.shift size n).entry = sub.entry := rfl
    simp only [Pairs, trackStore, hchain, hchain', hsub', hsub, Option.map_some, hentry, hkeeps, hlocal]
    by_cases hfirst : bci = sub.entry ∧ opcode.storesReference = true
    · simp only [if_pos hfirst]
      by_cases henclosing : Chain.enclosingKeeps (c :: outer) slot = true
      · simp only [if_pos henclosing]
      · simp only [if_neg henclosing]
        exact ⟨trivial, hs.graph, hset _, hs.current, hs.parsedBlocks⟩
    · simp only [if_neg hfirst]
      by_cases hlost : c.returnLocal.any (overwrites slot width) = true
      · simp only [if_pos hlost]
        exact ⟨trivial, hs.graph, hset _, hs.current, hs.parsedBlocks⟩
      · simp only [if_neg hlost]
        exact ⟨trivial, hs⟩

/-! ## Handlers -/

/-- The handlers of a scope are copied for a subroutine, and then the handler without code is as it was. -/
theorem alike_copyHandlers : ∀ l : List Handler, Alike size n queued (copyHandlers l)
    (copyHandlers (l.map (Handler.shift n) ++ [.unlocking size n]))
    fun hs hs' => hs' = hs.map (Handler.shift n) ++ [.unlocking size n]
  | [] => by
    intro s s' hs
    have hflag : (s'.graph.block n).flags.defaultHandler = true := by rw [hs.graph.unlock]; rfl
    have hcopy : copyHandlers [.unlocking size n] s' = .ok [.unlocking size n] s' := by
      unfold copyHandlers
      show (if Option.any (fun b => (s'.graph.block b).flags.defaultHandler) (some n) = true then _ else _ :
        Assemble (List Handler)) s' = _
      rw [Option.any_some, if_pos hflag]
      rfl
    simp only [Pairs, List.map_nil, List.nil_append, hcopy]
    exact ⟨rfl, hs⟩
  | x :: rest => by
    have htarget : (x.shift n).entryIndex? = x.entryIndex? := rfl
    rw [List.map_cons, List.cons_append, copyHandlers, copyHandlers, htarget]
    cases x.entryIndex? with
    | some bci =>
      refine (alike_locate bci).bind_eq fun entry => ?_
      exact (alike_copyHandlers rest).bind_eq fun hs => alike_pure rfl
    | none =>
      refine alike_get.bind fun s s' hs => ?_
      have hflags : ∀ b, (s'.graph.block (shift n b)).flags = (s.graph.block b).flags := hs.graph.flags_eq
      have hany : (x.shift n).entry.any (fun b => (s'.graph.block b).flags.defaultHandler) =
          x.entry.any fun b => (s.graph.block b).flags.defaultHandler := by
        cases hentry : x.entry <;> simp [Handler.shift, hentry, hflags]
      rw [hany]
      split
      · exact (alike_copyHandlers rest).bind_eq fun hs => alike_pure rfl
      · exact alike_throw _

theorem alike_setUpHandlers :
    Alike size n queued setUpHandlers setUpHandlers fun _ _ => True := by
  unfold setUpHandlers
  refine alike_innermost.bind fun c _ hc => ?_
  obtain ⟨hscope, waiting, rfl⟩ := hc
  rw [Context.isSubroutine_shift]
  split
  · exact alike_throw_bind _
  · refine alike_get.bind fun s s' hs => ?_
    have hdeclared : s'.graph.declaredHandlers c.scope =
        (s.graph.declaredHandlers c.scope).map (Handler.shift n) ++ [.unlocking size n] := by
      rw [hscope]
      exact hs.graph.declared
    show Alike size n queued _ (copyHandlers (s'.graph.declaredHandlers c.scope) >>= _) _
    rw [hdeclared]
    refine (alike_copyHandlers _).bind_eq fun hs => alike_modify fun t t' ht => ?_
    obtain ⟨d, outer, waiting, outer', hchain, hchain', hscope, -, hexchange⟩ := ht.exists_cons
    unfold modifyInnermost
    simp only [hchain, hchain', Context.setHandlers_shift]
    have hset := hexchange
      { d with subroutine := d.subroutine.map ({ · with handlers := some hs }) } hscope fun _ he => .inl he
    exact ⟨ht.graph, hset, ht.current, ht.parsedBlocks⟩

/-! ## Calls -/

/-- The context of a call is guarded, as those around it are. -/
theorem Gains.newContext (h : s.Gains size n queued s') (scope : ScopeId) (table : BlockTable) (cursor : Cursor)
    (pool : ConstantPool) (o : Options) : s'.newContext scope (table.map (shift n)) cursor pool o =
      (s.newContext scope table cursor pool o).shift size n [] := by
  obtain ⟨c, outer, waiting, outer', hchain, hchain', -⟩ := h.exists_cons
  unfold Assembly.newContext
  simp only [Context.nested, hchain, hchain', List.head?_cons, Option.any_some, Option.elim_some]
  simp [Context.shift]

theorem alike_enter (hsub : c.subroutine = none) (hscope : c.scope = 0) (entry : Nat) :
    Alike size n queued (ofExcept (c.enter entry)) (ofExcept ((c.shift size n []).enter entry))
      fun d d' => d.scope = 0 ∧ d' = d.shift size n [] := by
  rw [Context.enter_shift hsub]
  unfold Context.enter
  split
  · exact fun _ _ _ => rfl
  · exact fun _ _ hs => ⟨⟨hscope, rfl⟩, hs⟩

theorem alike_callSubroutine (o : Options) (b : BlockId) (entry back : Nat) : Alike size n true
    (callSubroutine o b entry back) (callSubroutine o (shift n b) entry back) fun _ _ => True := by
  unfold callSubroutine
  refine alike_innermost.bind fun c _ hc => ?_
  obtain ⟨hscope, waiting, rfl⟩ := hc
  refine alike_get.bind fun s s' hs => ?_
  rw [hs.chain.isEntered]
  split
  · exact (alike_note _ _).bind fun _ _ _ => alike_throw _
  · refine (alike_expectBlock back).bind_eq fun resume => ?_
    refine alike_get.bind fun t t' ht => ?_
    show Alike size n true _ (ofExcept ((t'.newContext c.scope (c.table.map (shift n)) c.cursor c.pool o).enter
      entry) >>= _) _
    rw [ht.newContext]
    refine (alike_enter (c := t.newContext c.scope c.table c.cursor c.pool o) rfl hscope entry).bind
      fun inner _ hinner => ?_
    obtain ⟨hinner, rfl⟩ := hinner
    refine (alike_modify fun u u' hu => ?_).bind fun _ _ _ => ?_
    · refine ⟨hu.graph, ?_, hu.current, hu.parsedBlocks⟩
      exact .call (c := { inner with
        resume := some resume
        continuation := c.continuation
        continuationFrame := c.continuationFrame }) hinner hu.chain
    · refine alike_setUpHandlers.bind fun _ _ _ => (alike_note _ _).bind fun _ _ _ => ?_
      refine (alike_expectBlock entry).bind_eq fun first => ?_
      exact (alike_finish b (.jsr first resume)).bind fun _ _ _ => alike_schedule first

end Assembly
end BlockGraph
