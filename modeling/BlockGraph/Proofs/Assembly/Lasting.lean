import BlockGraph.Proofs.Assembly.Moves

/-!
# What lasts while an instruction is parsed

Parsing an instruction puts a few kinds of things together: blocks are looked for and put on the innermost
agenda, the open block gets edges to handlers and an instruction, contexts get handlers, the cursor moves,
remarks are noted. Whatever these keep (`Steady`, `Lasting`) lasts until the local of the return address is
tracked, and after that until the block is closed (`parseInstr_yields`), also with a call
(`callSubroutine_yields`). A block that is put on an agenda is one of the graph (`Bounded`).
-/

namespace BlockGraph

/-- The entry tells of no context that comes or goes, and of no block that is scheduled or parsed. -/
def Event.isRemark : Event → Bool
  | .pushed _ | .popped _ | .scheduling .. | .parsing .. => false
  | _ => true

/-- Blank blocks may have been added, and nothing else has changed. -/
structure Graph.Extends (g g' : Graph) : Prop where
  size_le : g.blocks.size ≤ g'.blocks.size
  block_eq : ∀ b, b < g.blocks.size → g'.block b = g.block b
  blank : ∀ b, g.blocks.size ≤ b → g'.block b = (g'.block b).blankCopy
  rest : { g' with blocks := g.blocks } = g

namespace Graph.Extends

variable {g g' g'' : Graph}

theorem refl (g : Graph) : g.Extends g where
  size_le := Nat.le_refl _
  block_eq _ _ := rfl
  blank _ hb := by rw [block_of_size_le hb]; rfl
  rest := rfl

theorem trans (h : g.Extends g') (h' : g'.Extends g'') : g.Extends g'' where
  size_le := Nat.le_trans h.size_le h'.size_le
  block_eq b hb := (h'.block_eq b (Nat.lt_of_lt_of_le hb h.size_le)).trans (h.block_eq b hb)
  blank b hb := by
    rcases Nat.lt_or_ge b g'.blocks.size with hlt | hge
    · rw [h'.block_eq b hlt]
      exact h.blank b hb
    · exact h'.blank b hge
  rest := (congrArg (fun x : Graph => { x with blocks := g.blocks }) h'.rest).trans h.rest

theorem order_eq (h : g.Extends g') : g'.order = g.order := (congrArg Graph.order h.rest :)

theorem scopes_eq (h : g.Extends g') : g'.scopes = g.scopes := (congrArg Graph.scopes h.rest :)

theorem copyBlock (h : g.Extends g') (b : BlockId) : g.Extends (g'.copyBlock b).2 where
  size_le := Nat.le_trans h.size_le (size_newBlock (g := g') _ ▸ Nat.le_succ _)
  block_eq c hc := (block_newBlock_of_lt (Nat.lt_of_lt_of_le hc h.size_le)).trans (h.block_eq c hc)
  blank c hc := by
    rw [Graph.copyBlock, block_newBlock]
    split
    · rfl
    · exact h.blank c hc
  rest := h.rest

/-- What a blank block does not have, no block has got. -/
theorem proj_eq {α : Type} (h : g.Extends g') (p : Block → α)
    (hp : ∀ y : Block, p y.blankCopy = p default) (b : BlockId) : p (g'.block b) = p (g.block b) := by
  rcases Nat.lt_or_ge b g.blocks.size with hlt | hge
  · rw [h.block_eq b hlt]
  · rw [h.blank b hge, hp, block_of_size_le hge]

end Graph.Extends

/-! ## Looking for blocks -/

/-- A context finds what it found before, and else only blocks that come after the first `n`. -/
structure Context.Explores (n : Nat) (c c' : Context) : Prop where
  finds : ∀ bci b, c.finds bci = some b → c'.finds bci = some b
  new : ∀ bci b, c'.finds bci = some b → c.finds bci = some b ∨ n ≤ b

namespace Context.Explores

variable {c c' c'' : Context} {n n' : Nat}

theorem of_finds_eq (h : ∀ bci, c'.finds bci = c.finds bci) : c.Explores n c' :=
  ⟨fun bci _ hb => (h bci).trans hb, fun bci _ hb => .inl ((h bci).symm.trans hb)⟩

theorem trans (h : c.Explores n c') (h' : c'.Explores n' c'') (hn : n ≤ n') : c.Explores n c'' where
  finds bci b hb := h'.finds bci b (h.finds bci b hb)
  new bci b hb := (h'.new bci b hb).elim (h.new bci b) fun hle => .inr (Nat.le_trans hn hle)

theorem keepCopy {sub : Subroutine} {bci : Nat} (hsub : c.subroutine = some sub)
    (hnone : sub.copies.get bci = none) {copy : BlockId} (hcopy : n ≤ copy) :
    c.Explores n (c.keepCopy bci copy) := by
  refine ⟨(Context.Becomes.keepCopy hsub hnone copy).finds, fun i b hb => ?_⟩
  simp only [Context.finds, Context.keepCopy, hsub, Option.map_some, BlockTable.get_set] at hb ⊢
  split at hb
  · cases hb; exact .inr hcopy
  · exact .inl hb

end Context.Explores

/-- The contexts of a chain find no other blocks than before and those after the first `n`. -/
abbrev Chain.Explores (n : Nat) : List Context → List Context → Prop := List.Forall₂ (Context.Explores n)

namespace Chain.Explores

variable {chain chain' chain'' : List Context} {n n' : Nat}

theorem of_map_eq : ∀ {chain chain' : List Context},
    chain'.map (fun c => (c.table, c.subroutine)) = chain.map (fun c => (c.table, c.subroutine)) →
    Chain.Explores n chain chain'
  | [], _, h => by rw [List.map_eq_nil_iff.1 h]; exact .nil
  | c :: outer, _, h => by
    obtain ⟨c', outer', rfl, hsame, hrest⟩ := List.map_eq_cons_iff.1 h
    obtain ⟨htable, hsub⟩ := Prod.mk.injEq .. ▸ hsame
    exact .cons (.of_finds_eq fun bci => by unfold Context.finds; rw [htable, hsub]) (of_map_eq hrest)

theorem refl (chain : List Context) : Chain.Explores n chain chain := of_map_eq rfl

theorem trans (h : Chain.Explores n chain chain') (h' : Chain.Explores n' chain' chain'') (hn : n ≤ n') :
    Chain.Explores n chain chain'' := by
  induction h generalizing chain'' with
  | nil => cases h'; exact .nil
  | cons hc _ ih =>
    cases h' with
    | cons hc' hrest => exact .cons (hc.trans hc' hn) (ih hrest)

end Chain.Explores

/-- Nothing has happened but that blocks were copied, as when they are looked for, and remarks were made. -/
structure Assembly.OnlyCopies (s t : Assembly) : Prop where
  graph : s.graph.Extends t.graph
  explores : Chain.Explores s.graph.blocks.size s.chain t.chain
  chain : t.chain.map Context.withoutCopies = s.chain.map Context.withoutCopies
  current : t.current = s.current
  log : ∃ added : List Event, t.log.toList = s.log.toList ++ added ∧ ∀ e ∈ added, e.isRemark = true

theorem Chain.locate_onlyCopies (bci : Nat) : ∀ (chain : List Context) (d : Draft),
    Assembly.OnlyCopies { d with chain := chain }
      { (locate bci chain d).2.2 with chain := (locate bci chain d).2.1 }
  | [], _ => ⟨.refl _, .nil, rfl, rfl, [], by simp [locate], by simp⟩
  | c :: outer, d => by
    have hsame : Assembly.OnlyCopies { d with chain := c :: outer } { d with chain := c :: outer } :=
      ⟨.refl _, .refl _, rfl, rfl, [], by simp, by simp⟩
    obtain ⟨hgraph, hexplores, hchain, -, added, hlog, hadded⟩ := locate_onlyCopies bci outer d
    rw [locate]
    cases hsub : c.subroutine with
    | none => exact hsame
    | some sub =>
      simp only
      cases hcopy : sub.copies.get bci with
      | some copy => exact hsame
      | none =>
        simp only
        generalize locate bci outer d = found at hgraph hexplores hchain hlog ⊢
        obtain ⟨original, outer', d'⟩ := found
        cases original with
        | none =>
          exact ⟨hgraph, .cons (.of_finds_eq fun _ => rfl) hexplores, congrArg (c.withoutCopies :: ·) hchain,
            rfl, added, hlog, hadded⟩
        | some original =>
          refine ⟨hgraph.copyBlock original, .cons (.keepCopy hsub hcopy hgraph.size_le) hexplores, ?_, rfl,
            added ++ [.duplicated original d'.graph.blocks.size sub.entry], ?_, ?_⟩
          · have hkeep : (c.keepCopy bci d'.graph.blocks.size).withoutCopies = c.withoutCopies := by
              simp [Context.keepCopy, Context.withoutCopies, hsub]
            exact congrArg₂ List.cons hkeep hchain
          · show (d'.log.push _).toList = _
            rw [Array.toList_push, ← List.append_assoc]
            exact congrArg (· ++ [_]) hlog
          · intro e he
            rcases List.mem_append.1 he with he | he
            · exact hadded e he
            · cases List.mem_singleton.1 he; rfl

theorem Assembly.locate_onlyCopies (bci : Nat) (s : Assembly) : s.OnlyCopies (locate bci s).2 := by
  obtain ⟨hgraph, hexplores, hchain, -, hlog⟩ := Chain.locate_onlyCopies bci s.chain s.toDraft
  exact ⟨hgraph, hexplores, hchain, rfl, hlog⟩

/-! ## Blocks of the graph -/

/-- The blocks that a context finds, and those where its handlers start, are among the first `n`. -/
structure Context.Bounded (n : Nat) (c : Context) : Prop where
  table : ∀ bci b, c.table.get bci = some b → b < n
  copies : ∀ sub, c.subroutine = some sub → ∀ bci b, sub.copies.get bci = some b → b < n
  handlers : ∀ sub hs, c.subroutine = some sub → sub.handlers = some hs →
    ∀ x ∈ hs, ∀ d, x.entry = some d → d < n

/-- The blocks that are found, and those where handlers start, are blocks of the graph. -/
structure Assembly.Bounded (s : Assembly) : Prop where
  contexts : ∀ c ∈ s.chain, c.Bounded s.graph.blocks.size
  declared : ∀ scope ∈ s.graph.scopes, ∀ x ∈ scope.handlers, ∀ d, x.entry = some d →
    d < s.graph.blocks.size

section
variable {c c' : Context} {n n' : Nat} {s t : Assembly} {bci : Nat}

theorem Context.Bounded.mono (h : c.Bounded n) (hn : n ≤ n') : c.Bounded n' where
  table bci b hb := Nat.lt_of_lt_of_le (h.table bci b hb) hn
  copies sub hsub bci b hb := Nat.lt_of_lt_of_le (h.copies sub hsub bci b hb) hn
  handlers sub hs hsub hhs x hx d hd := Nat.lt_of_lt_of_le (h.handlers sub hs hsub hhs x hx d hd) hn

theorem Context.Bounded.of_eq (h : c.Bounded n) (htable : c'.table = c.table)
    (hsub : c'.subroutine = c.subroutine) : c'.Bounded n where
  table := htable ▸ h.table
  copies := hsub ▸ h.copies
  handlers := hsub ▸ h.handlers

theorem Context.Bounded.keepCopy (h : c.Bounded n) {sub : Subroutine} (hsub : c.subroutine = some sub)
    (bci : Nat) {copy : BlockId} (hcopy : copy < n) : (c.keepCopy bci copy).Bounded n := by
  refine ⟨h.table, fun sub' hsub' i b hb => ?_, fun sub' hs hsub' hhs => ?_⟩
  · rw [Context.keepCopy, hsub] at hsub'
    cases hsub'
    rw [BlockTable.get_set] at hb
    split at hb
    · cases hb; exact hcopy
    · exact h.copies sub hsub i b hb
  · rw [Context.keepCopy, hsub] at hsub'
    cases hsub'
    exact h.handlers sub hs hsub hhs

theorem Assembly.Within.bounded (h : s.Within) : s.Bounded where
  contexts c hc :=
    have hwithin := h.contexts c hc
    ⟨hwithin.table, hwithin.copies, hwithin.handlers⟩
  declared := h.graph.entries

/-- A block that is found is one of the graph. -/
theorem Chain.locate_bounded (bci : Nat) : ∀ (chain : List Context) (d : Draft),
    (∀ c ∈ chain, c.Bounded d.graph.blocks.size) →
    (∀ c ∈ (locate bci chain d).2.1, c.Bounded (locate bci chain d).2.2.graph.blocks.size) ∧
      ∀ b, (locate bci chain d).1 = some b → b < (locate bci chain d).2.2.graph.blocks.size
  | [], _, _ => ⟨by simp [locate], by simp [locate]⟩
  | c :: outer, d, h => by
    have hc := h c List.mem_cons_self
    obtain ⟨hrest, hfound⟩ := locate_bounded bci outer d fun c' hc' => h c' (List.mem_cons_of_mem _ hc')
    have hle := (locate_onlyCopies bci outer d).graph.size_le
    rw [locate]
    cases hsub : c.subroutine with
    | none => exact ⟨h, hc.table bci⟩
    | some sub =>
      simp only
      cases hcopy : sub.copies.get bci with
      | some copy => exact ⟨h, fun b hb => hc.copies sub hsub bci b (hcopy.trans hb)⟩
      | none =>
        simp only
        generalize locate bci outer d = found at hrest hfound hle ⊢
        obtain ⟨original, outer', d'⟩ := found
        simp only at hrest hfound hle
        cases original with
        | none =>
          refine ⟨fun c' hc' => ?_, by simp⟩
          rcases List.mem_cons.1 hc' with rfl | hc'
          · exact hc.mono hle
          · exact hrest c' hc'
        | some original =>
          have hsize : (d'.graph.copyBlock original).2.blocks.size = d'.graph.blocks.size + 1 :=
            Graph.size_newBlock _
          show (∀ c' ∈ c.keepCopy bci d'.graph.blocks.size :: outer',
            c'.Bounded (d'.graph.copyBlock original).2.blocks.size) ∧
              ∀ b, some d'.graph.blocks.size = some b → b < (d'.graph.copyBlock original).2.blocks.size
          rw [hsize]
          refine ⟨fun c' hc' => ?_, fun b hb => ?_⟩
          · rcases List.mem_cons.1 hc' with rfl | hc'
            · exact (hc.mono (Nat.le_succ_of_le hle)).keepCopy hsub bci (Nat.lt_succ_self _)
            · exact (hrest c' hc').mono (Nat.le_succ _)
          · cases hb; exact Nat.lt_succ_self _

namespace Assembly.Bounded

theorem locate (h : s.Bounded) (bci : Nat) : (locate bci s).2.Bounded ∧
    ∀ b, (Assembly.locate bci s).1 = some b → b < (Assembly.locate bci s).2.graph.blocks.size := by
  obtain ⟨hcontexts, hfound⟩ := Chain.locate_bounded bci s.chain s.toDraft h.contexts
  have hgraph := (locate_onlyCopies bci s).graph
  refine ⟨⟨hcontexts, fun scope hscope x hx d hd => ?_⟩, hfound⟩
  rw [hgraph.scopes_eq] at hscope
  exact Nat.lt_of_lt_of_le (h.declared scope hscope x hx d hd) hgraph.size_le

/-- Blocks and contexts may change as long as no context finds other blocks. -/
theorem congr (h : s.Bounded) (hsize : t.graph.blocks.size = s.graph.blocks.size)
    (hscopes : t.graph.scopes = s.graph.scopes)
    (hchain : t.chain.map (fun c => (c.table, c.subroutine)) =
      s.chain.map fun c => (c.table, c.subroutine)) : t.Bounded := by
  refine ⟨fun c hc => ?_, by rw [hsize, hscopes]; exact h.declared⟩
  rw [hsize]
  have hmem := List.mem_map_of_mem (f := fun c : Context => (c.table, c.subroutine)) hc
  rw [hchain] at hmem
  obtain ⟨c', hc', heq⟩ := List.mem_map.1 hmem
  obtain ⟨htable, hsub⟩ := Prod.mk.injEq .. ▸ heq
  exact (h.contexts c' hc').of_eq htable.symm hsub.symm

theorem push (h : s.Bounded) (hc : c.Bounded s.graph.blocks.size) : (s.push c).Bounded :=
  ⟨fun c' hc' => (List.mem_cons.1 hc').elim (fun he => he ▸ hc) (h.contexts c'), h.declared⟩

/-- The innermost context changes in what it finds as well. -/
theorem modifyInnermost (h : s.Bounded) {f : Context → Context}
    (hf : ∀ c : Context, c.Bounded s.graph.blocks.size → (f c).Bounded s.graph.blocks.size) :
    (s.modifyInnermost f).Bounded := by
  have hcontexts := h.contexts
  unfold Assembly.modifyInnermost
  cases hchain : s.chain with
  | nil => exact h
  | cons c outer =>
    rw [hchain] at hcontexts
    refine ⟨fun c' hc' => ?_, h.declared⟩
    rcases List.mem_cons.1 hc' with rfl | hc'
    · exact hf c (hcontexts c List.mem_cons_self)
    · exact hcontexts c' (List.mem_cons_of_mem _ hc')

theorem schedule (h : s.Bounded) (d : BlockId) : (schedule d s).Bounded := by
  unfold Assembly.schedule
  cases hchain : s.chain with
  | nil => exact h
  | cons c outer =>
    simp only
    split
    · exact h
    · exact h.congr (Graph.size_modifyBlock _ _ _) rfl (by rw [hchain]; rfl)

end Assembly.Bounded

end

/-! ## What lasts -/

namespace Assembly

/-- `P` outlasts that blocks are looked for, a subroutine gets its handlers and remarks are noted. -/
structure Steady (P : Assembly → Prop) : Prop where
  onlyCopies : ∀ {s t : Assembly}, s.OnlyCopies t → P s → P t
  setHandlers : ∀ {s : Assembly} (hs : Option (List Handler)), P s →
    P (s.modifyInnermost fun c => { c with subroutine := c.subroutine.map ({ · with handlers := hs }) })
  note : ∀ {s : Assembly} {e : Event}, e.isRemark = true → P s → P (s.note e)

/-- `P` also outlasts what else is done while block `b` is open, but that it gets an instruction. -/
structure Lasting (b : BlockId) (P : Assembly → Prop) : Prop extends Steady P where
  schedule : ∀ {s : Assembly} {d : BlockId}, d < s.graph.blocks.size → P s → P (schedule d s)
  link : ∀ {s : Assembly} (d : BlockId), P s → P { s with graph := s.graph.addHandlerEdge b d }
  moveCursor : ∀ {s : Assembly} (cursor : Cursor), P s → P (s.modifyInnermost ({ · with cursor := cursor }))
  keepLocal : ∀ {s : Assembly} (kept : Option Nat), P s → P (s.modifyInnermost ({ · with returnLocal := kept }))

/-- `P` holds, and only blocks of the graph are found. -/
structure HoldsBounded (P : Assembly → Prop) (s : Assembly) : Prop where
  holds : P s
  bounded : s.Bounded

/-- `P` holds after the action if it holds before, even if it fails, and only blocks of the graph are found. -/
def Preserves (P : Assembly → Prop) {α : Type} (x : Assemble α) : Prop :=
  ∀ s, HoldsBounded P s → Yields x s (fun _ t => HoldsBounded P t) fun _ t => P t

variable {α β : Type} {P Q : Assembly → Prop} {x : Assemble α} {f : α → Assemble β} {s t : Assembly}
  {o : Options} {b d : BlockId} {bci : Nat} {good : β → Assembly → Prop}
  {bad : Fault → Assembly → Prop}

theorem Preserves.bind (hx : Preserves P x) (hf : ∀ a, Preserves P (f a)) : Preserves P (x >>= f) :=
  fun s hs => (hx s hs).bind fun a t ht => hf a t ht

/-- What comes after an action that preserves `P` finds that it holds. -/
theorem Preserves.andThen (hx : Preserves P x) (hs : HoldsBounded P s) (hbad : ∀ fault t, P t → bad fault t)
    (hf : ∀ a t, HoldsBounded P t → Yields (f a) t good bad) : Yields (x >>= f) s good bad :=
  ((hx s hs).mono (fun _ _ ht => ht) hbad).bind hf

theorem preserves_pure (a : α) : Preserves P (pure a : Assemble α) := fun _ hs => hs

theorem preserves_throw (fault : Fault) : Preserves P (throw fault : Assemble α) := fun _ hs => hs.holds

theorem preserves_ofExcept (x : Except Fault α) : Preserves P (ofExcept x) := by
  intro s hs
  rw [yields_ofExcept]
  cases x with
  | ok a => exact hs
  | error fault => exact hs.holds

/-- The innermost context is the first one of the chain. -/
theorem HoldsBounded.innermost (hs : HoldsBounded P s) (hbad : ∀ fault t, P t → bad fault t) :
    Yields innermost s (fun c t => t = s ∧ ∃ outer, s.chain = c :: outer) bad := by
  unfold Yields Assembly.innermost
  cases hchain : s.chain with
  | nil => exact hbad _ _ hs.holds
  | cons c outer => exact ⟨rfl, outer, rfl⟩

theorem preserves_innermost : Preserves P innermost := fun _ hs =>
  (hs.innermost fun _ _ h => h).mono (fun _ _ ht => ht.1 ▸ hs) fun _ _ h => h

/-! ## Steady properties -/

namespace Steady

theorem expectBlock (h : Steady P) (hs : HoldsBounded P s) (bci : Nat) :
    Yields (expectBlock bci) s (fun d t => HoldsBounded P t ∧ d < t.graph.blocks.size ∧
      s.graph.blocks.size ≤ t.graph.blocks.size) fun _ t => P t := by
  have hcopies := locate_onlyCopies bci s
  obtain ⟨hbounded, hfound⟩ := hs.bounded.locate bci
  unfold Assembly.expectBlock
  rw [yields_bind, yields_modifyGet]
  generalize locate bci s = found at hcopies hbounded hfound ⊢
  obtain ⟨d, t⟩ := found
  have ht := h.onlyCopies hcopies hs.holds
  cases d with
  | none => exact ht
  | some d => exact ⟨⟨ht, hbounded⟩, hfound d rfl, hcopies.graph.size_le⟩

theorem copyHandlers (h : Steady P) : ∀ (l : List Handler) {s : Assembly}, HoldsBounded P s →
    (∀ x ∈ l, ∀ d, x.entry = some d → d < s.graph.blocks.size) →
    Yields (copyHandlers l) s (fun hs t => HoldsBounded P t ∧ s.graph.blocks.size ≤ t.graph.blocks.size ∧
      ∀ x ∈ hs, ∀ d, x.entry = some d → d < t.graph.blocks.size) fun _ t => P t
  | [], _, hs, _ => ⟨hs, Nat.le_refl _, by simp⟩
  | y :: rest, s, hs, hl => by
    rw [Assembly.copyHandlers]
    cases y.entryIndex? with
    | some bci =>
      have hcopies := locate_onlyCopies bci s
      obtain ⟨hbounded, hfound⟩ := hs.bounded.locate bci
      simp only
      rw [yields_bind, yields_modifyGet]
      generalize locate bci s = found at hcopies hbounded hfound ⊢
      obtain ⟨d, t⟩ := found
      have hle := hcopies.graph.size_le
      refine (h.copyHandlers rest ⟨h.onlyCopies hcopies hs.holds, hbounded⟩ fun x hx d hd =>
        Nat.lt_of_lt_of_le (hl x (List.mem_cons_of_mem _ hx) d hd) hle).bind fun hs' u hu => ?_
      refine ⟨hu.1, Nat.le_trans hle hu.2.1, fun x hx e he => ?_⟩
      rcases List.mem_cons.1 hx with rfl | hx
      · exact Nat.lt_of_lt_of_le (hfound e he) hu.2.1
      · exact hu.2.2 x hx e he
    | none =>
      simp only
      rw [yields_bind, yields_get]
      split
      · refine (h.copyHandlers rest hs fun x hx => hl x (List.mem_cons_of_mem _ hx)).bind fun hs' u hu => ?_
        refine ⟨hu.1, hu.2.1, fun x hx e he => ?_⟩
        rcases List.mem_cons.1 hx with rfl | hx
        · exact Nat.lt_of_lt_of_le (hl x List.mem_cons_self e he) hu.2.1
        · exact hu.2.2 x hx e he
      · exact hs.holds

end Steady

theorem Bounded.declaredHandlers (h : s.Bounded) (scope : ScopeId) :
    ∀ x ∈ s.graph.declaredHandlers scope, ∀ d, x.entry = some d → d < s.graph.blocks.size := by
  intro x hx d hd
  unfold Graph.declaredHandlers at hx
  cases hscope : s.graph.scopes[scope]? with
  | none => rw [hscope] at hx; cases hx
  | some found =>
    rw [hscope] at hx
    exact h.declared found (Array.mem_of_getElem? hscope) x hx d hd

theorem Bounded.visibleHandlers (h : s.Bounded) {c : Context} (hc : c ∈ s.chain) {hs : List Handler}
    (hvisible : c.visibleHandlers s.graph = .ok hs) :
    ∀ x ∈ hs, ∀ d, x.entry = some d → d < s.graph.blocks.size := by
  unfold Context.visibleHandlers at hvisible
  cases hsub : c.subroutine with
  | none =>
    rw [hsub] at hvisible
    cases hvisible
    exact h.declaredHandlers c.scope
  | some sub =>
    rw [hsub] at hvisible
    cases hhs : sub.handlers with
    | none => simp only [hhs] at hvisible; cases hvisible
    | some hs' =>
      simp only [hhs] at hvisible
      cases hvisible
      exact (h.contexts c hc).handlers sub hs hsub hhs

namespace Steady

theorem setUpHandlers (h : Steady P) : Preserves P setUpHandlers := by
  unfold Assembly.setUpHandlers
  refine preserves_innermost.bind fun c => ?_
  split
  · exact fun s hs => hs.holds
  · intro s hs
    rw [yields_bind, yields_get]
    refine (h.copyHandlers _ hs (hs.bounded.declaredHandlers c.scope)).bind fun hs' t ht => ?_
    obtain ⟨hholds, -, hhs⟩ := ht
    rw [yields_modify]
    refine ⟨h.setHandlers _ hholds.holds, hholds.bounded.modifyInnermost fun c' hc' => ?_⟩
    refine ⟨hc'.table, fun sub hsub => ?_, fun sub hs'' hsub hhs'' => ?_⟩
    · obtain ⟨sub', hsub', rfl⟩ := Option.map_eq_some_iff.1 hsub
      exact hc'.copies sub' hsub'
    · obtain ⟨sub', hsub', rfl⟩ := Option.map_eq_some_iff.1 hsub
      cases hhs''
      exact hhs

theorem returnTarget (h : Steady P) (slot : Nat) : Preserves P (returnTarget slot) := by
  unfold Assembly.returnTarget
  refine preserves_innermost.bind fun c => ?_
  by_cases hsub : c.isSubroutine = true
  · by_cases hlocal : c.returnLocal = some slot
    · simp only [hsub, hlocal, Bool.not_true, Bool.false_eq_true, if_false, ne_eq, not_true_eq_false]
      cases c.resume with
      | none => exact preserves_throw _
      | some target => exact preserves_pure target
    · simp only [hsub, hlocal, Bool.not_true, Bool.false_eq_true, if_false, ne_eq, not_false_eq_true, if_true]
      exact fun s hs => h.note rfl hs.holds
  · simp only [hsub, Bool.not_false, if_true]
    exact fun s hs => hs.holds

end Steady

/-! ## Lasting properties -/

/-- What a store does to the local of the return address. -/
def trackLocal (c : Cursor) : Assemble Unit := do
  if let some width := c.opcode.writtenSlots? then
    let slot ← ofExcept c.localSlot
    trackStore c.opcode c.position slot width

theorem size_schedule (d : BlockId) (s : Assembly) :
    (schedule d s).graph.blocks.size = s.graph.blocks.size := by
  unfold schedule
  cases s.chain with
  | nil => rfl
  | cons =>
    simp only
    split
    · rfl
    · exact Graph.size_modifyBlock _ _ _

namespace Lasting

theorem scheduleAt (h : Lasting b P) (bci : Nat) : Preserves P (scheduleAt bci) := by
  intro s hs
  unfold Assembly.scheduleAt
  refine (h.toSteady.expectBlock hs bci).bind fun d t ht => ?_
  exact ⟨h.schedule ht.2.1 ht.1.holds, ht.1.bounded.schedule d⟩

theorem scheduleAll (h : Lasting b P) : ∀ targets : List Nat, Preserves P (targets.mapM Assembly.scheduleAt)
  | [] => preserves_pure []
  | bci :: targets => by
    rw [List.mapM_cons]
    exact (h.scheduleAt bci).bind fun _ => (h.scheduleAll targets).bind fun _ => preserves_pure _

theorem linkEntries (h : Lasting b P) : ∀ (entries : List BlockId) {s : Assembly}, HoldsBounded P s →
    (∀ d ∈ entries, d < s.graph.blocks.size) → HoldsBounded P (linkEntries b entries s)
  | [], _, hs, _ => hs
  | d :: entries, s, hs, hentries => by
    have hsize : (s.graph.addHandlerEdge b d).blocks.size = s.graph.blocks.size := Graph.size_modifyBlock _ _ _
    have hlinked : HoldsBounded P { s with graph := s.graph.addHandlerEdge b d } :=
      ⟨h.link d hs.holds, hs.bounded.congr hsize rfl rfl⟩
    have hd : d < (s.graph.addHandlerEdge b d).blocks.size := hsize ▸ hentries d List.mem_cons_self
    refine h.linkEntries entries ⟨h.schedule hd hlinked.holds, hlinked.bounded.schedule d⟩ fun e he => ?_
    rw [size_schedule]
    exact hsize ▸ hentries e (List.mem_cons_of_mem _ he)

theorem linkHandlers (h : Lasting b P) (bci : Nat) : Preserves P (linkHandlers b bci) := by
  intro s hs
  unfold Assembly.linkHandlers
  refine (hs.innermost fun _ _ h => h).bind fun c t ht => ?_
  obtain ⟨rfl, outer, hchain⟩ := ht
  split
  · rw [yields_bind, yields_get, yields_bind, yields_ofExcept]
    cases hvisible : c.visibleHandlers t.graph with
    | error fault => exact hs.holds
    | ok hs' =>
      refine h.linkEntries _ hs fun d hd => ?_
      obtain ⟨x, hx, hd⟩ := List.mem_filterMap.1 hd
      exact hs.bounded.visibleHandlers (by rw [hchain]; exact List.mem_cons_self) hvisible x
        (List.mem_filter.1 hx).1 d hd
  · exact hs

theorem withCursor (h : Lasting b P) {act : EStateM Fault Cursor α} : Preserves P (withCursor act) := by
  intro s hs
  have hmove : ∀ cursor, HoldsBounded P (s.modifyInnermost ({ · with cursor := cursor })) := fun cursor =>
    ⟨h.moveCursor cursor hs.holds, hs.bounded.modifyInnermost fun c hc => hc.of_eq rfl rfl⟩
  unfold Yields Assembly.withCursor
  unfold modifyInnermost at hmove
  cases hchain : s.chain with
  | nil => exact hs.holds
  | cons c outer =>
    rw [hchain] at hmove
    simp only at hmove ⊢
    cases act c.cursor with
    | ok a cursor => exact hmove cursor
    | error fault cursor => exact (hmove cursor).holds

theorem trackLocal (h : Lasting b P) (cursor : Cursor) : Preserves P (trackLocal cursor) := by
  unfold Assembly.trackLocal
  split
  · rename_i width _
    refine (preserves_ofExcept _).bind fun slot s hs => ?_
    have hkept : ∀ (kept : Option Nat) (e : Event), e.isRemark = true →
        HoldsBounded P ((s.note e).modifyInnermost ({ · with returnLocal := kept })) := fun kept e he =>
      ⟨h.keepLocal kept (h.note he hs.holds),
        (hs.bounded.congr rfl rfl rfl : (s.note e).Bounded).modifyInnermost fun _ hc => hc.of_eq rfl rfl⟩
    unfold Yields trackStore
    unfold modifyInnermost at hkept
    cases hchain : s.chain with
    | nil => exact hs.holds
    | cons c outer =>
      simp only [note, hchain] at hkept
      cases hsub : c.subroutine with
      | none => simp only [hsub]; exact hs
      | some sub =>
        simp only [hsub]
        by_cases hfirst : cursor.position = sub.entry ∧ cursor.opcode.storesReference = true
        · rw [if_pos hfirst]
          by_cases henclosing : Chain.enclosingKeeps (c :: outer) slot = true
          · rw [if_pos henclosing]
            exact h.note (e := .overwritesEnclosing c.label slot) rfl hs.holds
          · rw [if_neg henclosing]
            exact hsub ▸ hkept (some slot) (.addressStored c.label slot) rfl
        · rw [if_neg hfirst]
          by_cases hlost : c.returnLocal.any (overwrites slot width) = true
          · rw [if_pos hlost]
            exact hsub ▸ hkept none (.addressLost c.label cursor.position) rfl
          · rw [if_neg hlost]
            exact hs
  · exact preserves_pure ()

end Lasting

/-! ## Calling a subroutine -/

/-- The context with which a subroutine is entered. -/
structure Fresh (inner : Context) : Prop where
  isSubroutine : inner.isSubroutine = true
  agenda : inner.agenda = {}
  finds : ∀ bci, inner.finds bci = none

/-- What holds before a call, after its context has been put on the chain and after that has been noted. -/
theorem callSubroutine_yields {R : ContextLabel → Assembly → Prop} {S : Assembly → Prop} (hP : Steady P)
    (hR : ∀ label, Steady (R label)) (hS : Steady S)
    (hpush : ∀ inner t, Fresh inner → P t → R inner.label (t.push inner))
    (hnote : ∀ label t, R label t → S (t.note (.pushed label)))
    {good : Unit → Assembly → Prop} {bad : Fault → Assembly → Prop}
    (hdone : ∀ first back t, S t → first < t.graph.blocks.size →
      good () (schedule first (finishBlock b (.jsr first back) t)))
    (hbadP : ∀ fault t, P t → bad fault t) (hbadR : ∀ label fault t, R label t → bad fault t)
    (hbadS : ∀ fault t, S t → bad fault t) (hs : HoldsBounded P s) (entry back : Nat) :
    Yields (callSubroutine o b entry back) s good bad := by
  unfold callSubroutine
  refine (hs.innermost hbadP).bind fun c t ht => ?_
  obtain ⟨rfl, outer, hchain⟩ := ht
  rw [yields_bind, yields_get]
  by_cases hentered : Chain.isEntered t.chain entry = true
  · simp only [hentered, if_true]
    exact hbadP _ _ (hP.note rfl hs.holds)
  · simp only [hentered, Bool.false_eq_true, if_false]
    have htable := (hs.bounded.contexts c (by rw [hchain]; exact List.mem_cons_self)).table
    refine ((hP.expectBlock hs back).mono (fun _ _ h => h) hbadP).bind fun resume u hu => ?_
    obtain ⟨hu, -, hle⟩ := hu
    rw [yields_bind, yields_get, yields_bind, yields_ofExcept]
    unfold Context.enter
    by_cases hzero : entry = 0
    · simp only [hzero, if_true]
      exact hbadP _ _ hu.holds
    · simp only [hzero, if_false]
      rw [yields_bind, yields_modify]
      let inner : Context := { u.newContext c.scope c.table c.cursor c.pool o with
        subroutine := some { entry := entry, copies := .blank c.cursor.code.size }
        resume := some resume
        continuation := c.continuation
        continuationFrame := c.continuationFrame }
      have hbounded : inner.Bounded u.graph.blocks.size := by
        refine ⟨fun bci b hb => Nat.lt_of_lt_of_le (htable bci b hb) hle, fun sub hsub bci b hb => ?_,
          fun sub hs hsub hhs => ?_⟩
        · cases hsub
          rw [BlockTable.get_blank] at hb
          cases hb
        · cases hsub
          cases hhs
      have hpushed : HoldsBounded (R inner.label) (u.push inner) :=
        ⟨hpush inner u ⟨rfl, rfl, BlockTable.get_blank _⟩ hu.holds, hu.bounded.push hbounded⟩
      refine (hR inner.label).setUpHandlers.andThen hpushed (hbadR _) fun _ v hv => ?_
      rw [yields_bind, yields_modify]
      have hnoted : HoldsBounded S (v.note (.pushed inner.label)) :=
        ⟨hnote _ v hv.holds, hv.bounded.congr rfl rfl rfl⟩
      refine ((hS.expectBlock hnoted entry).mono (fun _ _ h => h) hbadS).bind fun first w hw => ?_
      exact hdone first resume w hw.1.holds hw.2.1

/-! ## Parsing an instruction -/

/-- How parsing an instruction ends: block `b` is closed, or the next instruction is one of it. -/
def leaveInstr (o : Options) (b : BlockId) (c : Cursor) : Assemble Unit := do
  match c.opcode.flow with
  | .branch =>
    let target ← ofExcept c.branchTarget
    let taken ← scheduleAt target
    let notTaken ← scheduleAt c.next
    modify (finishBlock b (.branch taken notTaken))
  | .goto =>
    let target ← ofExcept c.branchTarget
    let next ← scheduleAt target
    modify (finishBlock b (.goto next))
  | .switch =>
    let (fallback, cases) ← ofExcept c.jumpTable
    let fallback ← scheduleAt fallback
    let cases ← cases.mapM scheduleAt
    modify (finishBlock b (.switch fallback cases))
  | .jsr =>
    let target ← ofExcept c.branchTarget
    callSubroutine o b target c.next
  | .ret =>
    let slot ← ofExcept c.localSlot
    let target ← returnTarget slot
    modify (finishBlock b (.ret target))
  | .leave =>
    modify countReturn
    modify (finishBlock b .leave)
  | .throw => modify (finishBlock b .throw)
  | .next =>
    if ((← innermost).table.get c.next).isSome then
      let next ← scheduleAt c.next
      modify (finishBlock b (.goto next))
    else if (← withCursor Cursor.advance).isNone then
      throw (.malformed c.position .fallsOff)

/-- Only a store does something to the local of the return address, and no store ends a block by itself. -/
theorem parseInstr_eq (o : Options) (b : BlockId) : parseInstr o b = (do
    let c := (← innermost).cursor
    linkHandlers b c.position
    modify (appendInstr b (.code c.position) c.opcode)
    trackLocal c
    leaveInstr o b c) := by
  unfold parseInstr
  refine congrArg (innermost >>= ·) (funext fun c => ?_)
  refine congrArg (linkHandlers b c.cursor.position >>= ·) (funext fun _ => ?_)
  refine congrArg (_ >>= ·) (funext fun _ => ?_)
  unfold trackLocal leaveInstr
  cases hwidth : c.cursor.opcode.writtenSlots? with
  | some width =>
    have hflow : c.cursor.opcode.flow = .next := Opcode.flow_of_writes (by rw [hwidth]; rfl)
    simp only [hflow, bind_assoc]
  | none => cases c.cursor.opcode.flow <;> rfl

theorem Lasting.leaveInstr (h : Lasting b P) (hs : HoldsBounded P s) (c : Cursor)
    {good : Unit → Assembly → Prop} {bad : Fault → Assembly → Prop}
    (hclose : ∀ x t, x ≠ .leave → P t → good () (finishBlock b x t))
    (hleave : ∀ t, P t → good () (finishBlock b .leave (countReturn t)))
    (hcall : ∀ entry back t, HoldsBounded P t → Yields (callSubroutine o b entry back) t good bad)
    (hgo : ∀ t, P t → good () t) (hbad : ∀ fault t, P t → bad fault t) :
    Yields (Assembly.leaveInstr o b c) s good bad := by
  have hnext : ∀ bci t, HoldsBounded P t → Yields (do
      let next ← Assembly.scheduleAt bci
      modify (finishBlock b (.goto next))) t good bad := fun bci t ht =>
    (h.scheduleAt bci).andThen ht hbad fun d u hu => hclose _ u (by simp) hu.holds
  unfold Assembly.leaveInstr
  cases c.opcode.flow with
  | branch =>
    refine (preserves_ofExcept _).andThen hs hbad fun target t ht => ?_
    refine (h.scheduleAt target).andThen ht hbad fun taken u hu => ?_
    exact (h.scheduleAt _).andThen hu hbad fun notTaken v hv => hclose _ v (by simp) hv.holds
  | goto => exact (preserves_ofExcept _).andThen hs hbad fun target t ht => hnext target t ht
  | switch =>
    refine (preserves_ofExcept _).andThen hs hbad fun targets t ht => ?_
    refine (h.scheduleAt _).andThen ht hbad fun fallback u hu => ?_
    exact (h.scheduleAll _).andThen hu hbad fun cases v hv => hclose _ v (by simp) hv.holds
  | jsr => exact (preserves_ofExcept _).andThen hs hbad fun target t ht => hcall target _ t ht
  | ret =>
    refine (preserves_ofExcept _).andThen hs hbad fun slot t ht => ?_
    exact (h.toSteady.returnTarget slot).andThen ht hbad fun target u hu => hclose _ u (by simp) hu.holds
  | leave => exact hleave s hs.holds
  | throw => exact hclose _ s (by simp) hs.holds
  | next =>
    refine preserves_innermost.andThen hs hbad fun c' t ht => ?_
    split
    · exact hnext _ t ht
    · refine h.withCursor.andThen ht hbad fun advanced u hu => ?_
      split
      · exact hbad _ u hu.holds
      · exact hgo u hu.holds

/-- What holds until the instruction is put into the open block, what after that, and what once the block is
closed or the next instruction is one of it. -/
theorem parseInstr_yields (hP : Lasting b P) (hQ : Lasting b Q) {c : Context} {outer : List Context}
    {good : Unit → Assembly → Prop} {bad : Fault → Assembly → Prop} (hs : HoldsBounded P s)
    (hchain : s.chain = c :: outer)
    (happend : ∀ t, P t → Q (appendInstr b (.code c.cursor.position) c.cursor.opcode t))
    (hclose : ∀ x t, x ≠ .leave → Q t → good () (finishBlock b x t))
    (hleave : ∀ t, Q t → good () (finishBlock b .leave (countReturn t)))
    (hcall : ∀ entry back t, HoldsBounded Q t → Yields (callSubroutine o b entry back) t good bad)
    (hgo : ∀ t, Q t → good () t) (hbadP : ∀ fault t, P t → bad fault t)
    (hbadQ : ∀ fault t, Q t → bad fault t) : Yields (parseInstr o b) s good bad := by
  rw [parseInstr_eq, yields_bind, yields_innermost hchain]
  refine (hP.linkHandlers _).andThen hs hbadP fun _ t ht => ?_
  rw [yields_bind, yields_modify]
  have hbegun : HoldsBounded Q (appendInstr b (.code c.cursor.position) c.cursor.opcode t) :=
    ⟨happend t ht.holds, ht.bounded.congr (Graph.size_modifyBlock _ _ _) rfl rfl⟩
  refine (hQ.trackLocal _).andThen hbegun hbadQ fun _ u hu => ?_
  exact hQ.leaveInstr hu _ hclose hleave hcall hgo hbadQ

end Assembly

end BlockGraph
