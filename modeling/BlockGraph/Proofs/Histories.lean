import BlockGraph.Proofs.Assembly.Lasting
import BlockGraph.Proofs.Faults

/-!
# What has been parsed in each context

A history lists for each context of a chain where the instructions stand that have been parsed in it. A call
begins a new list, and when the subroutine is left that list is dropped (`Method.Records`). What a history
lists for a context is just what the blocks hold that the context has found (`Assembly.Recorded`). Main
statement: `Method.Records.recorded`.
-/

namespace BlockGraph

open Assembly

variable {m : Method} {pool : ConstantPool} {o : Options} {st : Setting} {home : Homes} {path : List BlockId}
  {s t : Assembly} {b d : BlockId} {c c' : Context} {chain outer : List Context} {g g' : Graph} {n pos : Nat}
  {parsed : List Nat}

/-! ## Histories -/

/-- Where the instructions stand that have been parsed in each context of a chain, innermost context and latest
instruction first. -/
abbrev History := List (List Nat)

/-- What a step from `s` to `t` adds. An instruction that is parsed is one of the innermost context, nothing has
been parsed yet in a subroutine that is called, and what has been parsed in one that is left is dropped. -/
def Assembly.history (s t : Assembly) (hist : History) : History :=
  let hist := if s.current.isSome then hist.modifyHead (s.position :: ·) else hist
  if s.chain.length < t.chain.length then [] :: hist
  else if t.chain.length < s.chain.length then hist.tail
  else hist

/-- Steps from the prepared assembly lead to `s` with a history. -/
inductive Method.Records (m : Method) (pool : ConstantPool) (o : Options) : Assembly → History → Prop where
  | prepared {s : Assembly} : prepare m pool o {} = .ok () s → m.Records pool o s [[]]
  | step {s t : Assembly} {done : Bool} {hist : History} : m.Records pool o s hist →
    Assembly.step m o s = .ok done t → m.Records pool o t (s.history t hist)

theorem Method.Records.reaches {hist : History} (h : m.Records pool o s hist) : m.Reaches pool o s := by
  induction h with
  | prepared h => exact .prepared h
  | step _ hstep ih => exact .step ih hstep

theorem Method.Reaches.records (h : m.Reaches pool o s) : ∃ hist, m.Records pool o s hist := by
  induction h with
  | prepared h => exact ⟨_, .prepared h⟩
  | step _ hstep ih =>
    obtain ⟨hist, hrecords⟩ := ih
    exact ⟨_, .step hrecords hstep⟩

/-! ## The code of a graph -/

/-- Block `b` holds the instruction at `pos`. -/
def Graph.Contains (g : Graph) (b : BlockId) (pos : Nat) : Prop := ∃ k ∈ g.body b, k.site = .code pos

/-- The blocks of two graphs hold the same instructions. -/
structure Graph.SameCode (g g' : Graph) : Prop where
  instrs : g'.instrs = g.instrs
  blocks : ∀ b, (g'.block b).instrs = (g.block b).instrs

namespace Graph

theorem lt_of_contains (h : g.Contains b pos) : b < g.blocks.size := by
  obtain ⟨k, hk, -⟩ := h
  exact lt_of_body_ne_nil (List.ne_nil_of_mem hk)

theorem contains_append {site : Site} {opcode : Opcode} (hg : g.InRange) (hb : b < g.blocks.size) :
    (g.append b site opcode).2.Contains d pos ↔ g.Contains d pos ∨ d = b ∧ site = .code pos := by
  unfold Contains
  by_cases hd : d = b
  · subst hd
    rw [body_append_self hg hb]
    simp [or_and_right, exists_or]
  · rw [body_append_ne hg hd]
    simp [hd]

namespace SameCode

variable {g'' : Graph} {site : Site} {opcode : Opcode} {x : Exit}

theorem refl (g : Graph) : g.SameCode g := ⟨rfl, fun _ => rfl⟩

theorem trans (h : g.SameCode g') (h' : g'.SameCode g'') : g.SameCode g'' :=
  ⟨h'.instrs.trans h.instrs, fun b => (h'.blocks b).trans (h.blocks b)⟩

theorem contains_iff (h : g.SameCode g') : g'.Contains d pos ↔ g.Contains d pos := by
  rw [Contains, body_congr h.instrs (h.blocks d), Contains]

theorem modifyBlock {f : Block → Block} (hf : ∀ y, (f y).instrs = y.instrs) (g : Graph) (b : BlockId) :
    g.SameCode (g.modifyBlock b f) := ⟨rfl, fun _ => proj_modifyBlock Block.instrs hf⟩

theorem close (g : Graph) (b : BlockId) (x : Exit) : g.SameCode (g.close b x) where
  instrs := by rw [close_eq]
  blocks c := by rw [block_close]

theorem append (h : g.SameCode g') (hb : b < g.blocks.size) (hb' : b < g'.blocks.size) :
    (g.append b site opcode).2.SameCode (g'.append b site opcode).2 where
  instrs := congrArg (·.push { site := site, opcode := opcode, block := b }) h.instrs
  blocks c := by
    rw [block_append, block_append]
    by_cases hc : c = b
    · rw [if_pos ⟨hc, hb'⟩, if_pos ⟨hc, hb⟩, h.blocks b, h.instrs]
    · rw [if_neg fun hcb => hc hcb.1, if_neg fun hcb => hc hcb.1]
      exact h.blocks c

end SameCode

theorem Extends.sameCode (h : g.Extends g') : g.SameCode g' :=
  ⟨(congrArg Graph.instrs h.rest :), h.proj_eq Block.instrs fun _ => rfl⟩

end Graph

/-! ## While an instruction is parsed -/

/-- The contexts are those of `chain`, which have found blocks after the first `n` only, and the code is that
of `g`. -/
structure Assembly.OnlyExplored (n : Nat) (chain : List Context) (g : Graph) (t : Assembly) : Prop where
  size_le : n ≤ t.graph.blocks.size
  explores : Chain.Explores n chain t.chain
  code : g.SameCode t.graph

/-- Neither what the contexts find changes when a block is put on the agenda nor what the blocks hold. -/
theorem Assembly.schedule_finds (d : BlockId) (s : Assembly) :
    (schedule d s).chain.map (fun c => (c.table, c.subroutine)) =
      s.chain.map (fun c => (c.table, c.subroutine)) ∧ s.graph.SameCode (schedule d s).graph := by
  unfold schedule
  cases hchain : s.chain with
  | nil => exact ⟨congrArg _ hchain, .refl _⟩
  | cons c outer =>
    simp only
    split
    · exact ⟨congrArg _ hchain, .refl _⟩
    · exact ⟨rfl, .modifyBlock (f := ({ · with queued := true })) (fun _ => rfl) _ _⟩

namespace Assembly.OnlyExplored

/-- Whatever happens to blocks and contexts, they hold and find what they did. -/
theorem congr (h : OnlyExplored n chain g s) (hsize : t.graph.blocks.size = s.graph.blocks.size)
    (hchain : Chain.Explores n s.chain t.chain) (hcode : s.graph.SameCode t.graph) :
    OnlyExplored n chain g t :=
  ⟨hsize ▸ h.size_le, h.explores.trans hchain (Nat.le_refl n), h.code.trans hcode⟩

theorem modifyInnermost (h : OnlyExplored n chain g s) {f : Context → Context}
    (hf : ∀ c bci, (f c).finds bci = c.finds bci) : OnlyExplored n chain g (s.modifyInnermost f) := by
  unfold Assembly.modifyInnermost
  cases hchain : s.chain with
  | nil => exact h
  | cons c outer =>
    refine h.congr rfl ?_ (.refl _)
    rw [hchain]
    exact .cons (.of_finds_eq (hf c)) (Chain.Explores.refl outer)

theorem schedule (h : OnlyExplored n chain g s) (d : BlockId) : OnlyExplored n chain g (schedule d s) :=
  h.congr (size_schedule d s) (.of_map_eq (schedule_finds d s).1) (schedule_finds d s).2

theorem finish (h : OnlyExplored n chain g s) (b : BlockId) (x : Exit) :
    OnlyExplored n chain g (finishBlock b x s) :=
  h.congr Graph.size_close (Chain.Explores.refl _) (.close _ _ _)

end Assembly.OnlyExplored

/-- What is steady however one of its parts is chosen. -/
theorem Assembly.Steady.exists {ι : Type} {P : ι → Assembly → Prop} (h : ∀ i, Steady (P i)) :
    Steady fun t => ∃ i, P i t where
  onlyCopies hcopies ht := ht.imp fun i => (h i).onlyCopies hcopies
  setHandlers hs ht := ht.imp fun i => (h i).setHandlers hs
  note he ht := ht.imp fun i => (h i).note he

theorem lasting_onlyExplored (b : BlockId) (n : Nat) (chain : List Context) (g : Graph) :
    Lasting b (OnlyExplored n chain g) where
  onlyCopies hcopies h := ⟨Nat.le_trans h.size_le hcopies.graph.size_le,
    h.explores.trans hcopies.explores h.size_le, h.code.trans hcopies.graph.sameCode⟩
  setHandlers hs h := h.modifyInnermost fun c bci => by unfold Context.finds; cases c.subroutine <;> rfl
  note _ h := h.congr rfl (Chain.Explores.refl _) (.refl _)
  schedule _ h := h.schedule _
  link d h := h.congr (Graph.size_modifyBlock _ _ _) (Chain.Explores.refl _)
    (.modifyBlock (fun y => by split <;> rfl) _ _)
  moveCursor _ h := h.modifyInnermost fun _ _ => rfl
  keepLocal _ h := h.modifyInnermost fun _ _ => rfl

/-- From `s` to `t` the instruction under a cursor is put into block `b`. The contexts stay on the chain, and one
that has found nothing before may be put on top of them. -/
def Assembly.Emits (b : BlockId) (cursor : Cursor) (s t : Assembly) : Prop :=
  ∃ called : Option Context, (∀ i ∈ called, ∀ bci, i.finds bci = none) ∧
    OnlyExplored s.graph.blocks.size (called.toList ++ s.chain)
      (s.graph.append b (.code cursor.position) cursor.opcode).2 t

theorem Base.parseInstr_emits (h : Base st home path s) (hb : s.current = some b)
    (hchain : s.chain = c :: outer) :
    Yields (parseInstr o b) s (fun _ t => s.Emits b c.cursor t) fun _ _ => True := by
  have hlt := Graph.lt_of_visited (h.queue.current b hb).1
  have hlasting := lasting_onlyExplored b s.graph.blocks.size
  let emitted := (s.graph.append b (.code c.cursor.position) c.cursor.opcode).2
  have hholds : HoldsBounded (OnlyExplored s.graph.blocks.size s.chain s.graph) s :=
    ⟨⟨Nat.le_refl _, Chain.Explores.refl _, .refl _⟩, h.within.bounded⟩
  have hstays : ∀ t, OnlyExplored s.graph.blocks.size s.chain emitted t → s.Emits b c.cursor t :=
    fun t ht => ⟨none, nofun, ht⟩
  refine parseInstr_yields (hlasting s.chain s.graph) (hlasting s.chain emitted) hholds hchain
    (fun t ht => ?_) (fun x t _ ht => hstays _ (ht.finish b x)) (fun t ht => hstays _ ?_)
    (fun entry back t ht => ?_) hstays (fun _ _ _ => trivial) fun _ _ _ => trivial
  · exact ⟨Nat.le_trans ht.size_le (Nat.le_of_eq (Graph.size_modifyBlock _ _ _).symm), ht.explores,
      ht.code.append hlt (Nat.lt_of_lt_of_le hlt ht.size_le)⟩
  · have hcounted : OnlyExplored s.graph.blocks.size s.chain emitted (countReturn t) :=
      ht.congr rfl (.of_map_eq (Chain.map_countReturn _ (fun _ _ => rfl) _)) (.refl _)
    exact hcounted.finish b .leave
  · -- from the push on there is one more context, and it has been empty
    let S : Assembly → Prop := fun u => ∃ i : { i : Context // ∀ bci, i.finds bci = none },
      OnlyExplored s.graph.blocks.size (i.1 :: s.chain) emitted u
    have hsteady : Steady S := .exists fun i => (hlasting _ _).toSteady
    refine callSubroutine_yields (R := fun _ => S) (S := S) (hlasting _ _).toSteady (fun _ => hsteady) hsteady
      (fun inner u hinner hu => ⟨⟨inner, hinner.finds⟩, ?_⟩)
      (fun _ u hu => hu.imp fun _ hi => hi.congr rfl (Chain.Explores.refl _) (.refl _))
      (fun first back u hu _ => ?_) (fun _ _ _ => trivial) (fun _ _ _ _ => trivial) (fun _ _ _ => trivial)
      ht entry back
    · exact ⟨hu.size_le, .cons (.of_finds_eq fun _ => rfl) hu.explores, hu.code⟩
    · obtain ⟨⟨inner, hnone⟩, hu⟩ := hu
      exact ⟨some inner, by simpa using hnone, (hu.finish b (.jsr first back)).schedule first⟩

/-! ## What the blocks hold -/

/-- The instructions of `parsed` are those in the blocks that a context has found. -/
def Context.Recalls (g : Graph) (c : Context) (parsed : List Nat) : Prop :=
  ∀ pos, pos ∈ parsed ↔ ∃ bci b, c.finds bci = some b ∧ g.Contains b pos

/-- For each context of the chain the history lists what its blocks hold. -/
def Assembly.Recorded (s : Assembly) (hist : History) : Prop :=
  List.Forall₂ (Context.Recalls s.graph) s.chain hist

theorem Context.Recalls.congr (h : c.Recalls g parsed) (hfinds : ∀ bci, c'.finds bci = c.finds bci)
    (hcode : ∀ b pos, g'.Contains b pos ↔ g.Contains b pos) : c'.Recalls g' parsed := by
  intro pos
  simp only [hfinds, hcode]
  exact h pos

theorem Assembly.Recorded.congr {hist : History} (h : s.Recorded hist)
    (hchain : t.chain.map (fun c => (c.table, c.subroutine)) = s.chain.map fun c => (c.table, c.subroutine))
    (hcode : ∀ b pos, t.graph.Contains b pos ↔ s.graph.Contains b pos) : t.Recorded hist := by
  unfold Recorded at h ⊢
  generalize s.chain = chain at h hchain
  generalize t.chain = chain' at hchain ⊢
  induction h generalizing chain' with
  | nil => rw [List.map_eq_nil_iff.1 hchain]; exact .nil
  | cons hc _ ih =>
    obtain ⟨c', outer', rfl, hsame, hrest⟩ := List.map_eq_cons_iff.1 hchain
    obtain ⟨htable, hsub⟩ := Prod.mk.injEq .. ▸ hsame
    exact .cons (hc.congr (fun bci => by unfold Context.finds; rw [htable, hsub]) hcode) (ih _ hrest)

/-- When an instruction is put into block `b`, it is parsed in the contexts that have found `b`. -/
theorem Context.Recalls.explore (h : c.Recalls g parsed) (hc : c.Explores g.blocks.size c')
    (hb : b < g.blocks.size) {added : Nat}
    (hcode : ∀ d pos, g'.Contains d pos ↔ g.Contains d pos ∨ d = b ∧ pos = added) (pos : Nat) :
    (∃ bci d, c'.finds bci = some d ∧ g'.Contains d pos) ↔
      pos ∈ parsed ∨ (∃ bci, c.finds bci = some b) ∧ pos = added := by
  have hold : ∀ bci d, d < g.blocks.size → c'.finds bci = some d → c.finds bci = some d := fun bci d hd hfound =>
    (hc.new bci d hfound).resolve_right (Nat.not_le.2 hd)
  constructor
  · rintro ⟨bci, d, hfound, hcontains⟩
    rcases (hcode d pos).1 hcontains with hcontains | ⟨rfl, rfl⟩
    · exact .inl ((h pos).2 ⟨bci, d, hold bci d (Graph.lt_of_contains hcontains) hfound, hcontains⟩)
    · exact .inr ⟨⟨bci, hold bci d hb hfound⟩, rfl⟩
  · rintro (hmem | ⟨⟨bci, hfound⟩, rfl⟩)
    · obtain ⟨bci, d, hfound, hcontains⟩ := (h pos).1 hmem
      exact ⟨bci, d, hc.finds bci d hfound, (hcode d pos).2 (.inl hcontains)⟩
    · exact ⟨bci, b, hc.finds bci b hfound, (hcode b pos).2 (.inr ⟨rfl, rfl⟩)⟩

/-- Of the contexts of a chain only the innermost one finds the blocks of its copy. -/
theorem Base.finds_ne (h : Base st home path s) (hchain : s.chain = c :: outer) (hb : home b = path.head?) :
    ∀ d ∈ outer, ∀ bci, d.finds bci ≠ some b := by
  have hnodup := h.linked.nodup h.laid.lt_of_home
  have hcontexts := hchain ▸ h.contexts
  cases hcontexts with
  | root => simp
  | @call _ _ j path _ hrest =>
    have hne : Nest (fun _ d => ∀ bci, d.finds bci ≠ some b) outer path := by
      refine hrest.imp_mem fun call d hcall hfits bci hfound => ?_
      have hhome := ((hfits.finds_iff h.laid).1 hfound).home_eq
      rw [hb] at hhome
      rcases hcall with rfl | ⟨k, hk, rfl⟩
      · cases hhome
      · cases hhome
        exact (List.nodup_cons.1 hnodup).1 hk
    intro d hd
    obtain ⟨-, hd⟩ := hne.mem d hd
    exact hd

/-- The other contexts have parsed what they had parsed. -/
theorem Assembly.recalls_of_explores (hb : b < g.blocks.size) {added : Nat}
    (hcode : ∀ d pos, g'.Contains d pos ↔ g.Contains d pos ∨ d = b ∧ pos = added) {hist : History} :
    ∀ {chain chain' : List Context}, (∀ d ∈ chain, ∀ bci, d.finds bci ≠ some b) →
      List.Forall₂ (Context.Recalls g) chain hist → Chain.Explores g.blocks.size chain chain' →
      List.Forall₂ (Context.Recalls g') chain' hist := by
  induction hist with
  | nil =>
    intro chain chain' _ hr hexplores
    cases hr
    cases hexplores
    exact .nil
  | cons parsed hist ih =>
    intro chain chain' hne hr hexplores
    obtain ⟨c, outer, hc, houter, rfl⟩ := List.forall₂_cons_right_iff.1 hr
    obtain ⟨c', outer', hc', houter', rfl⟩ := List.forall₂_cons_left_iff.1 hexplores
    refine .cons (fun pos => ?_) (ih (fun d hd => hne d (List.mem_cons_of_mem _ hd)) houter houter')
    rw [hc.explore hc' hb hcode pos]
    refine (or_iff_left fun hfound => ?_).symm
    obtain ⟨⟨bci, hbci⟩, -⟩ := hfound
    exact hne c List.mem_cons_self bci hbci

/-- An instruction that is parsed is added to what has been parsed in the innermost context. -/
theorem Inv.recorded_of_emits {hist : History} (h : Inv st home path s) (hr : s.Recorded hist)
    (hb : s.current = some b) (hchain : s.chain = c :: outer) (ht : s.Emits b c.cursor t) :
    t.Recorded (s.history t hist) := by
  obtain ⟨called, hnone, -, hexplores, hcode⟩ := ht
  obtain ⟨bci, before, i, hh⟩ := h.opened b hb
  have hlt : b < s.graph.blocks.size := hh.lies.lt
  have hcontains : ∀ d pos,
      t.graph.Contains d pos ↔ s.graph.Contains d pos ∨ d = b ∧ pos = c.cursor.position := by
    intro d pos
    rw [hcode.contains_iff, Graph.contains_append h.base.range hlt, Site.code.injEq, eq_comm (a := pos)]
  have hfound : c.finds bci = some b := ((hchain ▸ h.base.contexts).head.finds_iff h.base.laid).2 hh.lies
  unfold Recorded at hr ⊢
  rw [hchain] at hr hexplores
  obtain ⟨parsed, hist, hc, houter, rfl⟩ := List.forall₂_cons_left_iff.1 hr
  -- what has been parsed in the contexts that were on the chain before
  have hrest : ∀ chain, Chain.Explores s.graph.blocks.size (c :: outer) chain →
      List.Forall₂ (Context.Recalls t.graph) chain ((c.cursor.position :: parsed) :: hist) := by
    intro chain hexplores
    obtain ⟨c', outer', hc', houter', rfl⟩ := List.forall₂_cons_left_iff.1 hexplores
    refine .cons (fun pos => ?_)
      (recalls_of_explores hlt hcontains (h.base.finds_ne hchain hh.lies.home_eq) houter houter')
    rw [hc.explore hc' hlt hcontains pos, List.mem_cons, or_comm, and_iff_right ⟨bci, hfound⟩]
  have hlength := hexplores.length_eq
  have hhead : s.position = c.cursor.position := by rw [position, hchain]; rfl
  unfold Assembly.history
  rw [hb, Option.isSome_some, if_pos rfl, List.modifyHead_cons, hhead, hchain, ← hlength]
  cases called with
  | none =>
    simp only [Option.toList_none, List.nil_append, lt_irrefl, if_false]
    exact hrest _ hexplores
  | some inner =>
    obtain ⟨inner', chain', hinner', hexplores', hchain'⟩ := List.forall₂_cons_left_iff.1 hexplores
    have hempty : inner.Recalls s.graph [] := fun pos => by simp [hnone inner rfl]
    rw [if_pos (by simp), hchain']
    refine .cons (fun pos => ?_) (hrest chain' hexplores')
    rw [hempty.explore hinner' hlt hcontains pos]
    simp [hnone inner rfl]

/-! ## Steps -/

/-- No instruction of the code is parsed while a block is opened. -/
theorem Inv.openBlock_recorded {k : Nat} {rest : List (BlockId × Nat)} {hist : History} (h : Inv st home path s)
    (hr : s.Recorded hist) (hchain : s.chain = c :: outer) (hagenda : c.agenda.entries = (b, k) :: rest) :
    Yields (Assembly.openBlock m o b) { s with chain := { c with agenda := ⟨rest⟩ } :: outer }
      (fun _ t => t.Recorded hist ∧ t.chain.length = s.chain.length) fun _ _ => True := by
  obtain ⟨-, hqueued, -⟩ := (hchain ▸ h.base.queue.agendas).head.fits b (by rw [hagenda]; simp)
  have hlt : b < (s.graph.visit b).blocks.size := by
    rw [Graph.visit, Graph.size_modifyBlock]
    exact Graph.lt_of_queued hqueued
  have hrange : (s.graph.visit b).InRange := h.base.range.visit (Graph.lt_of_queued hqueued)
  have hvisit : s.graph.SameCode (s.graph.visit b) := ⟨rfl, Graph.proj_visit Block.instrs fun _ => rfl⟩
  have hlength : ∀ cursor, ({ c with agenda := ⟨rest⟩, cursor := cursor } :: outer).length = s.chain.length :=
    fun _ => by rw [hchain]; rfl
  have hrecorded : ∀ {t : Assembly} (cursor : Cursor),
      t.chain = { c with agenda := ⟨rest⟩, cursor := cursor } :: outer →
      (∀ d pos, t.graph.Contains d pos ↔ s.graph.Contains d pos) → t.Recorded hist := by
    intro t cursor ht hcode
    exact hr.congr (by rw [ht, hchain]; rfl) hcode
  unfold Assembly.openBlock
  rw [yields_bind, yields_modify, yields_bind, yields_get]
  split
  · exact trivial
  · rw [yields_bind, yields_modify, yields_bind, yields_get]
    show Yields (if ((s.graph.visit b).block b).flags.defaultHandler = true then _ else _) _ _ _
    split
    · rw [yields_modify]
      refine ⟨hrecorded c.cursor rfl fun d pos => ?_, hlength c.cursor⟩
      -- the instructions of the block that unlocks are not of the code
      show (Graph.close _ b .throw).Contains d pos ↔ _
      rw [(Graph.SameCode.close _ b .throw).contains_iff]
      show (((s.graph.visit b).append b .unlock Opcode.monitorexit).2.append b .unlock
        Opcode.athrow).2.Contains d pos ↔ _
      rw [Graph.contains_append (hrange.append hlt)
          (Nat.lt_of_lt_of_le hlt (Nat.le_of_eq (Graph.size_modifyBlock _ _ _).symm)),
        Graph.contains_append hrange hlt, hvisit.contains_iff]
      simp
    · rw [yields_bind, yields_innermost rfl, yields_bind, yields_modify, yields_bind]
      unfold Yields withCursor
      simp only [note]
      cases Cursor.moveTo _ c.cursor with
      | error fault cursor => exact trivial
      | ok opcode cursor =>
        exact ⟨hrecorded cursor rfl fun d pos => hvisit.contains_iff, hlength cursor⟩

/-- What has been parsed in a subroutine that is left is dropped. -/
theorem Assembly.Recorded.closeContext {hist : History} (hr : s.Recorded hist) (hcurrent : s.current = none) :
    Yields Assembly.closeContext s (fun _ t => t.Recorded (s.history t hist)) fun _ _ => True := by
  have hsame : s.history s hist = hist := by simp [Assembly.history, hcurrent]
  unfold Yields Assembly.closeContext
  cases hchain : s.chain with
  | nil => exact trivial
  | cons c outer =>
    cases outer with
    | nil =>
      show s.Recorded (s.history s hist)
      rw [hsame]
      exact hr
    | cons d outer =>
      let left : Assembly := { s.note (.popped c.label) with chain := d :: outer }
      have hleft : left.Recorded hist.tail := by
        unfold Recorded at hr ⊢
        rw [hchain] at hr
        obtain ⟨parsed, hist, -, houter, rfl⟩ := List.forall₂_cons_left_iff.1 hr
        exact houter
      have hleaves : ∀ t : Assembly, t.Recorded hist.tail → t.chain.length = left.chain.length →
          t.Recorded (s.history t hist) := by
        intro t ht hlength
        have hlt : t.chain.length < s.chain.length := by rw [hlength, hchain]; exact Nat.lt_succ_self _
        unfold Assembly.history
        rw [hcurrent, if_neg (Nat.lt_asymm hlt), if_pos hlt]
        exact ht
      cases hresume : c.resume with
      | none =>
        simp only [hresume]
        exact hleaves left hleft rfl
      | some r =>
        simp only [hresume]
        by_cases hnone : ((s.note (.popped c.label)).graph.block r).predecessors.isEmpty = true
        · rw [if_pos hnone]
          exact hleaves left hleft rfl
        · rw [if_neg hnone]
          exact hleaves (schedule r left)
            (hleft.congr (schedule_finds r left).1 fun _ _ => (schedule_finds r left).2.contains_iff)
            (schedule_samePlace r left).chain.length_eq.symm

theorem Inv.step_recorded {hist : History} (h : Inv st home path s) (hr : s.Recorded hist) :
    Yields (Assembly.step m o) s (fun _ t => t.Recorded (s.history t hist)) fun _ _ => True := by
  obtain ⟨c, outer, hchain⟩ := h.base.contexts.exists_cons
  cases hcurrent : s.current with
  | some b =>
    exact (yields_step_some hcurrent).2 ((h.base.parseInstr_emits hcurrent hchain).mono
      (fun _ _ ht => h.recorded_of_emits hr hcurrent hchain ht) fun _ _ _ => trivial)
  | none =>
    cases hentries : c.agenda.entries with
    | nil =>
      rw [h.base.yields_step_nil hcurrent hchain hentries]
      exact hr.closeContext hcurrent
    | cons e rest =>
      rw [h.base.yields_step_cons hcurrent hchain hentries]
      refine (h.openBlock_recorded hr hchain hentries).mono (fun _ t ht => ?_) fun _ _ _ => trivial
      simpa [Assembly.history, hcurrent, ht.2] using ht.1

/-! ## Runs -/

theorem recorded_of_prepare (h : prepare m pool o {} = .ok () s) : s.Recorded [[]] := by
  obtain ⟨st, home, -, hinv, -, -, horder⟩ := prepare_spec.of_ok h
  obtain ⟨c, hchain⟩ : ∃ c, s.chain = [c] := by
    have hcontexts := hinv.base.contexts
    generalize s.chain = chain at hcontexts ⊢
    cases hcontexts with
    | root _ => exact ⟨_, rfl⟩
  have hempty : ∀ b pos, ¬ s.graph.Contains b pos := by
    rintro b pos ⟨k, hk, -⟩
    have hv : (s.graph.block b).visited = false := Bool.eq_false_iff.2 fun hv => by
      have hmem := (hinv.base.queue.mem_order b).2 hv
      rw [horder] at hmem
      cases hmem
    rw [(hinv.base.queue.fresh b hv).2.1] at hk
    cases hk
  unfold Recorded
  rw [hchain]
  exact .cons (fun pos => by simp [hempty]) .nil

/-- **What has been parsed in a context is what its blocks hold.** -/
theorem Method.Records.recorded {hist : History} (h : m.Records pool o s hist) : s.Recorded hist := by
  induction h with
  | prepared h => exact recorded_of_prepare h
  | step h hstep ih =>
    obtain ⟨st, home, path, -, hinv⟩ := h.reaches.inv
    exact (hinv.step_recorded ih).of_ok hstep

end BlockGraph
