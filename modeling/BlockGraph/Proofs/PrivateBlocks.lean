import Mathlib.Data.List.Nodup
import BlockGraph.Proofs.Sessions

/-!
# Subroutines have blocks of their own

A context that parses a subroutine asks the contexts around it for blocks and copies what it gets, so that
one request can make copies in several contexts. Whatever contexts are asked for blocks while others come
and go, each context of a subroutine finds a block just where the method around it has one, always the same
one, and no other context ever finds that block. Main statement: `lookups_private`.
-/

namespace BlockGraph

open Assembly

/-! ## What a context finds -/

namespace Context

variable {c : Context} {bci : Nat} {b : BlockId}

/-- The copy that a subroutine has at an index. -/
def copy? (c : Context) (bci : Nat) : Option BlockId := c.subroutine.bind (·.copies.get bci)

/-- The block that a context finds at an index without asking the context around it. -/
def held? (c : Context) (bci : Nat) : Option BlockId :=
  if c.isSubroutine then c.copy? bci else c.table.get bci

/-- The tables of a context are for its code, and that of the method has blocks below `n`. -/
structure Tabled (n : Nat) (c : Context) : Prop where
  size : c.table.size = c.cursor.code.size
  copies : ∀ sub, c.subroutine = some sub → sub.copies.size = c.cursor.code.size
  lt : ∀ bci b, c.table.get bci = some b → b < n

theorem isSubroutine_keepCopy : (c.keepCopy bci b).isSubroutine = c.isSubroutine := by
  simp [isSubroutine, keepCopy]

theorem copy?_keepCopy {n other : Nat} (h : c.Tabled n) (hsub : c.isSubroutine)
    (hlt : bci < c.cursor.code.size) :
    (c.keepCopy bci b).copy? other = if other = bci then some b else c.copy? other := by
  obtain ⟨sub, hsub⟩ := Option.isSome_iff_exists.1 hsub
  simp [copy?, keepCopy, hsub, BlockTable.get_set, h.copies sub hsub, hlt]

theorem Tabled.keepCopy {n : Nat} (h : c.Tabled n) (bci : Nat) (b : BlockId) :
    (c.keepCopy bci b).Tabled n := by
  refine ⟨h.size, fun sub hsub => ?_, h.lt⟩
  obtain ⟨old, hold, rfl⟩ := Option.map_eq_some_iff.1 hsub
  exact (BlockTable.size_set ..).trans (h.copies old hold)

end Context

/-! ## Lookups at a level -/

namespace Session

variable {s : Session} {level bci : Nat} {c : Context} {b : BlockId}

theorem answer_locate : s.answer level (.locate bci) =
    ((Chain.locate bci (s.chain.drop level) s.toDraft).1, { s.toAssembly with
      toDraft := (Chain.locate bci (s.chain.drop level) s.toDraft).2.2
      chain := s.chain.take level ++ (Chain.locate bci (s.chain.drop level) s.toDraft).2.1 }) := rfl

theorem answer_locate_of_method (hc : s.chain[level]? = some c) (hmethod : c.subroutine = none) :
    s.answer level (.locate bci) = (c.table.get bci, s.toAssembly) := by
  rw [answer_locate, drop_eq_cons hc, Chain.locate, hmethod]
  simp only [← drop_eq_cons hc, List.take_append_drop]

theorem answer_locate_of_copy (hc : s.chain[level]? = some c) (hb : c.copy? bci = some b) :
    s.answer level (.locate bci) = (some b, s.toAssembly) := by
  obtain ⟨sub, hsub, hget⟩ := Option.bind_eq_some_iff.1 hb
  rw [answer_locate, drop_eq_cons hc, Chain.locate, hsub]
  simp only [hget, ← drop_eq_cons hc, List.take_append_drop]

/-- The first time that a subroutine finds a block it copies what the context around it finds. -/
theorem answer_locate_of_none {sub : Subroutine} (hc : s.chain[level]? = some c)
    (hsub : c.subroutine = some sub) (hnone : c.copy? bci = none) :
    s.answer level (.locate bci) =
      match s.answer (level + 1) (.locate bci) with
      | (none, t) => (none, t)
      | (some original, t) =>
        (some t.graph.blocks.size, { t with
          toDraft := (t.toDraft.copyBlock original sub.entry).2
          chain := t.chain.set level (c.keepCopy bci t.graph.blocks.size) }) := by
  have hget : sub.copies.get bci = none := by simpa [Context.copy?, hsub] using hnone
  obtain ⟨hlt, hcget⟩ := List.getElem?_eq_some_iff.1 hc
  have hset : ∀ (d : Context) (outer : List Context), (s.chain.take (level + 1) ++ outer).set level d =
      s.chain.take level ++ d :: outer := fun d outer => by
    have hlength : (s.chain.take level).length = level := List.length_take_of_le (Nat.le_of_lt hlt)
    rw [List.take_succ_eq_append_getElem hlt, List.append_assoc,
      List.set_append_right _ _ (Nat.le_of_eq hlength), hlength, Nat.sub_self]
    rfl
  rw [answer_locate, answer_locate, drop_eq_cons hc, Chain.locate, hsub]
  simp only [hget]
  generalize Chain.locate bci (s.chain.drop (level + 1)) s.toDraft = found
  obtain ⟨original, outer, d⟩ := found
  cases original with
  | none => simp only [List.take_succ_eq_append_getElem hlt, hcget, List.append_assoc, List.singleton_append]
  | some original =>
    simp only [hset]
    rfl

theorem answer_enter {entry : Nat} (hc : s.chain[level]? = some c) (hmethod : c.subroutine = none) :
    s.answer level (.enter entry) = (none, if entry = 0 then s.toAssembly else { s.toAssembly with
      chain := s.chain.set level { c with
        subroutine := some { entry := entry, copies := .blank c.cursor.code.size } } }) := by
  have hact : (Request.enter entry).act = EStateM.bind (Assembly.enter entry) fun _ => pure none := rfl
  unfold answer atLevel
  rw [hact]
  unfold EStateM.bind Assembly.enter Context.enter
  simp only [drop_eq_cons hc]
  by_cases hzero : entry = 0
  · simp [hzero, ← drop_eq_cons hc]
  · simp [hzero, hmethod, pure, EStateM.pure, take_append_cons hc]

/-- A lookup leaves the contexts inside of the one that is asked alone. -/
theorem getElem?_answer_locate {inner : Nat} (hinner : inner < level) (hc : s.chain[level]? = some c) :
    (s.answer level (.locate bci)).2.chain[inner]? = s.chain[inner]? := by
  have hlt := (List.getElem?_eq_some_iff.1 hc).1
  rw [answer_locate, List.getElem?_append_left (by rw [List.length_take]; omega),
    List.getElem?_take_of_lt hinner]

/-! ## What holds in every session -/

theorem getElem?_set_cases {chain : List Context} {level' : Nat} {d : Context}
    (h : (chain.set level d)[level']? = some c) :
    level = level' ∧ d = c ∨ level ≠ level' ∧ chain[level']? = some c := by
  by_cases heq : level = level'
  · subst heq
    have hlt : level < chain.length := by simpa using (List.getElem?_eq_some_iff.1 h).1
    exact .inl ⟨rfl, Option.some_inj.1 ((List.getElem?_set_self hlt).symm.trans h)⟩
  · exact .inr ⟨heq, (List.getElem?_set_ne heq).symm.trans h⟩

/-- The tables of the contexts fit, and a subroutine has the table and the code of the context around it. -/
structure Layered (n : Nat) (chain : List Context) : Prop where
  tabled : ∀ (level : Nat) (c : Context), chain[level]? = some c → c.Tabled n
  nested : ∀ (level : Nat) (c : Context), chain[level]? = some c → c.isSubroutine →
    ∃ d, chain[level + 1]? = some d ∧ c.table = d.table ∧ c.cursor.code = d.cursor.code

namespace Layered

variable {n : Nat} {chain : List Context}

theorem nil : Layered n [] := ⟨by simp, by simp⟩

theorem cons (h : Layered n chain) (hc : c.Tabled n) (hmethod : c.subroutine = none) :
    Layered n (c :: chain) where
  tabled level d hd := by
    cases level with
    | zero => exact Option.some_inj.1 hd ▸ hc
    | succ level => exact h.tabled level d hd
  nested level d hd hsub := by
    cases level with
    | zero =>
      cases hd
      simp [Context.isSubroutine, hmethod] at hsub
    | succ level => exact h.nested level d hd hsub

theorem tail (h : Layered n chain) : Layered n chain.tail where
  tabled level c hc := h.tabled (level + 1) c (List.getElem?_tail ▸ hc)
  nested level c hc hsub := by
    rw [List.getElem?_tail] at hc ⊢
    exact h.nested (level + 1) c hc hsub

/-- A context may change if its code and table stay, and may begin to parse a subroutine if they are those
of the context around it. -/
theorem set (h : Layered n chain) {c' : Context} (hc : chain[level]? = some c) (hc' : c'.Tabled n)
    (htable : c'.table = c.table) (hcode : c'.cursor.code = c.cursor.code)
    (hnested : c'.isSubroutine → ∃ d, chain[level + 1]? = some d ∧ c.table = d.table ∧
      c.cursor.code = d.cursor.code) : Layered n (chain.set level c') where
  tabled inner d hd := by
    rcases getElem?_set_cases hd with ⟨-, rfl⟩ | ⟨-, hd⟩
    · exact hc'
    · exact h.tabled inner d hd
  nested inner d hd hsub := by
    obtain ⟨e, he, hsame⟩ : ∃ e, chain[inner + 1]? = some e ∧ d.table = e.table ∧
        d.cursor.code = e.cursor.code := by
      rcases getElem?_set_cases hd with ⟨rfl, rfl⟩ | ⟨-, hd⟩
      · rw [htable, hcode]
        exact hnested hsub
      · exact h.nested inner d hd hsub
    by_cases hlevel : level = inner + 1
    · subst hlevel
      cases he.symm.trans hc
      refine ⟨c', List.getElem?_set_self (List.getElem?_eq_some_iff.1 hc).1, ?_⟩
      rw [htable, hcode]
      exact hsame
    · exact ⟨e, (List.getElem?_set_ne hlevel).trans he, hsame⟩

/-- Around a context there is one that parses a method, with the same table. -/
theorem exists_method (h : Layered n chain) : ∀ {outer level : Nat} {c : Context},
    chain.length ≤ level + outer → chain[level]? = some c →
      ∃ m, (chain.drop level).find? (!·.isSubroutine) = some m ∧ m.table = c.table
  | 0, level, c, hlength, hc => by
    have hlt := (List.getElem?_eq_some_iff.1 hc).1
    omega
  | outer + 1, level, c, hlength, hc => by
    rw [drop_eq_cons hc, List.find?_cons]
    cases hsub : c.isSubroutine with
    | false => exact ⟨c, rfl, rfl⟩
    | true =>
      obtain ⟨d, hd, htable, -⟩ := h.nested level c hc hsub
      have hrest : chain.length ≤ level + 1 + outer := by omega
      obtain ⟨m, hm, hmtable⟩ := h.exists_method hrest hd
      exact ⟨m, hm, hmtable.trans htable.symm⟩

end Layered

/-- A copy that was made for a context. -/
structure Copy where
  name : Nat
  bci : Nat
  block : BlockId
deriving DecidableEq, Repr

/-- What the contexts of a session have to do with the copies made in it. It started with the graph `g`. -/
structure Private (g : Graph) (made : List Copy) (s : Session) : Prop where
  named : s.Named
  le : g.blocks.size ≤ s.graph.blocks.size
  /-- The blocks of the methods stay as they were. -/
  old : ∀ b < g.blocks.size, s.graph.block b = g.block b
  layered : Layered g.blocks.size s.chain
  /-- A copy is made of a block of the method. -/
  blank : ∀ (level : Nat) (c : Context) bci b, s.chain[level]? = some c → c.copy? bci = some b →
    ∃ root, c.table.get bci = some root ∧ s.graph.block b = (g.block root).blankCopy
  /-- The copies of a context are those that were made for it. -/
  copies : ∀ (level name : Nat) (c : Context) bci b, s.names[level]? = some name →
    s.chain[level]? = some c → (c.copy? bci = some b ↔ ⟨name, bci, b⟩ ∈ made)
  /-- No two copies are the same block, and none is a block of a method. -/
  distinct : (made.map (·.block)).Nodup
  new : ∀ x ∈ made, x.name < s.fresh ∧ g.blocks.size ≤ x.block ∧ x.block < s.graph.blocks.size
  found : ∀ name bci b, .found name bci b ∈ s.history → ⟨name, bci, b⟩ ∈ made

section
variable {g : Graph} {made : List Copy}

namespace Private

theorem lt_of_copy (h : Private g made s) (hc : s.chain[level]? = some c) (hb : c.copy? bci = some b) :
    b < s.graph.blocks.size := by
  obtain ⟨name, hname⟩ := h.named.called hc
  exact (h.new _ ((h.copies level name c bci b hname hc).1 hb)).2.2

/-- What a context finds is a block of the method around it, or a copy of one. -/
theorem blankCopy_eq (h : Private g made s) (hc : s.chain[level]? = some c) (hb : c.held? bci = some b) :
    ∃ root, c.table.get bci = some root ∧ (s.graph.block b).blankCopy = (g.block root).blankCopy := by
  unfold Context.held? at hb
  split at hb
  · obtain ⟨root, hroot, hblock⟩ := h.blank level c bci b hc hb
    exact ⟨root, hroot, by rw [hblock]; rfl⟩
  · exact ⟨b, hb, congrArg Block.blankCopy (h.old b ((h.layered.tabled level c hc).lt bci b hb))⟩

/-- One more copy is made, of what the context around finds. -/
theorem copy (h : Private g made s) {d : Context} {name original entry : Nat}
    (hname : s.names[level]? = some name) (hc : s.chain[level]? = some c) (hsub : c.isSubroutine)
    (hnone : c.copy? bci = none) (hd : s.chain[level + 1]? = some d) (hheld : d.held? bci = some original) :
    Private g (⟨name, bci, s.graph.blocks.size⟩ :: made) { s with
      toDraft := (s.toDraft.copyBlock original entry).2
      chain := s.chain.set level (c.keepCopy bci s.graph.blocks.size) } := by
  obtain ⟨root, hroot, hblock⟩ := h.blankCopy_eq hd hheld
  have htable : c.table = d.table := by
    obtain ⟨d', hd', htable, -⟩ := h.layered.nested level c hc hsub
    cases hd.symm.trans hd'
    exact htable
  have htabled := h.layered.tabled level c hc
  have hkeep : ∀ other, (c.keepCopy bci s.graph.blocks.size).copy? other =
      if other = bci then some s.graph.blocks.size else c.copy? other := fun other => by
    refine Context.copy?_keepCopy htabled hsub (htabled.size ▸ ?_)
    exact BlockTable.lt_size_of_get (htable ▸ hroot)
  have hblock' : ∀ b < s.graph.blocks.size, (s.graph.copyBlock original).2.block b = s.graph.block b :=
    fun b hb => Graph.block_newBlock_of_lt hb
  have hfresh : ∀ x ∈ made, x.block ≠ s.graph.blocks.size := fun x hx => Nat.ne_of_lt (h.new x hx).2.2
  refine ⟨h.named.replace (by simp) _, ?_, fun b hb => ?_, ?_,
    fun level' c' bci' b hc' hb => ?_,
    fun level' name' c' bci' b hname' hc' => ?_, ?_, fun x hx => ?_, fun name' bci' b hb => ?_⟩
  · exact Nat.le_trans h.le (Nat.le_trans (Nat.le_succ _) (Nat.le_of_eq (Graph.size_newBlock _).symm))
  · exact (hblock' b (Nat.lt_of_lt_of_le hb h.le)).trans (h.old b hb)
  · exact h.layered.set hc (htabled.keepCopy bci _) rfl rfl fun _ => h.layered.nested level c hc hsub
  · have hold : ∀ {level' : Nat} {c' : Context}, s.chain[level']? = some c' → c'.copy? bci' = some b →
        ∃ root, c'.table.get bci' = some root ∧
          (s.graph.copyBlock original).2.block b = (g.block root).blankCopy := fun hc' hb => by
      obtain ⟨root, hroot, hblock⟩ := h.blank _ _ bci' b hc' hb
      exact ⟨root, hroot, (hblock' b (h.lt_of_copy hc' hb)).trans hblock⟩
    rcases getElem?_set_cases hc' with ⟨rfl, rfl⟩ | ⟨-, hc'⟩
    · rw [hkeep] at hb
      split at hb
      · rename_i heq
        subst heq
        cases hb
        exact ⟨root, htable ▸ hroot, Graph.block_newBlock_self.trans hblock⟩
      · obtain ⟨root', hroot', hblock⟩ := hold hc hb
        exact ⟨root', hroot', hblock⟩
    · exact hold hc' hb
  · rcases getElem?_set_cases hc' with ⟨rfl, rfl⟩ | ⟨hne, hc'⟩
    · cases hname.symm.trans hname'
      rw [hkeep, List.mem_cons, Copy.mk.injEq]
      split
      · rename_i heq
        subst heq
        have hnot : ⟨name, bci', b⟩ ∉ made := fun hmem => by
          have hcopy := (h.copies level name c bci' b hname hc).2 hmem
          rw [hnone] at hcopy
          cases hcopy
        simp [hnot, eq_comm]
      · rename_i hne
        simp [hne, h.copies level name c bci' b hname hc]
    · have hnames : name' ≠ name := fun he => hne (h.named.level_eq hname (he ▸ hname'))
      simp [hnames, h.copies level' name' c' bci' b hname' hc']
  · refine List.nodup_cons.2 ⟨fun hmem => ?_, h.distinct⟩
    obtain ⟨x, hx, heq⟩ := List.mem_map.1 hmem
    exact hfresh x hx heq
  · have hsize : (s.graph.copyBlock original).2.blocks.size = s.graph.blocks.size + 1 :=
      Graph.size_newBlock _
    show _ ∧ _ ∧ x.block < (s.graph.copyBlock original).2.blocks.size
    rw [hsize]
    rcases List.mem_cons.1 hx with rfl | hx
    · exact ⟨h.named.known name (List.mem_of_getElem? hname), h.le, Nat.lt_succ_self _⟩
    · obtain ⟨hknown, hle, hlt⟩ := h.new x hx
      exact ⟨hknown, hle, Nat.lt_succ_of_lt hlt⟩
  · exact List.mem_cons_of_mem _ (h.found name' bci' b hb)

/-- What comes of a lookup. -/
structure Finds (g : Graph) (s : Session) (level bci : Nat) (c : Context) (b : Option BlockId)
    (t : Assembly) : Prop where
  made : ∃ made, Private g made { s with toAssembly := t }
  /-- From now on the context finds the block without asking. -/
  held : ∃ c', t.chain[level]? = some c' ∧ c'.isSubroutine = c.isSubroutine ∧ c'.table = c.table ∧
    c'.held? bci = b
  isSome_iff : b.isSome ↔ (c.table.get bci).isSome
  eq_of_none : b = none → t = s.toAssembly

/-- By induction on the number of contexts around the one that is asked: it copies what the next one finds,
which may have to copy it first. -/
theorem finds (h : Private g made s) : ∀ {outer level : Nat} {c : Context},
    s.chain.length ≤ level + outer → s.chain[level]? = some c →
      Finds g s level bci c (s.answer level (.locate bci)).1 (s.answer level (.locate bci)).2
  | 0, level, c, hlength, hc => by
    have hlt := (List.getElem?_eq_some_iff.1 hc).1
    omega
  | outer + 1, level, c, hlength, hc => by
    cases hsub : c.subroutine with
    | none =>
      rw [answer_locate_of_method hc hsub]
      have hheld : c.held? bci = c.table.get bci := if_neg (by simp [Context.isSubroutine, hsub])
      exact ⟨⟨made, h⟩, ⟨c, hc, rfl, rfl, hheld⟩, .rfl, fun _ => rfl⟩
    | some sub =>
      have hissub : c.isSubroutine = true := by simp [Context.isSubroutine, hsub]
      cases hcopy : c.copy? bci with
      | some b =>
        rw [answer_locate_of_copy hc hcopy]
        obtain ⟨root, hroot, -⟩ := h.blank level c bci b hc hcopy
        exact ⟨⟨made, h⟩, ⟨c, hc, rfl, rfl, (if_pos hissub).trans hcopy⟩, by simp [hroot], nofun⟩
      | none =>
        obtain ⟨d, hd, htable, -⟩ := h.layered.nested level c hc hissub
        obtain ⟨name, hname⟩ := h.named.called hc
        have hinner : (s.answer (level + 1) (.locate bci)).2.chain[level]? = s.chain[level]? :=
          getElem?_answer_locate (Nat.lt_succ_self level) hd
        have hrest : s.chain.length ≤ level + 1 + outer := by omega
        have ih := h.finds hrest hd
        rw [answer_locate_of_none hc hsub hcopy]
        generalize s.answer (level + 1) (.locate bci) = found at ih hinner ⊢
        obtain ⟨_ | original, t⟩ := found
        · cases ih.eq_of_none rfl
          refine ⟨⟨made, h⟩, ⟨c, hc, rfl, rfl, (if_pos hissub).trans hcopy⟩, ?_, fun _ => rfl⟩
          rw [htable]
          exact ih.isSome_iff
        · obtain ⟨made', h'⟩ := ih.made
          obtain ⟨d', hd', -, hdtable, hheld⟩ := ih.held
          obtain ⟨root, hroot, -⟩ := h'.blankCopy_eq hd' hheld
          have hc' := hinner.trans hc
          have htabled := h.layered.tabled level c hc
          refine ⟨⟨_, h'.copy hname hc' hissub hcopy hd' hheld⟩, ⟨_, List.getElem?_set_self
            (List.getElem?_eq_some_iff.1 hc').1, Context.isSubroutine_keepCopy, rfl, ?_⟩, ?_, nofun⟩
          · rw [Context.held?, if_pos (Context.isSubroutine_keepCopy.trans hissub),
              Context.copy?_keepCopy htabled hissub, if_pos rfl]
            rw [← htabled.size, htable, ← hdtable]
            exact BlockTable.lt_size_of_get hroot
          · rw [htable]
            exact ih.isSome_iff

/-! ### Operations -/

theorem ofGraph (g : Graph) : Private g [] (ofAssembly { graph := g }) where
  named := .ofAssembly _
  le := Nat.le_refl _
  old _ _ := rfl
  layered := .nil
  blank _ _ _ _ hc := by cases hc
  copies _ _ _ _ _ _ hc := by cases hc
  distinct := .nil
  new _ hx := by cases hx
  found _ _ _ hb := by cases hb

theorem push (h : Private g made s) (hc : c.Tabled g.blocks.size) (hmethod : c.subroutine = none) :
    Private g made (s.push c) := by
  have hcopy : ∀ bci, c.copy? bci = none := fun bci => by simp [Context.copy?, hmethod]
  refine ⟨h.named.push c, h.le, h.old, h.layered.cons hc hmethod, fun level d bci b hd hb => ?_,
    fun level name d bci b hname hd => ?_, h.distinct, fun x hx => ?_, h.found⟩
  · cases level with
    | zero =>
      cases hd
      rw [hcopy] at hb
      cases hb
    | succ level => exact h.blank level d bci b hd hb
  · cases level with
    | zero =>
      cases hd
      cases hname
      refine iff_of_false (by simp [hcopy]) fun hmem => ?_
      exact Nat.lt_irrefl _ (h.new _ hmem).1
    | succ level => exact h.copies level name d bci b hname hd
  · obtain ⟨hknown, hblock⟩ := h.new x hx
    exact ⟨Nat.lt_succ_of_lt hknown, hblock⟩

theorem pop (h : Private g made s) : Private g made s.pop := by
  have hchain : ∀ {level : Nat} {c : Context}, s.chain.tail[level]? = some c →
      s.chain[level + 1]? = some c := fun hc => List.getElem?_tail ▸ hc
  refine ⟨h.named.pop, h.le, h.old, h.layered.tail, fun level c bci b hc => ?_,
    fun level name c bci b hname hc => ?_, h.distinct, h.new, h.found⟩
  · exact h.blank (level + 1) c bci b (hchain hc)
  · exact h.copies (level + 1) name c bci b (List.getElem?_tail ▸ hname) (hchain hc)

/-- A context begins to parse a subroutine of the context around it. -/
theorem enter (h : Private g made s) {d : Context} {entry : Nat} (hc : s.chain[level]? = some c)
    (hmethod : c.subroutine = none) (hd : s.chain[level + 1]? = some d) (htable : c.table = d.table)
    (hcode : c.cursor.code = d.cursor.code) :
    Private g made { s with toAssembly := (s.answer level (.enter entry)).2 } := by
  rw [answer_enter hc hmethod]
  by_cases hzero : entry = 0
  · rwa [if_pos hzero]
  rw [if_neg hzero]
  have htabled := h.layered.tabled level c hc
  refine ⟨h.named.replace (by simp) _, h.le, h.old, ?_,
    fun level' c' bci b hc' hb => ?_, fun level' name c' bci b hname hc' => ?_, h.distinct, h.new, h.found⟩
  · refine h.layered.set hc ⟨htabled.size, fun sub hsub => ?_, htabled.lt⟩ rfl rfl fun _ =>
      ⟨d, hd, htable, hcode⟩
    cases hsub
    exact BlockTable.size_blank _
  · rcases getElem?_set_cases hc' with ⟨rfl, rfl⟩ | ⟨-, hc'⟩
    · simp [Context.copy?] at hb
    · exact h.blank level' c' bci b hc' hb
  · rcases getElem?_set_cases hc' with ⟨rfl, rfl⟩ | ⟨-, hc'⟩
    · refine Iff.trans ?_ (h.copies level name c bci b hname hc)
      simp [Context.copy?, hmethod]
    · exact h.copies level' name c' bci b hname hc'

/-- A block that a context has found has been copied for it. -/
theorem record (h : Private g made s) {r : Option Record}
    (hr : ∀ x ∈ r, ∃ name bci b, x = .found name bci b ∧ ⟨name, bci, b⟩ ∈ made) :
    Private g made { s with history := s.history ++ r.toList } := by
  refine { h with found := fun name bci b hb => ?_, named := h.named.replace rfl _ }
  rcases List.mem_append.1 hb with hb | hb
  · exact h.found name bci b hb
  · obtain ⟨_, _, _, heq, hmade⟩ := hr _ (Option.mem_toList.1 hb)
    cases heq
    exact hmade

end Private

/-- A method has blocks of the graph. Contexts are asked for blocks only, but once a context may begin to
parse a subroutine of the context around it. -/
def Op.looksUp (g : Graph) (s : Session) : Op → Bool
  | .push _ table cursor _ _ =>
    table.size == cursor.code.size && table.toList.all fun (_, b) => b < g.blocks.size
  | .pop => true
  | .ask _ (.locate _) => true
  | .ask level (.enter _) =>
    match s.chain[level]?, s.chain[level + 1]? with
    | some c, some d => !c.isSubroutine && c.table = d.table && c.cursor.code = d.cursor.code
    | _, _ => false
  | _ => false

theorem Private.ask (h : Private g made s) {x : Request} (hallowed : (Op.ask level x).looksUp g s) :
    ∃ made, Private g made (s.ask level x) := by
  cases hname : s.names[level]? with
  | none =>
    unfold Session.ask
    rw [hname]
    exact ⟨made, h⟩
  | some name =>
    obtain ⟨c, hc⟩ := h.named.context hname
    rw [ask_eq hname]
    cases x with
    | locate bci =>
      have hfinds : Finds g s level bci c _ _ := h.finds (Nat.le_add_left _ _) hc
      obtain ⟨made', hmade⟩ := hfinds.made
      obtain ⟨c', hc', hsame, -, hheld⟩ := hfinds.held
      refine ⟨made', hmade.record fun r hr => ?_⟩
      cases hanswer : (s.answer level (.locate bci)).1 with
      | none =>
        rw [hanswer] at hr
        cases hr
      | some b =>
        rw [hanswer, record?, hc, Option.any_some] at hr
        obtain ⟨hsub, hr⟩ := Option.ite_none_right_eq_some.1 hr
        rw [Context.held?, if_pos (hsame.trans hsub), hanswer] at hheld
        exact ⟨name, bci, b, (Option.some_inj.1 hr).symm, (hmade.copies level name c' bci b hname hc').1 hheld⟩
    | enter entry =>
      rw [Op.looksUp, hc] at hallowed
      cases hd : s.chain[level + 1]? with
      | none =>
        rw [hd] at hallowed
        cases hallowed
      | some d =>
        rw [hd] at hallowed
        obtain ⟨⟨hmethod, htable⟩, hcode⟩ : (c.subroutine = none ∧ c.table = d.table) ∧
            c.cursor.code = d.cursor.code := by simpa [Context.isSubroutine] using hallowed
        exact ⟨made, (h.enter hc hmethod hd htable hcode).record nofun⟩
    | _ => cases hallowed

theorem Private.perform (h : Private g made s) {op : Op} (hallowed : op.looksUp g s) :
    ∃ made, Private g made (s.perform op) := by
  cases op with
  | push scope table cursor pool o =>
    obtain ⟨hsize, hblocks⟩ := Bool.and_eq_true_iff.1 hallowed
    refine ⟨made, h.push ⟨beq_iff_eq.1 hsize, nofun, fun bci b hb => ?_⟩ rfl⟩
    exact of_decide_eq_true (List.all_eq_true.1 hblocks _ (BlockTable.mem_toList.2 hb))
  | pop => exact ⟨made, h.pop⟩
  | ask level x => exact h.ask hallowed

theorem Private.of_reaches (hreaches : (ofAssembly { graph := g }).Reaches (fun s op => op.looksUp g s) s) :
    ∃ made, Private g made s := by
  induction hreaches with
  | refl => exact ⟨[], .ofGraph g⟩
  | step _ hallowed ih =>
    obtain ⟨made, h⟩ := ih
    exact h.perform hallowed

end

/-- What the subroutines of a session find. It started with the graph `g`. -/
structure FindsPrivately (g : Graph) (s : Session) : Prop where
  /-- A subroutine finds a block just where the method around it has one. -/
  isSome_iff : ∀ (level : Nat) (c : Context) bci, s.chain[level]? = some c → c.isSubroutine →
    ∃ m, (s.chain.drop level).find? (!·.isSubroutine) = some m ∧
      ((s.answer level (.locate bci)).1.isSome ↔ (m.table.get bci).isSome)
  /-- It finds a block with nothing but the start, the number and the flags of that of the method. -/
  blank : ∀ (level : Nat) (c : Context) bci b t, s.chain[level]? = some c → c.isSubroutine →
    s.answer level (.locate bci) = (some b, t) →
    ∃ m root, (s.chain.drop level).find? (!·.isSubroutine) = some m ∧ m.table.get bci = some root ∧
      t.graph.block root = g.block root ∧ t.graph.block b = (g.block root).blankCopy
  /-- What it has found it finds again, and no copy is made then. -/
  again : ∀ level name bci b, s.names[level]? = some name → .found name bci b ∈ s.history →
    s.answer level (.locate bci) = (some b, s.toAssembly)
  /-- A block is found by one subroutine at one index. -/
  apart : ∀ name name' bci bci' b, .found name bci b ∈ s.history → .found name' bci' b ∈ s.history →
    name = name' ∧ bci = bci'
  /-- It has not been there when the session started, -/
  new : ∀ name bci b, .found name bci b ∈ s.history → g.blocks.size ≤ b ∧ b < s.graph.blocks.size
  /-- as all blocks of methods have. -/
  old : ∀ c ∈ s.chain, ∀ bci b, c.table.get bci = some b → b < g.blocks.size

end Session

open Session

/-- **Subroutines have blocks of their own.** Start with a graph and no contexts, let contexts come and go and
ask them for blocks in any order. A context parses a method whose blocks are in the graph, or begins to parse a
subroutine of the context around it and shares that one's table and code. -/
theorem lookups_private {g : Graph} {s : Session}
    (hreaches : (ofAssembly { graph := g }).Reaches (fun s op => op.looksUp g s) s) :
    s.FindsPrivately g := by
  obtain ⟨made, h⟩ := Private.of_reaches hreaches
  refine ⟨fun level c bci hc _ => ?_, fun level c bci b t hc hsub hanswer => ?_,
    fun level name bci b hname hfound => ?_, fun name name' bci bci' b hb hb' => ?_,
    fun name bci b hb => (h.new _ (h.found name bci b hb)).2, fun c hc bci b hb => ?_⟩
  · obtain ⟨m, hm, htable⟩ := h.layered.exists_method (Nat.le_add_left _ _) hc
    have hfinds : Private.Finds g s level bci c _ _ := h.finds (Nat.le_add_left _ _) hc
    exact ⟨m, hm, htable ▸ hfinds.isSome_iff⟩
  · obtain ⟨m, hm, htable⟩ := h.layered.exists_method (Nat.le_add_left _ _) hc
    have hfinds : Private.Finds g s level bci c _ _ := h.finds (Nat.le_add_left _ _) hc
    rw [hanswer] at hfinds
    obtain ⟨made', h'⟩ := hfinds.made
    obtain ⟨c', hc', hsame, hctable, hheld⟩ := hfinds.held
    rw [Context.held?, if_pos (hsame.trans hsub)] at hheld
    obtain ⟨root, hroot, hblock⟩ := h'.blank level c' bci b hc' hheld
    have hlt := (h'.layered.tabled level c' hc').lt bci root hroot
    exact ⟨m, root, hm, htable ▸ hctable ▸ hroot, h'.old root hlt, hblock⟩
  · obtain ⟨c, hc⟩ := h.named.context hname
    exact answer_locate_of_copy hc ((h.copies level name c bci b hname hc).2 (h.found name bci b hfound))
  · have heq : (⟨name, bci, b⟩ : Copy) = ⟨name', bci', b⟩ :=
      List.inj_on_of_nodup_map h.distinct (h.found name bci b hb) (h.found name' bci' b hb') rfl
    cases heq
    exact ⟨rfl, rfl⟩
  · obtain ⟨level, hlevel⟩ := List.mem_iff_getElem?.1 hc
    exact (h.layered.tabled level c hlevel).lt bci b hb

/-- Two blocks of a method. -/
def twoBlocks : Graph where
  blocks := #[{ site := .code 0, number := 0 }, { site := .code 2, number := 1 }]

/-- Where the two blocks start. -/
def twoBlocksTable : BlockTable := ((BlockTable.blank 3).set 0 0).set 2 1

/-- Two subroutines in each other find blocks of their own, and so does one that comes later. -/
theorem twoBlocks_private : ∃ s, (ofAssembly { graph := twoBlocks }).Reaches
      (fun s op => op.looksUp twoBlocks s) s ∧
    s.history = [.found 2 2 3, .found 2 2 3, .found 1 2 2, .found 2 0 5, .found 3 2 6] ∧
    s.FindsPrivately twoBlocks := by
  have hany : (after (fun s op => op.looksUp twoBlocks s) [
      .push 0 twoBlocksTable (.ofCode #[0, 0, 0xb1]) {} {},
      .push 0 twoBlocksTable (.ofCode #[0, 0, 0xb1]) {} {}, .ask 0 (.enter 2),
      .push 0 twoBlocksTable (.ofCode #[0, 0, 0xb1]) {} {}, .ask 0 (.enter 2),
      .ask 0 (.locate 2), .ask 0 (.locate 2), .ask 1 (.locate 2), .ask 0 (.locate 0), .ask 0 (.locate 1), .pop,
      .push 0 twoBlocksTable (.ofCode #[0, 0, 0xb1]) {} {}, .ask 0 (.enter 2), .ask 0 (.locate 2)]
      (ofAssembly { graph := twoBlocks })).any (fun s => decide (s.history =
        [.found 2 2 3, .found 2 2 3, .found 1 2 2, .found 2 0 5, .found 3 2 6])) = true := by
    decide +kernel
  obtain ⟨s, hs, hhistory⟩ := (Option.any_eq_true _ _).1 hany
  have hreaches := Reaches.refl.after hs
  exact ⟨s, hreaches, of_decide_eq_true hhistory, lookups_private hreaches⟩

end BlockGraph
