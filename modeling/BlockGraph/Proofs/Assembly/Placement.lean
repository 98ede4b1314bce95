import BlockGraph.Proofs.Assembly.Setting

/-!
# Where blocks are found

A block is known by the copy in which it lies and by the index where it starts: `Laid` says that there
is at most one for both, and `ContextFits` that the innermost context of a call lists the blocks of
its copy. Main statement: `locate` finds the block at a start in the innermost copy, after it has
made the copies of it that were missing, and changes nothing else (`locate_spec`).
-/

namespace BlockGraph

/-- The blocks of a graph are those of a setting and copies of them. -/
structure Laid (st : Setting) (home : Homes) (g : Graph) : Prop where
  lt_of_home : ∀ b j, b < g.blocks.size → home b = some j → j < b
  unique : ∀ {call bci b c}, g.LiesAt home call bci b → g.LiesAt home call bci c → b = c
  get_iff : ∀ {bci b}, st.table.get bci = some b ↔ g.LiesAt home none bci b
  kin : ∀ {call bci b}, g.LiesAt home call bci b →
    ∃ b₀, st.table.get bci = some b₀ ∧ (g.block b).blankCopy = (g.block b₀).blankCopy
  layout : ∀ s ∈ st.survey.layout, ∀ b, st.table.get s.bci = some b → (g.block b).blankCopy = s.block
  defaultHandler_iff : ∀ b, b < g.blocks.size →
    ((g.block b).flags.defaultHandler = true ↔ (g.block b).site = .unlock)
  unlock : ∀ b, b < g.blocks.size → (g.block b).site = .unlock →
    home b = none ∧ ∃ x ∈ st.handlers, x.target = .unlock ∧ x.entry = some b
  unlock_entry : ∀ x ∈ st.handlers, x.target = .unlock →
    ∃ d, x.entry = some d ∧ d < g.blocks.size ∧ (g.block d).site = .unlock
  scopes : g.scopes = #[st.scope]

namespace Laid

variable {st : Setting} {home : Homes} {g g' : Graph} {call : Option BlockId} {bci : Nat} {b : BlockId}

theorem mem_starts (h : Laid st home g) (hb : g.LiesAt home call bci b) : bci ∈ st.survey.starts := by
  obtain ⟨b₀, hget, -⟩ := h.kin hb
  exact st.mem_starts_of_get hget

theorem declaredHandlers (h : Laid st home g) : g.declaredHandlers 0 = st.handlers := by
  simp [Graph.declaredHandlers, h.scopes, Setting.scope]

/-- What happens to the contents of blocks does not move them. -/
theorem congr (h : Laid st home g) (hsize : g'.blocks.size = g.blocks.size)
    (hkin : ∀ b, (g'.block b).blankCopy = (g.block b).blankCopy) (hscopes : g'.scopes = g.scopes) :
    Laid st home g' := by
  have hsite : ∀ b, (g'.block b).site = (g.block b).site := by
    intro b
    have := congrArg Block.site (hkin b); exact this
  have hflags : ∀ b, (g'.block b).flags = (g.block b).flags := by
    intro b
    have := congrArg Block.flags (hkin b); exact this
  have hlies : ∀ {call bci b}, g'.LiesAt home call bci b ↔ g.LiesAt home call bci b := fun {_ _ b} =>
    ⟨fun hb => ⟨hsize ▸ hb.lt, hb.home_eq, (hsite b).symm.trans hb.site⟩,
      fun hb => ⟨hsize ▸ hb.lt, hb.home_eq, (hsite b).trans hb.site⟩⟩
  constructor
  · intro b j hb; rw [hsize] at hb; exact h.lt_of_home b j hb
  · intro _ _ _ _ hb hc; exact h.unique (hlies.1 hb) (hlies.1 hc)
  · intro _ _; rw [hlies]; exact h.get_iff
  · intro _ _ b hb
    obtain ⟨b₀, hget, hb₀⟩ := h.kin (hlies.1 hb)
    exact ⟨b₀, hget, by rw [hkin, hkin, hb₀]⟩
  · intro s hs b hb; rw [hkin]; exact h.layout s hs b hb
  · intro b hb; rw [hsize] at hb; rw [hflags, hsite]; exact h.defaultHandler_iff b hb
  · intro b hb hs; rw [hsize] at hb; rw [hsite] at hs; exact h.unlock b hb hs
  · intro x hx ht
    obtain ⟨d, hd, hlt, hs⟩ := h.unlock_entry x hx ht
    exact ⟨d, hd, hsize ▸ hlt, (hsite d).trans hs⟩
  · rw [hscopes]; exact h.scopes

end Laid

/-! ## Contexts that list the blocks of their copy -/

/-- A context parses in the method's scope and, for a call, lists the blocks of the copy. Where it
comes back to lies in the copy around, and no handler that it sees leads out of the graph. -/
structure ContextFits (st : Setting) (home : Homes) (g : Graph) (call : Option BlockId)
    (c : Context) : Prop where
  scope : c.scope = 0
  table : c.table = st.table
  code : c.cursor.code = st.method.code
  continuation : c.continuation = none
  guarded : c.guarded = !st.handlers.isEmpty
  root : call = none → c.subroutine = none
  copies : ∀ j, call = some j → ∃ sub, c.subroutine = some sub ∧
    sub.copies.size = st.method.code.size ∧
    ∀ bci b, sub.copies.get bci = some b ↔ g.LiesAt home (some j) bci b
  resume : ∀ b, c.resume = some b →
    ∃ j, call = some j ∧ j < g.blocks.size ∧ b < g.blocks.size ∧ home b = home j
  handlers : ∀ sub hs, c.subroutine = some sub → sub.handlers = some hs →
    ∀ x ∈ hs, ∀ d, x.entry = some d → d < g.blocks.size

/-- Where the innermost subroutine comes back to lies outside of it. -/
theorem ContextFits.resume_ne {st : Setting} {home : Homes} {g : Graph} {call : Option BlockId} {c : Context}
    {b : BlockId} (h : ContextFits st home g call c) (hlaid : Laid st home g) (hb : home b = call) :
    c.resume ≠ some b := by
  intro hresume
  obtain ⟨j, hj, hjlt, -, heq⟩ := h.resume b hresume
  exact Nat.lt_irrefl j (hlaid.lt_of_home j j hjlt (heq.symm.trans (hb.trans hj)))

/-- A context fits as long as the blocks of its own copy stay the same. -/
theorem ContextFits.of_liesAt {st : Setting} {home home' : Homes} {g g' : Graph}
    {call : Option BlockId} {c : Context} (h : ContextFits st home g call c)
    (hsize : g.blocks.size ≤ g'.blocks.size) (hhome : ∀ b, b < g.blocks.size → home' b = home b)
    (hlies : ∀ j, call = some j → ∀ bci b,
      g'.LiesAt home' (some j) bci b ↔ g.LiesAt home (some j) bci b) :
    ContextFits st home' g' call c where
  scope := h.scope
  table := h.table
  code := h.code
  continuation := h.continuation
  guarded := h.guarded
  root := h.root
  copies j hj := by
    obtain ⟨sub, hsub, hsize, hget⟩ := h.copies j hj
    exact ⟨sub, hsub, hsize, fun bci b => (hget bci b).trans (hlies j hj bci b).symm⟩
  resume b hb := by
    obtain ⟨j, hj, hjlt, hblt, heq⟩ := h.resume b hb
    exact ⟨j, hj, Nat.lt_of_lt_of_le hjlt hsize, Nat.lt_of_lt_of_le hblt hsize,
      (hhome b hblt).trans (heq.trans (hhome j hjlt).symm)⟩
  handlers sub hs hsub hhs x hx d hd := Nat.lt_of_lt_of_le (h.handlers sub hs hsub hhs x hx d hd) hsize

/-- A context that lists a new block of its copy. -/
theorem ContextFits.keepCopy {st : Setting} {home home' : Homes} {g g' : Graph} {j : BlockId}
    {c : Context} {bci : Nat} {copy : BlockId} (h : ContextFits st home g (some j) c)
    (hbci : bci < st.method.code.size) (hnew : ∀ b, ¬ g.LiesAt home (some j) bci b)
    (hsize : g.blocks.size ≤ g'.blocks.size) (hhome : ∀ b, b < g.blocks.size → home' b = home b)
    (hlies : ∀ i b, g'.LiesAt home' (some j) i b ↔
      g.LiesAt home (some j) i b ∨ (i = bci ∧ b = copy)) :
    ContextFits st home' g' (some j) (c.keepCopy bci copy) := by
  obtain ⟨sub, hsub, hsubsize, hget⟩ := h.copies j rfl
  have hsub' : (c.keepCopy bci copy).subroutine =
      some { sub with copies := sub.copies.set bci copy } := by
    simp only [Context.keepCopy, hsub]; rfl
  refine ⟨h.scope, h.table, h.code, h.continuation, h.guarded, nofun, fun k hk => ?_, fun b hb => ?_,
    fun sub' hs hsub'' hhs x hx d hd => ?_⟩
  · cases hk
    refine ⟨_, hsub', (BlockTable.size_set _ _ _).trans hsubsize, fun i b => ?_⟩
    rw [BlockTable.get_set, hlies, ← hget]
    by_cases hi : i = bci
    · subst hi
      have hnone : sub.copies.get i = none := Option.eq_none_iff_forall_not_mem.2 fun b hb =>
        hnew b ((hget i b).1 hb)
      rw [if_pos ⟨rfl, hsubsize ▸ hbci⟩, hnone]
      simp [eq_comm]
    · rw [if_neg fun h => hi h.1]
      simp [hi]
  · obtain ⟨k, hk, hklt, hblt, heq⟩ := h.resume b hb
    exact ⟨k, hk, Nat.lt_of_lt_of_le hklt hsize, Nat.lt_of_lt_of_le hblt hsize,
      (hhome b hblt).trans (heq.trans (hhome k hklt).symm)⟩
  · rw [hsub'] at hsub''
    cases hsub''
    exact Nat.lt_of_lt_of_le (h.handlers sub hs hsub hhs x hx d hd) hsize

/-- All of a context but its copies. -/
def Context.withoutCopies (c : Context) : Context :=
  { c with subroutine := c.subroutine.map fun s => { s with copies := {} } }

/-- New blocks are copies for calls of the path, and nothing else has changed. -/
structure Copied (path : List BlockId) (home : Homes) (g : Graph) (home' : Homes) (g' : Graph) :
    Prop where
  size_le : g.blocks.size ≤ g'.blocks.size
  home_eq : ∀ b, b < g.blocks.size → home' b = home b
  block_eq : ∀ b, b < g.blocks.size → g'.block b = g.block b
  copy : ∀ b, g.blocks.size ≤ b → b < g'.blocks.size →
    g'.block b = (g'.block b).blankCopy ∧ ∃ j ∈ path, home' b = some j
  rest : { g' with blocks := g.blocks } = g

namespace Copied

variable {path : List BlockId} {home home' home'' : Homes} {g g' g'' : Graph} {b j : BlockId}

theorem refl (path : List BlockId) (home : Homes) (g : Graph) : Copied path home g home g where
  size_le := Nat.le_refl _
  home_eq _ _ := rfl
  block_eq _ _ := rfl
  copy _ hle hlt := absurd hlt (Nat.not_lt.2 hle)
  rest := rfl

theorem instrs_eq (h : Copied path home g home' g') : g'.instrs = g.instrs :=
  (congrArg Graph.instrs h.rest :)

theorem start_eq (h : Copied path home g home' g') : g'.start = g.start :=
  (congrArg Graph.start h.rest :)

theorem order_eq (h : Copied path home g home' g') : g'.order = g.order :=
  (congrArg Graph.order h.rest :)

/-- A block is an old one, or it is blank. -/
theorem block_cases (h : Copied path home g home' g') (b : BlockId) :
    g'.block b = g.block b ∨ g.blocks.size ≤ b ∧ g'.block b = (g'.block b).blankCopy := by
  rcases Nat.lt_or_ge b g.blocks.size with hlt | hge
  · exact .inl (h.block_eq b hlt)
  · rcases Nat.lt_or_ge b g'.blocks.size with hlt' | hge'
    · exact .inr ⟨hge, (h.copy b hge hlt').1⟩
    · exact .inl (by rw [Graph.block_of_size_le hge, Graph.block_of_size_le hge'])

/-- What a blank block does not have, a copy does not have. -/
theorem proj_eq {α : Type} (h : Copied path home g home' g') (p : Block → α)
    (hp : ∀ y : Block, p y.blankCopy = p default) (b : BlockId) : p (g'.block b) = p (g.block b) := by
  rcases h.block_cases b with he | ⟨hge, he⟩
  · rw [he]
  · rw [he, hp, Graph.block_of_size_le hge]

theorem grows (h : Copied path home g home' g') : Grows home g home' g' where
  size_le := h.size_le
  home_eq := h.home_eq
  kin b hb := by rw [h.block_eq b hb]
  queued b hb := by rwa [h.proj_eq Block.queued fun _ => rfl]
  visited b hb := by rwa [h.proj_eq Block.visited fun _ => rfl]
  exit b x hb := by rwa [h.proj_eq Block.exit fun _ => rfl]
  body b _ := Graph.body_congr h.instrs_eq (h.proj_eq Block.instrs (fun _ => rfl) b)
  closed b _ := h.proj_eq Block.handlers (fun _ => rfl) b
  handlers b d hd := by rwa [h.proj_eq Block.handlers fun _ => rfl]
  predecessors b p hp := by rwa [h.proj_eq Block.predecessors fun _ => rfl]
  start := h.start_eq
  order := h.order_eq ▸ List.prefix_rfl

/-- One more copy. -/
theorem copyBlock (h : Copied path home g home' g') {original : BlockId}
    (hhome : ∀ b, home'' b = if b = g'.blocks.size then some j else home' b) :
    Copied (j :: path) home g home'' (g'.copyBlock original).2 := by
  unfold Graph.copyBlock
  have hle := h.size_le
  refine ⟨?_, fun b hb => ?_, fun b hb => ?_, fun b hle hlt => ?_, ?_⟩
  · rw [Graph.size_newBlock]
    exact Nat.le_succ_of_le hle
  · rw [hhome, if_neg (Nat.ne_of_lt (Nat.lt_of_lt_of_le hb hle)), h.home_eq b hb]
  · rw [Graph.block_newBlock_of_lt (Nat.lt_of_lt_of_le hb hle), h.block_eq b hb]
  · rw [hhome]
    rcases Graph.lt_size_newBlock.1 hlt with hlt | rfl
    · rw [if_neg (Nat.ne_of_lt hlt), Graph.block_newBlock_of_lt hlt]
      obtain ⟨hblank, k, hk, hhome'⟩ := h.copy b hle hlt
      exact ⟨hblank, k, List.mem_cons_of_mem _ hk, hhome'⟩
    · rw [if_pos rfl, Graph.block_newBlock_self]
      exact ⟨rfl, j, List.mem_cons_self, rfl⟩
  · exact h.rest

theorem inRange (h : Copied path home g home' g') (hg : g.InRange) : g'.InRange := by
  refine hg.of_blocks h.size_le ?_ (fun b id hid => ?_) fun b d hd => ?_
  · have := h.rest; rw [← this]
  · rw [h.proj_eq Block.instrs fun _ => rfl] at hid; exact hg.instrs b id hid
  · rw [h.proj_eq Block.refs fun _ => rfl] at hd
    exact Nat.lt_of_lt_of_le (hg.refs b d hd) h.size_le

/-- The copies made for another call are the old ones. -/
theorem liesAt_iff (h : Copied path home g home' g') (hj : j ∉ path) (bci : Nat) (b : BlockId) :
    g'.LiesAt home' (some j) bci b ↔ g.LiesAt home (some j) bci b := by
  rcases Nat.lt_or_ge b g.blocks.size with hlt | hge
  · exact h.grows.liesAt_iff hlt
  · constructor
    · intro hb
      obtain ⟨-, k, hk, hhome⟩ := h.copy b hge hb.lt
      have hkj : some k = some j := hhome.symm.trans hb.home_eq
      cases hkj; exact absurd hk hj
    · intro hb; exact absurd hb.lt (Nat.not_lt.2 hge)

end Copied

/-! ## Making a copy -/

namespace Chain

variable {st : Setting} {home : Homes} {path : List BlockId} {bci : Nat}

theorem liesAt_copyBlock {home' : Homes} {g : Graph} {j original : BlockId}
    (hsite : (g.block original).site = .code bci)
    (hhome : ∀ b, home' b = if b = g.blocks.size then some j else home b) {call : Option BlockId}
    {i : Nat} {b : BlockId} : (g.copyBlock original).2.LiesAt home' call i b ↔
      g.LiesAt home call i b ∨ (call = some j ∧ i = bci ∧ b = g.blocks.size) := by
  unfold Graph.copyBlock
  have hold : ∀ {b}, b < g.blocks.size → home' b = home b := by
    intro b hb
    rw [hhome, if_neg (Nat.ne_of_lt hb)]
  have hnew : home' g.blocks.size = some j := by rw [hhome, if_pos rfl]
  constructor
  · intro h
    rcases Graph.lt_size_newBlock.1 h.lt with hb | rfl
    · exact .inl ⟨hb, (hold hb).symm.trans h.home_eq, Graph.block_newBlock_of_lt hb ▸ h.site⟩
    · have hsite' := h.site
      rw [Graph.block_newBlock_self, show (Block.blankCopy _).site = _ from hsite] at hsite'
      exact .inr ⟨h.home_eq.symm.trans hnew, (Site.code.inj hsite').symm, rfl⟩
  · rintro (h | ⟨rfl, rfl, rfl⟩)
    · exact ⟨Graph.lt_size_newBlock.2 (.inl h.lt), (hold h.lt).trans h.home_eq,
        (Graph.block_newBlock_of_lt h.lt).symm ▸ h.site⟩
    · exact ⟨Graph.lt_size_newBlock.2 (.inr rfl), hnew, Graph.block_newBlock_self.symm ▸ hsite⟩

/-- The copy of a block that lies in the copy around is a block of its own. -/
theorem laid_copyBlock {home' : Homes} {g : Graph} {j original : BlockId} {call : Option BlockId}
    (hg : Laid st home g) (hj : j < g.blocks.size) (ho : g.LiesAt home call bci original)
    (hnew : ∀ b, ¬ g.LiesAt home (some j) bci b)
    (hhome : ∀ b, home' b = if b = g.blocks.size then some j else home b) :
    Laid st home' (g.copyBlock original).2 := by
  have hlies : ∀ {call i b}, (g.copyBlock original).2.LiesAt home' call i b ↔
      g.LiesAt home call i b ∨ (call = some j ∧ i = bci ∧ b = g.blocks.size) :=
    liesAt_copyBlock ho.site hhome
  unfold Graph.copyBlock at hlies ⊢
  have hold : ∀ {b}, b < g.blocks.size → home' b = home b := by
    intro b hb
    rw [hhome, if_neg (Nat.ne_of_lt hb)]
  constructor
  · intro b k hb hk
    rcases Graph.lt_size_newBlock.1 hb with hb | rfl
    · exact hg.lt_of_home b k hb ((hold hb).symm.trans hk)
    · rw [hhome, if_pos rfl] at hk
      cases hk
      exact hj
  · intro call i b c hb hc
    rcases hlies.1 hb with hb | ⟨rfl, rfl, rfl⟩
    · rcases hlies.1 hc with hc | ⟨rfl, rfl, -⟩
      · exact hg.unique hb hc
      · exact absurd hb (hnew b)
    · rcases hlies.1 hc with hc | ⟨-, -, rfl⟩
      · exact absurd hc (hnew c)
      · rfl
  · intro i b
    rw [hlies, hg.get_iff]
    simp
  · intro call i b hb
    rcases hlies.1 hb with hb | ⟨rfl, rfl, rfl⟩
    · obtain ⟨b₀, hget, hkin⟩ := hg.kin hb
      refine ⟨b₀, hget, ?_⟩
      rw [Graph.block_newBlock_of_lt hb.lt, Graph.block_newBlock_of_lt (hg.get_iff.1 hget).lt, hkin]
    · obtain ⟨b₀, hget, hkin⟩ := hg.kin ho
      refine ⟨b₀, hget, ?_⟩
      rw [Graph.block_newBlock_self, Graph.block_newBlock_of_lt (hg.get_iff.1 hget).lt, ← hkin]
      rfl
  · intro s hs b hb
    rw [Graph.block_newBlock_of_lt (hg.get_iff.1 hb).lt]
    exact hg.layout s hs b hb
  · intro b hb
    rcases Graph.lt_size_newBlock.1 hb with hb | rfl
    · rw [Graph.block_newBlock_of_lt hb]
      exact hg.defaultHandler_iff b hb
    · rw [Graph.block_newBlock_self]
      exact hg.defaultHandler_iff original ho.lt
  · intro b hb hs
    rcases Graph.lt_size_newBlock.1 hb with hb | rfl
    · rw [Graph.block_newBlock_of_lt hb] at hs
      rw [hold hb]
      exact hg.unlock b hb hs
    · rw [Graph.block_newBlock_self, show (Block.blankCopy _).site = _ from ho.site] at hs
      cases hs
  · intro x hx ht
    obtain ⟨d, hd, hlt, hs⟩ := hg.unlock_entry x hx ht
    exact ⟨d, hd, Graph.lt_size_newBlock.2 (.inl hlt), (Graph.block_newBlock_of_lt hlt).symm ▸ hs⟩
  · exact hg.scopes

/-- At a start every context finds the block of its copy. -/
theorem locate_spec {chain : List Context} (hbci : bci ∈ st.survey.starts) : ∀ {d : Draft},
    Laid st home d.graph → Linked home d.graph.blocks.size path →
    Nest (ContextFits st home d.graph) chain path →
    ∃ b chain' d' home', locate bci chain d = (some b, chain', d') ∧
      Laid st home' d'.graph ∧ Nest (ContextFits st home' d'.graph) chain' path ∧
      Copied path home d.graph home' d'.graph ∧ d'.graph.LiesAt home' path.head? bci b ∧
      chain'.map Context.withoutCopies = chain.map Context.withoutCopies := by
  intro d hlaid hlinked hnest
  induction hnest with
  | @root c hc =>
    obtain ⟨b, hb⟩ := st.exists_get hbci
    refine ⟨b, [c], d, home, ?_, hlaid, .root hc, .refl _ _ _, hlaid.get_iff.1 hb, rfl⟩
    simp only [locate, hc.root rfl, hc.table, hb]
  | @call c outer j path hc hrest ih =>
    obtain ⟨sub, hsub, hsubsize, hget⟩ := hc.copies j rfl
    cases hcopy : sub.copies.get bci with
    | some copy =>
      refine ⟨copy, c :: outer, d, home, ?_, hlaid, .call hc hrest, .refl _ _ _,
        (hget bci copy).1 hcopy, rfl⟩
      simp only [locate, hsub, hcopy]
    | none =>
      obtain ⟨original, outer', d₁, home₁, hlocate, hlaid₁, hrest₁, hcopied₁, hlies, hsame⟩ :=
        ih hlinked.2.2
      -- the calls around `j` are older, so none of the new blocks lies in the copy made for `j`
      have hj : j ∉ path := fun hmem =>
        Nat.lt_irrefl j (hlinked.lt_of_mem hlaid.lt_of_home j hmem)
      have hc₁ : ContextFits st home₁ d₁.graph (some j) c :=
        hc.of_liesAt hcopied₁.size_le hcopied₁.home_eq fun k hk => by
          cases hk; exact hcopied₁.liesAt_iff hj
      have hnew : ∀ b, ¬ d₁.graph.LiesAt home₁ (some j) bci b := by
        intro b hb
        have := (hget bci b).2 ((hcopied₁.liesAt_iff hj bci b).1 hb)
        rw [hcopy] at this; cases this
      have hjlt : j < d₁.graph.blocks.size := Nat.lt_of_lt_of_le hlinked.1 hcopied₁.size_le
      let home₂ : Homes := fun b => if b = d₁.graph.blocks.size then some j else home₁ b
      have hhome : ∀ b, home₂ b = if b = d₁.graph.blocks.size then some j else home₁ b := fun _ => rfl
      have hlaid₂ := laid_copyBlock hlaid₁ hjlt hlies hnew hhome
      have hlies₂ : ∀ k i b, (d₁.graph.copyBlock original).2.LiesAt home₂ (some k) i b ↔
          d₁.graph.LiesAt home₁ (some k) i b ∨ (k = j ∧ i = bci ∧ b = d₁.graph.blocks.size) := by
        intro k i b
        rw [liesAt_copyBlock hlies.site hhome]
        simp
      have hsize₂ : d₁.graph.blocks.size ≤ (d₁.graph.copyBlock original).2.blocks.size := by
        unfold Graph.copyBlock
        rw [Graph.size_newBlock]
        exact Nat.le_succ _
      have hhome₂ : ∀ b, b < d₁.graph.blocks.size → home₂ b = home₁ b := fun b hb =>
        if_neg (Nat.ne_of_lt hb)
      refine ⟨d₁.graph.blocks.size, c.keepCopy bci d₁.graph.blocks.size :: outer',
        (d₁.copyBlock original sub.entry).2, home₂, ?_, hlaid₂, .call ?_ ?_,
        hcopied₁.copyBlock fun _ => rfl, (hlies₂ j bci _).2 (.inr ⟨rfl, rfl, rfl⟩), ?_⟩
      · simp only [locate, hsub, hcopy, hlocate]; rfl
      · refine hc₁.keepCopy ((Survey.mem_starts st.surveyed).1 hbci).1 hnew hsize₂ hhome₂ fun i b => ?_
        exact (hlies₂ j i b).trans (by simp)
      · refine hrest₁.imp_mem fun call c' hcall hc' => hc'.of_liesAt hsize₂ hhome₂ fun k hk i b => ?_
        rcases hcall with rfl | ⟨k', hk', rfl⟩
        · cases hk
        · cases hk
          have hkj : k ≠ j := fun h => hj (h ▸ hk')
          exact (hlies₂ k i b).trans ⟨fun h => h.elim id fun h => absurd h.1 hkj, .inl⟩
      · simp only [List.map_cons, hsame, List.cons.injEq, and_true]
        simp only [Context.withoutCopies, Context.keepCopy, hsub]
        rfl

end Chain
end BlockGraph
