import Mathlib.Logic.Relation
import BlockGraph.Proofs.Chains

/-!
# The graph is finished without the limit

How large the graph of a method becomes follows from its code, whatever the limit (`Core.size_le`). While no
graph has more blocks than some number, each step leaves fewer steps to be taken (`Inv.stepsLeft_lt`), so
the steps come to an end, and under a limit that allows so many blocks no method is refused for
its size. A context opens no two blocks that start at the same place (`Inv.opens_once`). Main statement:
`build_ends`.
-/

namespace BlockGraph

open Assembly

variable {m : Method} {pool : ConstantPool} {o : Options} {st : Setting} {home : Homes}
  {path : List BlockId} {s t u : Assembly} {b d : BlockId} {n : Nat}

/-! ## Each block once in a context -/

/-- The `n` outermost contexts of a chain. -/
def Chain.outermost (n : Nat) (chain : List Context) : List Context := chain.drop (chain.length - n)

instance (s : Assembly) (b : BlockId) : Decidable (s.Opens b) := inferInstanceAs (Decidable (_ ∧ _))

/-- A step during which the `n` outermost contexts stay on the chain. -/
def Method.StepsInside (m : Method) (o : Options) (n : Nat) (s t : Assembly) : Prop :=
  Assembly.step m o s = .ok false t ∧ n ≤ t.chain.length

theorem Chain.outermost_length (chain : List Context) : Chain.outermost chain.length chain = chain := by
  simp [Chain.outermost]

theorem Chain.outermost_cons {c : Context} {outer : List Context} (h : n ≤ outer.length) :
    Chain.outermost n (c :: outer) = Chain.outermost n outer := by
  unfold Chain.outermost
  rw [List.length_cons, Nat.succ_sub h, List.drop_succ_cons]

theorem Chain.Becomes.outermost {chain chain' : List Context} (h : Chain.Becomes chain chain') :
    Chain.Becomes (Chain.outermost n chain) (Chain.outermost n chain') := by
  unfold Chain.outermost
  rw [h.length_eq]
  exact List.forall₂_drop _ h

namespace Assembly.Moves

/-- Contexts that stay on the chain keep what they have found. -/
theorem outermost {done : Bool} (h : s.Moves done t) (hs : n ≤ s.chain.length) (ht : n ≤ t.chain.length) :
    Chain.Becomes (Chain.outermost n s.chain) (Chain.outermost n t.chain) := by
  cases h with
  | proceeds _ hchain => exact hchain.outermost
  | closes _ hchain => exact hchain.outermost
  | calls _ hchain houter =>
    rw [hchain, Chain.outermost_cons (houter.length_eq ▸ hs)]
    exact houter.outermost
  | opens _ hchain => exact hchain.outermost
  | leaves _ hchain _ _ houter =>
    rw [hchain, Chain.outermost_cons (houter.length_eq ▸ ht)]
    exact houter.outermost
  | ends => exact .refl _

/-- A step adds one block to the order of parsing at most, and takes none out of it. -/
theorem order_cases {done : Bool} (h : s.Moves done t) :
    t.graph.order = s.graph.order ∨ ∃ b, t.graph.order = s.graph.order.push b := by
  cases h with
  | proceeds _ _ horder | closes _ _ horder | calls _ _ _ horder | leaves _ _ _ _ _ horder =>
    exact .inl horder
  | @opens _ b _ _ horder => exact .inr ⟨b, horder⟩
  | ends => exact .inl rfl

/-- A block that has been opened stays so. -/
theorem mem_order {done : Bool} (h : s.Moves done t) (hb : b ∈ s.graph.order.toList) :
    b ∈ t.graph.order.toList := by
  rcases h.order_cases with horder | ⟨d, horder⟩
  · rwa [horder]
  · rw [horder, Array.toList_push]
    exact List.mem_append_left _ hb

end Assembly.Moves

/-- The step that opens a block has opened it. -/
theorem Base.mem_order_of_opens {done : Bool} (h : Base st home path s) (hmoves : s.Moves done t)
    (hb : s.Opens b) : b ∈ t.graph.order.toList := by
  have hnone := hb.1
  have hnonempty : ∀ c outer, s.chain = c :: outer → c.agenda.entries ≠ [] := by
    intro c outer hchain
    obtain ⟨-, n, rest, hentries⟩ := (h.opens_iff hchain).1 hb
    simp [hentries]
  cases hmoves with
  | proceeds hsome => simp [hnone] at hsome
  | closes hsome => simp [hnone] at hsome
  | calls hsome => simp [hnone] at hsome
  | opens hopens _ horder =>
    obtain rfl := Option.some.inj (hb.2.symm.trans hopens.2)
    simp [horder]
  | leaves _ hchain hempty => exact absurd hempty (hnonempty _ _ hchain)
  | ends _ hchain hempty => exact absurd hempty (hnonempty _ _ hchain)

/-- From the step that opens a block on, as long as the context of the block is on the chain. -/
theorem Inv.inside (h : Inv st home path s) (hb : s.Opens b)
    (hlater : Relation.TransGen (m.StepsInside o s.chain.length) s t) :
    ∃ home' path', Inv st home' path' t ∧ s.chain.length ≤ t.chain.length ∧
      Chain.Becomes s.chain (Chain.outermost s.chain.length t.chain) ∧ b ∈ t.graph.order.toList := by
  induction hlater with
  | single hstep =>
    obtain ⟨home', path', hinv⟩ := h.step.of_ok hstep.1
    have hmoves := h.moves.of_ok hstep.1
    have hbecomes := hmoves.outermost (Nat.le_refl _) hstep.2
    rw [Chain.outermost_length] at hbecomes
    exact ⟨home', path', hinv, hstep.2, hbecomes, h.base.mem_order_of_opens hmoves hb⟩
  | tail _ hstep ih =>
    obtain ⟨home', path', hinv, hlength, hbecomes, hmem⟩ := ih
    obtain ⟨home'', path'', hinv'⟩ := hinv.step.of_ok hstep.1
    have hmoves := hinv.moves.of_ok hstep.1
    exact ⟨home'', path'', hinv', hstep.2, hbecomes.trans (hmoves.outermost hlength hstep.2),
      hmoves.mem_order hmem⟩

/-- **A context opens each block once.** While a context is on the chain no two blocks that it opens start
at the same place. -/
theorem Inv.opens_once (h : Inv st home path s) (hb : s.Opens b)
    (hlater : Relation.TransGen (m.StepsInside o s.chain.length) s t)
    (hlength : t.chain.length = s.chain.length) (hd : t.Opens d) :
    (s.graph.block b).site ≠ (t.graph.block d).site := by
  obtain ⟨home', path', hinv, -, hbecomes, hmem⟩ := h.inside hb hlater
  obtain ⟨hhome, hlt, -⟩ := h.base.new_of_opens hb
  obtain ⟨hhome', hlt', hnew⟩ := hinv.base.new_of_opens hd
  intro hsite
  have hne : b ≠ d := by
    rintro rfl
    rw [(hinv.base.queue.mem_order b).1 hmem] at hnew
    cases hnew
  cases hcode : (t.graph.block d).site with
  | unlock =>
    exact hne (h.base.laid.unlock_unique hinv.base.laid hlt hlt' (hsite.trans hcode) hcode)
  | code bci =>
    -- the context has found `b` there, and it finds `d`
    obtain ⟨c, outer, hchain⟩ := h.base.contexts.exists_cons
    have hfinds : c.finds bci = some b :=
      ((hchain ▸ h.base.contexts).head.finds_iff h.base.laid).2 ⟨hlt, hhome, hsite.trans hcode⟩
    rw [← hlength, Chain.outermost_length, hchain] at hbecomes
    obtain ⟨c', outer', hbecome, -, hchain'⟩ := List.forall₂_cons_left_iff.1 hbecomes
    have hfinds' : c'.finds bci = some d :=
      ((hchain' ▸ hinv.base.contexts).head.finds_iff hinv.base.laid).2 ⟨hlt', hhome', hcode⟩
    exact hne (Option.some.inj ((hbecome.finds bci b hfinds).symm.trans hfinds'))

/-! ## Steps that are left -/

/-- What is left of the open block in code of `size` bytes: a step for each byte from the cursor on, and one
more to leave the subroutine if the block ends with a call. -/
def Assembly.unread (size : Nat) (s : Assembly) : Nat :=
  if s.current.isSome then size + 1 - s.position else 0

/-- No more steps are left than this if there are never more than `n` blocks, in code of `size` bytes: to open
each block that may still be opened and to parse it, what is left of the open block, and one for each
context. -/
def Assembly.stepsLeft (n size : Nat) (s : Assembly) : Nat :=
  (n - s.graph.order.size) * (size + 2) + s.unread size + s.chain.length

theorem Assembly.unread_le (size : Nat) (s : Assembly) : s.unread size ≤ size + 1 := by
  unfold Assembly.unread
  split
  · exact Nat.sub_le ..
  · exact Nat.zero_le _

theorem Assembly.unread_of_none (size : Nat) (h : s.current = none) : s.unread size = 0 := by
  simp [Assembly.unread, h]

/-- While a block is open, its next instruction lies in the code. -/
theorem Inv.exists_next (h : Inv st home path s) (hcurrent : s.current.isSome = true) :
    ∃ c ∈ s.chain.head?, s.position < c.cursor.next ∧ c.cursor.next ≤ st.method.code.size := by
  obtain ⟨b, hb⟩ := Option.isSome_iff_exists.1 hcurrent
  obtain ⟨bci, before, i, hholds⟩ := h.opened b hb
  obtain ⟨c, outer, hchain⟩ := h.base.contexts.exists_cons
  have hc : c ∈ s.chain.head? := by rw [hchain]; rfl
  have hposition : s.position = c.cursor.position := by rw [Assembly.position, hchain]; rfl
  rw [hposition]
  refine ⟨c, hc, ?_⟩
  rw [hholds.cursor c hc]
  exact Survey.bci_lt_next st.surveyed hholds.stretch.mem

/-- A block that is opened has not been opened before, so not all blocks have been. -/
theorem Inv.order_size_lt_of_opens (h : Inv st home path s) (hb : s.Opens b) :
    s.graph.order.size < s.graph.blocks.size := by
  obtain ⟨-, hlt, hnew⟩ := h.base.new_of_opens hb
  exact h.base.order_size_lt hlt hnew

/-- A step that is not the last one leaves fewer steps. -/
theorem Inv.stepsLeft_lt (h : Inv st home path s) (hn : ∀ b, s.Opens b → s.graph.order.size < n)
    (hmoves : s.Moves false t) :
    t.stepsLeft n st.method.code.size < s.stepsLeft n st.method.code.size := by
  have hopen : s.current.isSome = true → 2 ≤ s.unread st.method.code.size := by
    intro hcurrent
    obtain ⟨c, -, hlt, hle⟩ := h.exists_next hcurrent
    rw [Assembly.unread, if_pos hcurrent]
    omega
  unfold Assembly.stepsLeft
  cases hmoves with
  | proceeds hcurrent hchain horder hcurrent' hposition =>
    obtain ⟨c, hc, hlt, hle⟩ := h.exists_next hcurrent
    have hunread : t.unread st.method.code.size < s.unread st.method.code.size := by
      rw [Assembly.unread, Assembly.unread, hcurrent', if_pos hcurrent, if_pos hcurrent, hposition c hc]
      omega
    rw [horder, hchain.length_eq]
    omega
  | closes hcurrent hchain horder hcurrent' =>
    have hunread := hopen hcurrent
    rw [horder, hchain.length_eq, Assembly.unread_of_none _ hcurrent']
    omega
  | calls hcurrent hchain houter horder hcurrent' =>
    have hunread := hopen hcurrent
    rw [horder, hchain, List.length_cons, ← houter.length_eq, Assembly.unread_of_none _ hcurrent']
    omega
  | @opens _ b hopens hchain horder =>
    have hsize := hn b hopens
    have hunread := t.unread_le st.method.code.size
    obtain ⟨k, rfl⟩ := Nat.exists_eq_add_of_lt hsize
    rw [horder, Array.size_push, hchain.length_eq, Assembly.unread_of_none _ hopens.1,
      show s.graph.order.size + k + 1 - s.graph.order.size = k + 1 by omega,
      show s.graph.order.size + k + 1 - (s.graph.order.size + 1) = k by omega, Nat.add_one_mul k]
    omega
  | leaves hcurrent hchain _ _ houter horder hcurrent' =>
    rw [horder, hchain, List.length_cons, houter.length_eq, Assembly.unread_of_none _ hcurrent,
      Assembly.unread_of_none _ hcurrent']
    omega

/-- A context is left at least. -/
theorem Inv.stepsLeft_pos (h : Inv st home path s) (n size : Nat) : 0 < s.stepsLeft n size := by
  obtain ⟨c, outer, hchain⟩ := h.base.contexts.exists_cons
  rw [Assembly.stepsLeft, hchain, List.length_cons]
  exact Nat.succ_pos _

/-- The prepared assembly has one context. -/
theorem Inv.stepsLeft_le (h : Inv st home [] s) (n : Nat) :
    s.stepsLeft n st.method.code.size ≤ (n + 1) * (st.method.code.size + 2) := by
  have hlength : s.chain.length = 1 := by
    have hnest := h.base.contexts
    generalize s.chain = chain at hnest ⊢
    cases hnest
    rfl
  have hunread := s.unread_le st.method.code.size
  have hmul := Nat.mul_le_mul_right (st.method.code.size + 2) (Nat.sub_le n s.graph.order.size)
  rw [Assembly.stepsLeft, hlength, Nat.add_one_mul n]
  omega

/-! ## Runs that end -/

theorem conclude_unlimited (m : Method) (s : Assembly) :
    Yields (conclude m) s (fun _ _ => True) Unlimited := by
  unfold conclude
  refine keepsPlace_innermost.andThen fun c t _ => ?_
  rw [yields_bind, yields_get, yields_bind, yields_modify, yields_modify]
  trivial

section

variable (hn : ∀ s, m.Reaches pool o s → s.graph.blocks.size ≤ n)
include hn

theorem Method.Reaches.stepsLeft_lt (h : m.Reaches pool o s) (hstep : Assembly.step m o s = .ok false t) :
    t.stepsLeft n m.code.size < s.stepsLeft n m.code.size := by
  obtain ⟨st, home, path, rfl, hinv⟩ := h.inv
  exact hinv.stepsLeft_lt (fun b hb => Nat.lt_of_lt_of_le (hinv.order_size_lt_of_opens hb) (hn s h))
    (hinv.moves.of_ok hstep)

/-- A run that may take the steps that are left does not end for want of steps, nor of blocks. -/
theorem Method.Reaches.run_unlimited (hlimit : n ≤ o.blockLimit) : ∀ {fuel : Nat} {s : Assembly},
    m.Reaches pool o s → s.stepsLeft n m.code.size ≤ fuel →
      Yields (run m o fuel) s (fun _ _ => True) Unlimited
  | 0, s, h, hfuel => by
    obtain ⟨_, _, _, -, hinv⟩ := h.inv
    exact absurd (hinv.stepsLeft_pos n m.code.size) (Nat.not_lt.2 hfuel)
  | fuel + 1, s, h, hfuel => by
    obtain ⟨_, _, _, -, hinv⟩ := h.inv
    unfold run
    rw [yields_bind, Yields]
    cases hstep : Assembly.step m o s with
    | error fault t =>
      intro hlimited
      obtain ⟨hreached, hlt⟩ := hinv.moves.of_error hstep hlimited
      have hsize := hn s h
      omega
    | ok done t =>
      cases done with
      | true => trivial
      | false =>
        exact run_unlimited hlimit (h.step hstep)
          (Nat.le_of_lt_succ (Nat.lt_of_lt_of_le (h.stepsLeft_lt hn hstep) hfuel))

/-- Each step that is taken is one of those that were left, until nothing is left to do. -/
theorem Method.step_eq_or_of_after : ∀ {k : Nat} {s : Assembly}, m.after pool o k = some s →
    Assembly.step m o s = .ok true s ∨ s.stepsLeft n m.code.size + k ≤ (n + 1) * (m.code.size + 2)
  | 0, s, h => by
    obtain ⟨st, home, rfl, hinv, -⟩ := prepare_spec.of_ok (prepare_of_after h)
    exact .inr (hinv.stepsLeft_le n)
  | k + 1, t, h => by
    obtain ⟨s, done, hs, hstep⟩ := step_of_after h
    have hreach := reaches_of_after hs
    cases done with
    | true =>
      cases (hreach.moves hstep).eq_of_done
      exact .inl hstep
    | false =>
      have hlt := hreach.stepsLeft_lt hn hstep
      rcases step_eq_or_of_after hs with hdone | hle
      · rw [hdone] at hstep; cases hstep
      · exact .inr (by omega)

/-- With a limit that allows so many blocks none is refused for its size. -/
theorem Method.assemble_unlimited (hlimit : n ≤ o.blockLimit) :
    Yields (assemble m pool o) {} (fun _ _ => True) Unlimited := by
  unfold assemble
  rw [yields_bind, Yields]
  cases hprepare : prepare m pool o {} with
  | error fault s =>
    obtain ⟨hlayout | ⟨-, -, rfl⟩, -⟩ := prepare_spec.of_error hprepare
    · exact (decodes_layout _ _ _ hlayout).not_isLimit
    · rintro ⟨_, h⟩
      cases h
  | ok a s =>
    obtain ⟨st, home, hst, hinv, -⟩ := prepare_spec.of_ok hprepare
    have hfuel : s.stepsLeft n m.code.size ≤ stepBound m o := by
      refine Nat.le_succ_of_le ((hst ▸ hinv.stepsLeft_le n).trans ?_)
      exact Nat.mul_le_mul_right _ (Nat.succ_le_succ hlimit)
    exact (Reaches.run_unlimited hn hlimit (.prepared hprepare) hfuel).bind fun _ t _ =>
      conclude_unlimited m t

end

/-! ## The bound -/

/-- Subroutines that are open are entered at different indices. -/
theorem Assembly.Coherent.subroutines_le {insns : List Insn} (h : s.Coherent insns) :
    (s.chain.filter (·.isSubroutine)).length ≤ (Insn.callTargets insns).card := by
  have hlength : (s.chain.filter (·.isSubroutine)).length = (Chain.entries s.chain).length := by
    rw [Chain.entries, List.length_filterMap_eq_countP, List.countP_eq_length_filter]
    simp [Context.isSubroutine]
  rw [hlength, ← List.toFinset_card_of_nodup h.entries]
  exact Finset.card_le_card fun e he => (h.entered e (List.mem_toFinset.1 he)).2

theorem Method.Reaches.size_le {v : Survey} (hsurvey : Survey.ofMethod m.code m.handlers = .ok v)
    (h : m.Reaches pool o s) :
    s.graph.blocks.size ≤ blockBound v.starts.length (Insn.callTargets v.insns).card := by
  obtain ⟨st, _, _, rfl, hinv⟩ := h.inv
  cases st.surveyed.symm.trans hsurvey
  exact hinv.size_le

/-- **The graph is finished without the limit.** Let `n` blocks be laid out, and let the calls of the code
lead to `k` indices. A limit of `1 + n + n² + … + n ^ (k + 1)` blocks or more refuses no method. Under any
limit nothing is left to do after a number of steps that comes from this bound and the size of the code,
unless a step has failed before. There are never more than `k` subroutines open, and while a context is on
the chain it opens no two blocks that start at the same place. -/
theorem build_ends (m : Method) (pool : ConstantPool) {starts : List Start}
    (hlayout : layout m.code m.handlers = .ok starts) :
    ∃ insns, Insn.sweep m.code = .ok insns ∧ ∀ o,
      (blockBound starts.length (Insn.callTargets insns).card ≤ o.blockLimit →
        ∀ limit, build m pool o ≠ .error (.bailout (.tooManyBlocks limit))) ∧
      (∀ s, m.after pool o
          ((blockBound starts.length (Insn.callTargets insns).card + 1) * (m.code.size + 2)) = some s →
        Assembly.step m o s = .ok true s) ∧
      (∀ s, m.Reaches pool o s →
        (s.chain.filter (·.isSubroutine)).length ≤ (Insn.callTargets insns).card) ∧
      ∀ s t b d, m.Reaches pool o s → s.Opens b →
        Relation.TransGen (m.StepsInside o s.chain.length) s t → t.chain.length = s.chain.length →
          t.Opens d → (s.graph.block b).site ≠ (t.graph.block d).site := by
  obtain ⟨v, hsurvey, rfl⟩ := Survey.exists_of_layout hlayout
  have hlength : v.layout.length = v.starts.length := by
    rw [← Survey.map_bci_layout, List.length_map]
  rw [hlength]
  refine ⟨v.insns, Survey.sweep_eq hsurvey, fun o => ⟨fun hlimit limit hbuild => ?_, fun s hs => ?_,
    fun s hreach => ?_, fun s t b d hreach hb hlater hchain hd => ?_⟩⟩
  · obtain ⟨_, hunlimited⟩ :=
      exists_of_build_error (m.assemble_unlimited (fun _ h => h.size_le hsurvey) hlimit) hbuild
    exact hunlimited ⟨limit, rfl⟩
  · obtain ⟨_, _, _, -, hinv⟩ := (Method.reaches_of_after hs).inv
    rcases m.step_eq_or_of_after (fun _ h => h.size_le hsurvey) hs with hdone | hle
    · exact hdone
    · have hpos := hinv.stepsLeft_pos (blockBound v.starts.length (Insn.callTargets v.insns).card) m.code.size
      omega
  · obtain ⟨st, _, _, rfl, hinv⟩ := hreach.inv
    cases st.surveyed.symm.trans hsurvey
    exact hinv.coherent.subroutines_le
  · obtain ⟨_, _, _, -, hinv⟩ := hreach.inv
    exact hinv.opens_once hb hlater hchain hd

/-- Steps that change the open block, while the `n` outermost contexts stay. -/
theorem Method.stepsInside_of_after {k : Nat} (hs : m.after pool o k = some s)
    (ht : m.after pool o (k + 1) = some t) (hn : n ≤ t.chain.length) (hne : s.current ≠ t.current) :
    m.StepsInside o n s t := by
  obtain ⟨s', done, hs', hstep⟩ := step_of_after ht
  cases hs.symm.trans hs'
  cases done with
  | false => exact ⟨hstep, hn⟩
  | true =>
    cases ((reaches_of_after hs).moves hstep).eq_of_done
    exact absurd rfl hne

/-- Eight blocks are laid out and calls lead to two indices, so 585 blocks are enough. The outer subroutine
opens two blocks one after the other. -/
theorem innerEntry_ends :
    (∀ o : Options, (585 ≤ o.blockLimit → ∀ limit,
        build innerEntry {} o ≠ .error (.bailout (.tooManyBlocks limit))) ∧
      ∀ s, innerEntry.after {} o (586 * 24) = some s → Assembly.step innerEntry o s = .ok true s) ∧
    ∃ s t, innerEntry.Reaches {} {} s ∧ (s.chain.filter (·.isSubroutine)).length ≤ 2 ∧ s.Opens 8 ∧
      Relation.TransGen (innerEntry.StepsInside {} s.chain.length) s t ∧ t.Opens 9 ∧
      (s.graph.block 8).site ≠ (t.graph.block 9).site := by
  have hlaid : (layout innerEntry.code innerEntry.handlers).toOption.any (·.length == 8) = true := by
    decide +kernel
  have hcalls : (Insn.sweep innerEntry.code).toOption.any
      (fun l => (Insn.callTargets l).card == 2) = true := by decide +kernel
  cases hlayout : layout innerEntry.code innerEntry.handlers with
  | error fault => rw [hlayout] at hlaid; cases hlaid
  | ok starts =>
  obtain ⟨insns, hsweep, h⟩ := build_ends innerEntry {} hlayout
  rw [hlayout] at hlaid
  rw [hsweep] at hcalls
  have hcard : (Insn.callTargets insns).card = 2 := eq_of_beq hcalls
  have hbound : blockBound starts.length (Insn.callTargets insns).card = 585 := by
    rw [hcard, show starts.length = 8 from eq_of_beq hlaid]
    decide
  rw [hbound, hcard] at h
  refine ⟨fun o => ⟨(h o).1, (h o).2.1⟩, ?_⟩
  have hany : (innerEntry.after {} {} 2).any (fun s =>
      (innerEntry.after {} {} 3).any fun u => (innerEntry.after {} {} 4).any fun t =>
        decide (s.Opens 8 ∧ t.Opens 9 ∧ s.chain.length = 2 ∧ u.chain.length = 2 ∧ t.chain.length = 2 ∧
          s.current ≠ u.current ∧ u.current ≠ t.current)) = true := by decide +kernel
  obtain ⟨s, hs, hany⟩ := (Option.any_eq_true _ _).1 hany
  obtain ⟨u, hu, hany⟩ := (Option.any_eq_true _ _).1 hany
  obtain ⟨t, ht, hany⟩ := (Option.any_eq_true _ _).1 hany
  obtain ⟨hopens, hopens', hls, hlu, hlt, hsu, hut⟩ := of_decide_eq_true hany
  have hreach := Method.reaches_of_after hs
  have hlater : Relation.TransGen (innerEntry.StepsInside {} s.chain.length) s t :=
    .tail (.single (Method.stepsInside_of_after hs hu (hls.trans hlu.symm).le hsu))
      (Method.stepsInside_of_after hu ht (hls.trans hlt.symm).le hut)
  exact ⟨s, t, hreach, (h {}).2.2.1 s hreach, hopens, hlater, hopens',
    (h {}).2.2.2 s t 8 9 hreach hopens hlater (hlt.trans hls.symm) hopens'⟩

end BlockGraph
