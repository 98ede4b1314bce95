import BlockGraph.Proofs.Assembly.Moves
import BlockGraph.Proofs.Nesting

/-!
# Chains of contexts

In every assembly that making a graph passes through, the contexts of the chain parse different subroutines
of one scope, keep their return addresses in different locals, and have blocks of their own on their agendas
(`Coherent`). This follows from the invariant: two contexts of a chain are for two calls, one of which lies
in the copy for the other (`Nest.pairwise`). A context leaves the chain only when its agenda is empty. Main
statement: `coherent_of_reaches`.
-/

namespace BlockGraph

open Assembly

/-- Where the subroutines of a chain start, innermost first. -/
def Chain.entries (chain : List Context) : List Nat :=
  chain.filterMap fun c => c.subroutine.map (·.entry)

/-- The locals that hold the return addresses of a chain. -/
def Chain.returnLocals (chain : List Context) : List Nat := chain.filterMap (·.returnLocal)

/-- A block waits to be parsed in a context: in a subroutine it is one of the copies there, else a block of the
table or the one that unlocks. It is not where the subroutine comes back to. -/
structure Context.Awaits (c : Context) (g : Graph) (b : BlockId) : Prop where
  lt : b < g.blocks.size
  queued : (g.block b).queued = true
  unvisited : (g.block b).visited = false
  owned : (∃ bci, c.finds bci = some b) ∨
    c.subroutine = none ∧ (g.block b).flags.defaultHandler = true
  inside : c.resume ≠ some b

/-- How the contexts of a chain stand to each other and to the graph, for code of the listed instructions. -/
structure Assembly.Coherent (insns : List Insn) (s : Assembly) : Prop where
  root : ∃ inner root, s.chain = inner ++ [root] ∧ root.subroutine = none ∧
    ∀ c ∈ inner, c.isSubroutine = true ∧ c.scope = root.scope
  entries : (Chain.entries s.chain).Nodup
  entered : ∀ e ∈ Chain.entries s.chain, e ≠ 0 ∧ e ∈ Insn.callTargets insns
  locals : (Chain.returnLocals s.chain).Nodup
  waits : ∀ c ∈ s.chain, ∀ b ∈ c.agenda.entries.map Prod.fst, c.Awaits s.graph b
  once : (Chain.waiting s.chain).Nodup

variable {m : Method} {pool : ConstantPool} {o : Options} {st : Setting} {home : Homes}
  {path : List BlockId} {s t : Assembly} {b j k e r : BlockId} {n : Nat} {c d : Context}
  {call : Option BlockId}

/-! ## Two contexts of a chain -/

/-- Subroutines one inside the other start at different indices. -/
theorem Core.entry_ne (h : Core st home path s) (hu : Under home j k)
    (hc : CallFits st home s.graph (some k) c) (hd : CallFits st home s.graph (some j) d)
    {sub sub' : Subroutine} (hsub : c.subroutine = some sub) (hsub' : d.subroutine = some sub') :
    sub.entry ≠ sub'.entry := by
  obtain ⟨sub₁, e, r, -, hsub₁, hx, -, hlies, -⟩ := hc.called k rfl
  obtain ⟨sub₂, e', r', -, hsub₂, hx', -, hlies', -⟩ := hd.called j rfl
  cases hsub.symm.trans hsub₁
  cases hsub'.symm.trans hsub₂
  obtain ⟨e'', r'', hx'', -, hne⟩ := (h.facts.unentered k e r hx).2 j hu
  cases hx'.symm.trans hx''
  intro he
  exact hne (by rw [hlies'.site, hlies.site, he])

/-- Once something of an open copy has been parsed, its first block has. -/
theorem Inv.body_entry_ne_nil (h : Inv st home path s) (hj : j ∈ path)
    (hx : (s.graph.block j).exit = some (.jsr e r)) (hb : home b = some j) (hne : s.graph.body b ≠ []) :
    s.graph.body e ≠ [] := by
  have hbv : (s.graph.block b).visited = true := by
    refine Bool.not_eq_false _ ▸ fun hv => hne (h.base.queue.fresh b hv).2.1
  have hmem := (h.base.queue.mem_order b).2 hbv
  have hsegment := h.facts.segments j e r hx
  have hev : (s.graph.block e).visited = true := by
    rw [← h.base.queue.mem_order]
    obtain ⟨pre, seg, post, hsplit, -, hrest, -, hhead⟩ := hsegment
    rcases hhead with rfl | hhead
    · rw [hsplit] at hmem
      exact absurd (.copied hb) (hrest b (by simpa using hmem))
    · have hmem := List.mem_of_mem_head? hhead
      rw [hsplit]
      simp [hmem]
  rcases h.base.queue.closed e hev with hclosed | hcurrent
  · exact (h.facts.settled e hclosed).body_ne_nil
  · -- the first block is still open, so it is all that has been parsed
    obtain ⟨_, _, _, _, _, hleads, -⟩ := (h.facts.settled j (by rw [hx]; rfl)).call hx
    obtain ⟨_, _, _, hh⟩ := h.opened e hcurrent
    rw [← hsegment.eq_of_copied hj hleads.1.home_eq hh.last h.base.queue.nodup hmem hb]
    exact hne

/-- Subroutines one inside the other do not keep their return addresses in the same local. -/
theorem Inv.returnLocal_ne (h : Inv st home path s) (hk : k ∈ path) (hu : Under home j k)
    (hc : CallFits st home s.graph (some k) c) (hac : AddressKept st home s.graph (some k) c)
    (hd : CallFits st home s.graph (some j) d) (had : AddressKept st home s.graph (some j) d)
    (hn : c.returnLocal = some n) : d.returnLocal ≠ some n := by
  intro hn'
  obtain ⟨sub, e, r, -, hsub, hx, -, hlies, -⟩ := hc.called k rfl
  obtain ⟨sub', e', r', -, hsub', hx', -, hlies', -⟩ := hd.called j rfl
  obtain ⟨hsaves, ⟨b, hb, hbegun⟩, -⟩ := hac.kept k sub n rfl hsub hn
  obtain ⟨hsaves', -, hkept⟩ := had.kept j sub' n rfl hsub' hn'
  have hne := h.body_entry_ne_nil hk hx hb hbegun
  obtain ⟨e'', r'', entry, hx'', hlies'', hlost⟩ := h.facts.apart k e r hx hne j hu
  cases hx'.symm.trans hx''
  obtain rfl : sub'.entry = entry := Site.code.inj (hlies'.site.symm.trans hlies''.site)
  obtain ⟨-, -, -, b', -, -, hb', hnot⟩ := hlost sub.entry n hlies.site hsaves hsaves'
  exact hnot (hkept b' hb')

/-! ## Agendas -/

/-- What is on the agenda of a context belongs there. -/
theorem Base.awaits (h : Base st home path s) (hc : ContextFits st home s.graph call c)
    (hagenda : AgendaFits home s.graph call c.agenda) (hb : b ∈ c.agenda.entries.map Prod.fst) :
    c.Awaits s.graph b := by
  obtain ⟨hhome, hqueued, hunvisited⟩ := hagenda.fits b hb
  have hlt := Graph.lt_of_queued hqueued
  refine ⟨hlt, hqueued, hunvisited, ?_, hc.resume_ne h.laid hhome⟩
  cases hsite : (s.graph.block b).site with
  | code bci => exact .inl ⟨bci, (hc.finds_iff h.laid).2 ⟨hlt, hhome, hsite⟩⟩
  | unlock =>
    have hroot := (h.laid.unlock b hlt hsite).1
    exact .inr ⟨hc.root (hhome.symm.trans hroot), (h.laid.defaultHandler_iff b hlt).2 hsite⟩

/-- No block is on two agendas, and none is twice on one. -/
theorem Base.nodup_waiting (h : Base st home path s) : (Chain.waiting s.chain).Nodup := by
  unfold Chain.waiting
  rw [List.nodup_flatten, List.pairwise_map]
  constructor
  · intro l hl
    obtain ⟨c, hc, rfl⟩ := List.mem_map.1 hl
    obtain ⟨call, hagenda⟩ := h.queue.agendas.mem c hc
    exact hagenda.nodup
  · have hdisjoint : ∀ {call call' : Option BlockId} {c d : Context}, call ≠ call' →
        AgendaFits home s.graph call c.agenda → AgendaFits home s.graph call' d.agenda →
        List.Disjoint (c.agenda.entries.map Prod.fst) (d.agenda.entries.map Prod.fst) := by
      intro call call' c d hne hc hd b hb hb'
      exact hne ((hc.fits b hb).1.symm.trans (hd.fits b hb').1)
    refine h.queue.agendas.pairwise h.linked (fun k c d hc hd => hdisjoint (by simp) hc hd)
      fun j k c d _ hk hu hc hd => hdisjoint ?_ hc hd
    have hlt := hu.lt h.laid.lt_of_home hk
    intro he
    cases he
    exact Nat.lt_irrefl _ hlt

/-! ## The chain as a whole -/

/-- The outermost context is outside of subroutines, and the others are in subroutines of its scope. -/
theorem Core.exists_root (h : Core st home path s) : ∃ inner root, s.chain = inner ++ [root] ∧
    root.subroutine = none ∧ ∀ c ∈ inner, c.isSubroutine = true ∧ c.scope = root.scope := by
  obtain ⟨inner, root, hchain, hroot, hinner⟩ := h.base.contexts.exists_root
  refine ⟨inner, root, hchain, hroot.root rfl, fun c hc => ?_⟩
  obtain ⟨j, hfits⟩ := hinner c hc
  obtain ⟨sub, hsub, -⟩ := hfits.copies j rfl
  exact ⟨by rw [Context.isSubroutine, hsub]; rfl, hfits.scope.trans hroot.scope.symm⟩

theorem Core.nodup_entries (h : Core st home path s) : (Chain.entries s.chain).Nodup := by
  unfold Chain.entries
  rw [List.Nodup, List.pairwise_filterMap]
  refine (h.base.contexts.and h.calls).pairwise h.base.linked (fun k c d _ hd e _ e' he' => ?_)
    fun j k c d _ _ hu hc hd e he e' he' => ?_
  · rw [hd.1.root rfl] at he'
    cases he'
  · obtain ⟨sub, hsub, rfl⟩ := Option.map_eq_some_iff.1 he
    obtain ⟨sub', hsub', rfl⟩ := Option.map_eq_some_iff.1 he'
    exact h.entry_ne hu hc.2 hd.2 hsub hsub'

/-- Subroutines are entered where calls lead, and never at the beginning. -/
theorem Core.entered (h : Core st home path s) (he : e ∈ Chain.entries s.chain) :
    e ≠ 0 ∧ e ∈ Insn.callTargets st.survey.insns := by
  obtain ⟨c, hc, he⟩ := List.mem_filterMap.1 he
  obtain ⟨sub, hsub, rfl⟩ := Option.map_eq_some_iff.1 he
  obtain ⟨call, hfits, hcall⟩ := (h.base.contexts.and h.calls).mem c hc
  cases call with
  | none => rw [hfits.root rfl] at hsub; cases hsub
  | some j =>
    obtain ⟨sub', e, r, -, hsub', hx, -, hlies, -⟩ := hcall.called j rfl
    cases hsub.symm.trans hsub'
    obtain ⟨i, hi, hf, t, ht, hleads, -⟩ := (h.facts.settled j (by rw [hx]; rfl)).call hx
    have hentry : t = sub.entry := Site.code.inj (hleads.1.site.symm.trans hlies.site)
    refine ⟨fun hzero => (h.facts.unentered j e r hx).1 (hzero ▸ hlies.site), ?_⟩
    exact Insn.mem_callTargets.2 ⟨i, hi, hf, by simp [ht, hentry]⟩

theorem Inv.nodup_returnLocals (h : Inv st home path s) : (Chain.returnLocals s.chain).Nodup := by
  unfold Chain.returnLocals
  rw [List.Nodup, List.pairwise_filterMap]
  refine (h.calls.and h.addresses).pairwise h.base.linked (fun k c d _ hd n _ n' hn' => ?_)
    fun j k c d hk _ hu hc hd n hn n' hn' he => ?_
  · rw [hd.2.root rfl] at hn'
    cases hn'
  · subst he
    exact h.returnLocal_ne hk hu hc.1 hc.2 hd.1 hd.2 hn hn'

theorem Inv.coherent (h : Inv st home path s) : s.Coherent st.survey.insns where
  root := h.exists_root
  entries := h.nodup_entries
  entered e he := h.entered he
  locals := h.nodup_returnLocals
  waits c hc b hb := by
    obtain ⟨call, hfits, hagenda⟩ := (h.base.contexts.and h.base.queue.agendas).mem c hc
    exact h.base.awaits hfits hagenda hb
  once := h.base.nodup_waiting

/-! ## Runs -/

/-- What becomes of a chain: contexts may be put on it, and the innermost one is taken off it only when its
agenda is empty. -/
inductive Chain.Changes (chain : List Context) : List Context → Prop
  | keeps {kept : List Context} (new : List Context) : Chain.Becomes chain kept → Changes chain (new ++ kept)
  | pops {c : Context} {outer kept : List Context} : chain = c :: outer → c.agenda.entries = [] →
    Chain.Becomes outer kept → Changes chain kept

theorem Assembly.Moves.changes {done : Bool} (h : s.Moves done t) : Chain.Changes s.chain t.chain := by
  cases h with
  | proceeds _ hchain => exact .keeps [] hchain
  | closes _ hchain => exact .keeps [] hchain
  | @calls _ c outer _ hchain houter => exact hchain ▸ .keeps [c] houter
  | opens _ hchain => exact .keeps [] hchain
  | leaves _ hchain hagenda _ houter => exact .pops hchain hagenda houter
  | ends _ _ _ => exact .keeps [] (.refl _)

theorem Method.Reaches.moves (h : m.Reaches pool o s) {done : Bool}
    (hstep : Assembly.step m o s = .ok done t) : s.Moves done t := by
  obtain ⟨_, _, _, _, hinv⟩ := h.inv
  exact hinv.moves.of_ok hstep

/-- A run that ends does so in an assembly that it has reached, where a step has nothing left to do. -/
theorem Method.Reaches.of_run : ∀ {fuel : Nat} {s : Assembly}, m.Reaches pool o s →
    run m o fuel s = .ok () t → m.Reaches pool o t ∧ t.Moves true t
  | 0, _, _, hrun => nomatch hrun
  | fuel + 1, s, h, hrun => by
    unfold run at hrun
    obtain ⟨done, u, hstep, hrest⟩ := exists_of_bind_ok hrun
    have hreach := h.step hstep
    cases done with
    | false => exact of_run hreach hrest
    | true =>
      cases hrest
      have hmoves := h.moves hstep
      cases hmoves.eq_of_done
      exact ⟨hreach, hmoves⟩

/-- **The contexts of a chain.** In every assembly on the way the outermost context is outside of subroutines
and the others are in subroutines of its scope, which are entered at indices where calls lead, never at the
beginning, none of them twice, and keep their return addresses in different locals. Each agenda lists blocks
of its own context that wait, not the one where the subroutine comes back to, and no block is listed twice.
A step takes no context off the chain whose agenda is not empty, and neither does the end. -/
theorem coherent_of_reaches (m : Method) (pool : ConstantPool) (o : Options) :
    (∀ s, m.Reaches pool o s → (∃ insns, Insn.sweep m.code = .ok insns ∧ s.Coherent insns) ∧
      ∀ done t, Assembly.step m o s = .ok done t → Chain.Changes s.chain t.chain) ∧
    ∀ t, assemble m pool o {} = .ok () t → ∃ s c, m.Reaches pool o s ∧ s.chain = [c] ∧
      c.agenda.entries = [] ∧ conclude m s = .ok () t := by
  refine ⟨fun s hreach => ⟨?_, fun done t hstep => (hreach.moves hstep).changes⟩, fun t hassemble => ?_⟩
  · obtain ⟨st, home, path, rfl, hinv⟩ := hreach.inv
    exact ⟨_, Survey.sweep_eq st.surveyed, hinv.coherent⟩
  · unfold assemble at hassemble
    obtain ⟨_, s, hprepare, hassemble⟩ := exists_of_bind_ok hassemble
    obtain ⟨_, u, hrun, hconclude⟩ := exists_of_bind_ok hassemble
    obtain ⟨hreach, hmoves⟩ := Method.Reaches.of_run (.prepared hprepare) hrun
    cases hmoves with
    | @ends c _ hchain hagenda => exact ⟨u, c, hreach, hchain, hagenda, hconclude⟩

/-- Two subroutines are open, one inside the other, and then the inner one is left. -/
theorem innerStore_coherent :
    (∃ s insns, innerStore.Reaches {} {} s ∧ Chain.entries s.chain = [10, 4] ∧
      Chain.returnLocals s.chain = [2, 1] ∧ s.Coherent insns) ∧
    (∃ s done t, innerStore.Reaches {} {} s ∧ Assembly.step innerStore {} s = .ok done t ∧
      s.chain.length = 3 ∧ t.chain.length = 2 ∧ Chain.Changes s.chain t.chain) ∧
    ∃ s c t, innerStore.Reaches {} {} s ∧ s.chain = [c] ∧ c.agenda.entries = [] ∧
      conclude innerStore s = .ok () t := by
  refine ⟨?_, ?_, ?_⟩
  · have hany : (innerStore.after {} {} 9).any (fun s => decide
        (Chain.entries s.chain = [10, 4] ∧ Chain.returnLocals s.chain = [2, 1])) = true := by
      decide +kernel
    obtain ⟨s, hs, hchain⟩ := (Option.any_eq_true _ _).1 hany
    have hreach := Method.reaches_of_after hs
    obtain ⟨hentries, hlocals⟩ := of_decide_eq_true hchain
    obtain ⟨⟨insns, -, hcoherent⟩, -⟩ := (coherent_of_reaches innerStore {} {}).1 s hreach
    exact ⟨s, insns, hreach, hentries, hlocals, hcoherent⟩
  · have hlast : (innerStore.after {} {} 11).any (fun t => decide (t.chain.length = 2)) = true := by
      decide +kernel
    have hbefore : (innerStore.after {} {} 10).all (fun s => decide (s.chain.length = 3)) = true := by
      decide +kernel
    obtain ⟨t, ht, htwo⟩ := (Option.any_eq_true _ _).1 hlast
    obtain ⟨s, done, hs, hstep⟩ := Method.step_of_after ht
    rw [hs] at hbefore
    have hreach := Method.reaches_of_after hs
    exact ⟨s, done, t, hreach, hstep, of_decide_eq_true hbefore, of_decide_eq_true htwo,
      ((coherent_of_reaches innerStore {} {}).1 s hreach).2 done t hstep⟩
  · obtain ⟨t, ht⟩ : ∃ t, assemble innerStore {} {} {} = .ok () t := by
      have hok : (build innerStore {} {}).toOption.isSome = true := by decide +kernel
      cases hassemble : assemble innerStore {} {} {} with
      | ok a t => exact ⟨t, rfl⟩
      | error fault t => rw [build, EStateM.run, hassemble] at hok; cases hok
    obtain ⟨s, c, h⟩ := (coherent_of_reaches innerStore {} {}).2 t ht
    exact ⟨s, c, t, h⟩

end BlockGraph
