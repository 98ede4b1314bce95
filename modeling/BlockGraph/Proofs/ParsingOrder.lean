import BlockGraph.Proofs.DepthFirst
import BlockGraph.Proofs.Loops
import BlockGraph.Proofs.Synchronized

/-!
# The order of parsing

The layout numbers the starts in the order of a depth-first search over the code, and parsing finds out for
itself where control goes on and takes the block with the lowest number that waits. In a method without
subroutines both agree on what control reaches from the beginning: the next start of the search waits
whenever no block is open, since the one that leads to it has been parsed (`Inv.exists_waiting`), and then no
lower number does, so that this block is the one that is opened (`Inv.get_of_opens`). Main statement:
`parsed_depth_first`.
-/

namespace BlockGraph

open Assembly

variable {m : Method} {pool : ConstantPool} {o : Options} {st : Setting} {home : Homes}
  {path : List BlockId} {g g' : Graph} {s : Assembly} {a b d e j n r : BlockId} {i : Insn} {x : Exit}
  {call : Option BlockId} {k t u : Nat} {reached : List Nat}

/-! ## Where control goes on -/

theorem Leads.iff_eq (h : Leads home g call u d) : Leads home g call t d ↔ t = u := by
  constructor
  · intro h'
    exact Site.code.inj (h'.1.site.symm.trans h.1.site)
  · rintro rfl
    exact h

/-- The successors of a block that ends without a call start where its last instruction leads. -/
theorem ExitFits.leads_iff (h : ExitFits home g b i x) (hi : i ∈ st.survey.insns) (hjsr : i.flow ≠ .jsr)
    (hhome : home b = none) : (t ∈ i.targets ∨ i.fallsThrough = true ∧ i.next = t) ↔
      ∃ d ∈ x.successors, Leads home g (home b) t d := by
  have hnil := Insn.targets_eq_nil_of_read (st.read_of_mem hi)
  unfold Insn.fallsThrough
  cases h with
  | jump hf ht hd => simp [hf, ht, Opcode.Flow.fallsThrough, Exit.successors, hd.iff_eq]
  | falls hf hd => simp [hf, hnil (.inl hf), Opcode.Flow.fallsThrough, Exit.successors, hd.iff_eq, eq_comm]
  | branch hf ht hd hd' =>
    simp [hf, ht, Opcode.Flow.fallsThrough, Exit.successors, hd.iff_eq, hd'.iff_eq, eq_comm]
  | @switch u us d ds hf ht hd hds =>
    obtain ⟨hforth, hback⟩ := exists_of_forall₂ hds
    have hcases : t ∈ us ↔ ∃ d ∈ ds, Leads home g (home b) t d := by
      constructor
      · exact hforth t
      · rintro ⟨d, hd, hleads⟩
        obtain ⟨u, hu, hleads'⟩ := hback d hd
        exact hleads'.iff_eq.1 hleads ▸ hu
    simp [hf, ht, Opcode.Flow.fallsThrough, Exit.successors, List.mem_eraseDups, hd.iff_eq, hcases]
  | call hf => exact absurd hf hjsr
  | ret _ hj => rw [hhome] at hj; cases hj
  | leave hf => simp [hf, hnil (.inr (.inr (.inl hf))), Opcode.Flow.fallsThrough, Exit.successors]
  | throw hf => simp [hf, hnil (.inr (.inr (.inr hf))), Opcode.Flow.fallsThrough, Exit.successors]

/-! ## Methods without subroutines -/

section
variable (hcalls : ∀ i ∈ st.survey.insns, i.flow ≠ .jsr)
include hcalls

/-- The successors of a block start where the layout has those of its start. -/
theorem Settled.leads_iff (h : Settled st home g b) (hlaid : Laid st home g)
    (hb : g.LiesAt home none u b) :
    t ∈ Start.successors st.survey.layout st.survey.insns st.method.code.size u ↔
      ∃ d ∈ (g.block b).successors, Leads home g none t d := by
  cases h with
  | unlock _ hsite => rw [hb.site] at hsite; cases hsite
  | @code u' before i x hlies hstretch _ _ hx hfits _ =>
    obtain rfl : u' = u := Site.code.inj (hlies.site.symm.trans hb.site)
    have hexits := hfits.leads_iff (t := t) hstretch.mem (hcalls i hstretch.mem) hb.home_eq
    rw [hb.home_eq] at hexits
    have hend := hfits.next_mem_starts hlaid hstretch.mem
    rw [Block.successors, hx, Option.elim_some, ← hexits, Start.successors, hstretch.after_eq st.surveyed hend,
      hstretch.between_eq st.surveyed, Survey.map_bci_layout]
    simp only [List.mem_filter, List.any_eq_true, Bool.or_eq_true, List.contains_iff_mem, Bool.and_eq_true,
      beq_iff_eq]
    constructor
    · rintro ⟨ht, k, hk, hleads⟩
      rcases List.mem_append.1 hk with hk | hk
      · -- inside of a block control only goes on to the next instruction, which starts no block
        obtain ⟨hflow, hinside⟩ := hstretch.inside k hk
        have hmem := Survey.mem_insns_of_follows hstretch.follows k hk
        rw [Insn.targets_eq_nil_of_read (st.read_of_mem hmem) (.inl hflow)] at hleads
        obtain ⟨-, rfl⟩ := hleads.resolve_left List.not_mem_nil
        exact absurd ht hinside
      · cases List.mem_singleton.1 hk
        exact hleads
    · refine fun hleads => ⟨?_, i, by simp, hleads⟩
      rcases hleads with ht | ⟨hfalls, rfl⟩
      · exact Survey.target_mem_starts st.surveyed hstretch.mem ht
      · have hlt := Survey.next_lt st.surveyed hstretch.mem hfalls
        exact hend.resolve_right (Nat.ne_of_lt hlt)

theorem Facts.exit_ne_jsr (h : Facts st home path g) : (g.block j).exit ≠ some (.jsr e r) := by
  intro hx
  obtain ⟨i, hi, hflow, -⟩ := (h.settled j (by rw [hx]; rfl)).call hx
  exact hcalls i hi hflow

theorem Core.path_eq_nil (h : Core st home path s) : path = [] := by
  refine List.eq_nil_iff_forall_not_mem.2 fun j hj => ?_
  obtain ⟨c, -, hc⟩ := h.calls.exists_of_mem hj
  obtain ⟨_, _, _, _, -, hx, -⟩ := hc.called j rfl
  exact h.facts.exit_ne_jsr hcalls hx

end

/-! ## Parsing along with the search -/

/-- No subroutine is called, and before it turns to the handlers the search meets the starts of `reached`. -/
structure Setting.MeetsFirst (st : Setting) (reached : List Nat) : Prop where
  calls : ∀ i ∈ st.survey.insns, i.flow ≠ .jsr
  preorder : Preorder (Start.successors st.survey.layout st.survey.insns st.method.code.size) [0] [] reached
  number : ∀ x ∈ st.survey.layout, ∀ k, k < reached.length → (x.number = k ↔ reached[k]? = some x.bci)

/-- As long as there are any, the starts of `reached` are parsed in this order. -/
def Setting.InStep (st : Setting) (reached : List Nat) (g : Graph) : Prop :=
  ∀ (k : Nat) b t, g.order[k]? = some b → reached[k]? = some t → st.table.get t = some b

namespace Setting.MeetsFirst

variable (h : st.MeetsFirst reached)
include h

theorem nodup : reached.Nodup := h.preorder.nodup List.nodup_nil

/-- A start is reached once. -/
theorem not_mem_take (ht : reached[k]? = some t) : t ∉ reached.take k := by
  intro hmem
  obtain ⟨j, hj, hjt⟩ := List.mem_take_iff_getElem.1 hmem
  have hat : reached[j]? = some t := List.getElem?_eq_some_iff.2 ⟨by omega, hjt⟩
  have hsame := (List.getElem?_inj (by omega) h.nodup).1 (hat.trans ht.symm)
  omega

theorem number_iff (hlaid : Laid st home g) (hget : st.table.get t = some b) (hk : k < reached.length) :
    (g.block b).number = k ↔ reached[k]? = some t := by
  have hmem := st.mem_starts_of_get hget
  rw [← Survey.map_bci_layout] at hmem
  obtain ⟨x, hx, rfl⟩ := List.mem_map.1 hmem
  have hnumber : (g.block b).number = x.number := (congrArg Block.number (hlaid.layout x hx b hget) :)
  rw [hnumber]
  exact h.number x hx k hk

end Setting.MeetsFirst

/-- Parsing has come to a start of the search if it has come so far. -/
theorem Setting.InStep.exists_get (h : st.InStep reached g) (hk : k < g.order.size)
    (hu : reached[k]? = some u) : ∃ b, g.order[k]? = some b ∧ st.table.get u = some b := by
  have hb := Array.getElem?_eq_getElem hk
  exact ⟨_, hb, h k _ u hb hu⟩

/-- Control leads to the next start of the search from a block that has been parsed and closed. -/
theorem Inv.exists_leads (h : Inv st home path s) (hmeets : st.MeetsFirst reached)
    (hstep : st.InStep reached s.graph) (hcurrent : s.current = none)
    (ht : reached[s.graph.order.size]? = some t) : ∃ d, Leads home s.graph none t d := by
  have hnew := hmeets.not_mem_take ht
  obtain ⟨hsize, hat⟩ := List.getElem?_eq_some_iff.1 ht
  have hbefore : reached.take s.graph.order.size ++ [t] <+: reached := by
    rw [← hat, List.take_append_getElem hsize]
    exact List.take_prefix _ _
  rcases hmeets.preorder.exists_earlier hbefore (by simp) hnew with hzero | ⟨u, hu, hnext⟩
  · cases List.mem_singleton.1 hzero
    obtain ⟨d, -, hleads⟩ := h.facts.start
    exact ⟨d, hleads⟩
  · obtain ⟨k, hk, huk⟩ := List.mem_take_iff_getElem.1 hu
    obtain ⟨b, hb, hget⟩ := hstep.exists_get (by omega) (List.getElem?_eq_some_iff.2 ⟨by omega, huk⟩)
    have hv := (h.base.queue.mem_order b).1 (Array.mem_toList_iff.2 (Array.mem_of_getElem? hb))
    have hclosed := (h.base.queue.closed b hv).resolve_right (by rw [hcurrent]; nofun)
    obtain ⟨d, -, hleads⟩ := ((h.facts.settled b hclosed).leads_iff hmeets.calls h.base.laid
      (h.base.laid.get_iff.1 hget)).1 hnext
    exact ⟨d, hleads⟩

/-- The next start of the search waits. -/
theorem Inv.exists_waiting (h : Inv st home path s) (hmeets : st.MeetsFirst reached)
    (hstep : st.InStep reached s.graph) (hcurrent : s.current = none)
    (ht : reached[s.graph.order.size]? = some t) :
    ∃ d, st.table.get t = some d ∧ d ∈ Chain.waiting s.chain := by
  obtain ⟨d, hlies, hqueued⟩ := h.exists_leads hmeets hstep hcurrent ht
  refine ⟨d, h.base.laid.get_iff.2 hlies, (h.base.queue.waiting d hqueued).resolve_left fun hv => ?_⟩
  -- it cannot have been parsed, since only starts before it in the search have been
  obtain ⟨hsize, -⟩ := List.getElem?_eq_some_iff.1 ht
  obtain ⟨k, hk, hkd⟩ := Array.mem_iff_getElem.1 (Array.mem_toList_iff.1 ((h.base.queue.mem_order d).2 hv))
  have hu := List.getElem?_eq_getElem (Nat.lt_trans hk hsize)
  have hget := hstep k d _ (by rw [Array.getElem?_eq_getElem hk, hkd]) hu
  have hsite := (h.base.laid.get_iff.1 hget).site.symm.trans hlies.site
  refine hmeets.not_mem_take ht (List.mem_take_iff_getElem.2 ⟨k, by omega, ?_⟩)
  exact Site.code.inj hsite

/-- The block at the front of an agenda has the lowest number. -/
theorem AgendaFits.number_le {agenda : Agenda} {rest : List (BlockId × Nat)}
    (h : AgendaFits home g call agenda) (hentries : agenda.entries = (b, n) :: rest)
    (hd : d ∈ agenda.entries.map Prod.fst) : (g.block b).number ≤ (g.block d).number := by
  obtain ⟨e, he, rfl⟩ := List.mem_map.1 hd
  have hfirst := h.ranked (b, n) (by rw [hentries]; simp)
  have hrank := h.ranked e he
  have hsorted := h.sorted
  rw [hentries, List.pairwise_cons] at hsorted
  rw [← hfirst, ← hrank]
  rw [hentries] at he
  rcases List.mem_cons.1 he with rfl | he
  · exact Nat.le_refl _
  · exact hsorted.1 e he

/-- Without the handler that unlocks, each block of the method is in the table. -/
theorem Laid.exists_get (h : Laid st home g) (hunlocks : st.unlocks = []) (hb : b < g.blocks.size)
    (hhome : home b = none) : ∃ u, st.table.get u = some b := by
  cases hsite : (g.block b).site with
  | unlock =>
    obtain ⟨-, x, hx, htarget, -⟩ := h.unlock b hb hsite
    have hmem := st.mem_unlocks hx htarget
    rw [hunlocks] at hmem
    cases hmem
  | code u => exact ⟨u, h.get_iff.2 ⟨hb, hhome, hsite⟩⟩

/-- The block that is opened has the lowest number of all that wait, so it is the next one of the search. -/
theorem Inv.get_of_opens (h : Inv st home path s) (hmeets : st.MeetsFirst reached)
    (hunlocks : st.unlocks = []) (hstep : st.InStep reached s.graph) (hopens : s.Opens b)
    (ht : reached[s.graph.order.size]? = some t) : st.table.get t = some b := by
  obtain ⟨d, hd, hwaits⟩ := h.exists_waiting hmeets hstep hopens.1 ht
  obtain ⟨hsize, -⟩ := List.getElem?_eq_some_iff.1 ht
  obtain rfl := h.path_eq_nil hmeets.calls
  have hagendas := h.base.queue.agendas
  obtain ⟨c, outer, hchain⟩ := h.base.contexts.exists_cons
  obtain ⟨-, n, rest, hentries⟩ := (h.base.opens_iff hchain).1 hopens
  rw [hchain] at hagendas hwaits
  cases hagendas with
  | root hagenda =>
  have hle := hagenda.number_le hentries (by simpa [Chain.waiting] using hwaits)
  rw [(hmeets.number_iff h.base.laid hd hsize).2 ht] at hle
  obtain ⟨hhome, hlt, hnew⟩ := h.base.new_of_opens hopens
  obtain ⟨u, hget⟩ := h.base.laid.exists_get hunlocks hlt hhome
  have hu := (hmeets.number_iff h.base.laid hget (Nat.lt_of_le_of_lt hle hsize)).1 rfl
  rcases Nat.lt_or_eq_of_le hle with hless | heq
  · -- all lower numbers have been parsed
    obtain ⟨b', hb', hget'⟩ := hstep.exists_get hless hu
    obtain rfl : b' = b := Option.some.inj (hget'.symm.trans hget)
    have hv := (h.base.queue.mem_order b').1 (Array.mem_toList_iff.2 (Array.mem_of_getElem? hb'))
    rw [hnew] at hv
    cases hv
  · rw [heq, ht] at hu
    cases hu
    exact hget

theorem Inv.inStep_of_moves (h : Inv st home path s) (hmeets : st.MeetsFirst reached)
    (hunlocks : st.unlocks = []) (hstep : st.InStep reached s.graph) {done : Bool} {t : Assembly}
    (hmoves : s.Moves done t) : st.InStep reached t.graph := by
  cases hmoves with
  | proceeds _ _ horder | closes _ _ horder | calls _ _ _ horder | leaves _ _ _ _ _ horder =>
    unfold Setting.InStep
    rwa [horder]
  | ends => exact hstep
  | @opens t b hopens _ horder =>
    intro k d u hd hu
    rw [horder, Array.getElem?_push] at hd
    split at hd
    · rename_i hk
      cases hd
      exact h.get_of_opens hmeets hunlocks hstep hopens (hk ▸ hu)
    · exact hstep k d u hd hu

/-- A run keeps in step with the search, up to its end. -/
theorem Inv.run_inStep (hmeets : st.MeetsFirst reached) (hunlocks : st.unlocks = []) :
    ∀ {fuel : Nat} {home : Homes} {path : List BlockId} {s : Assembly}, Inv st home path s →
      st.InStep reached s.graph → Answers (Assembly.run m o fuel) s fun _ t =>
        st.Done t ∧ st.InStep reached t.graph
  | 0, _, _, _, _, _ => trivial
  | fuel + 1, _, _, s, h, hstep => by
    unfold Assembly.run
    refine Yields.bind ((h.step.and h.moves).mono (fun _ _ ht => ht) fun _ _ _ => trivial) ?_
    rintro done t ⟨ht, hmoves⟩
    have hnext := h.inStep_of_moves hmeets hunlocks hstep hmoves
    cases done with
    | true => exact ⟨ht, hnext⟩
    | false =>
      obtain ⟨home', path', ht⟩ := ht
      exact ht.run_inStep hmeets hunlocks hnext

/-! ## Graphs that are parsed depth-first -/

/-- Control goes from block `a` to block `b` without an exception. -/
abbrev Graph.Flows (g : Graph) : BlockId → BlockId → Prop :=
  Relation.ReflTransGen fun a b => b ∈ (g.block a).successors

/-- The blocks of a graph are those of a layout and the `unlocks`. Control reaches the starts of `reached` from
the beginning without an exception, by the successors that the layout has; their blocks are parsed first, by
increasing number, and are those that control reaches in the graph. The block that unlocks is parsed last. -/
structure Graph.ParsedDepthFirst (g : Graph) (starts : List Start) (next : Nat → List Nat)
    (reached : List Nat) (unlocks : List Block) : Prop where
  blocks : ((List.range g.blocks.size).map fun b => (g.block b).blankCopy).Perm
    (starts.map Start.block ++ unlocks)
  nodup : reached.Nodup
  mem_iff : ∀ t, t ∈ reached ↔ Preorder.Leads next 0 t
  sites : (g.order.toList.take reached.length).map (fun b => (g.block b).site) = reached.map .code
  numbers : (g.order.toList.take reached.length).map (fun b => (g.block b).number) = List.range reached.length
  flows : ∀ b, b ∈ g.order.toList.take reached.length ↔ ∃ a, g.start = some a ∧ g.Flows a b
  later : ∀ b ∈ g.order.toList.drop reached.length, ∀ t ∈ reached, (g.block b).site ≠ .code t
  last : ∀ b, b < g.blocks.size → (g.block b).flags.defaultHandler = true → g.order.back? = some b

theorem Setting.exists_meetsFirst (hcalls : ∀ i ∈ st.survey.insns, i.flow ≠ .jsr) :
    ∃ reached, st.MeetsFirst reached := by
  obtain ⟨reached, hpre, hnumber⟩ := Survey.exists_reached st.surveyed
  exact ⟨reached, hcalls, hpre, hnumber⟩

theorem Setting.MeetsFirst.mem_iff (h : st.MeetsFirst reached) : t ∈ reached ↔
    Preorder.Leads (Start.successors st.survey.layout st.survey.insns st.method.code.size) 0 t := by
  simpa using h.preorder.mem_iff (a := t)

/-- When no block waits any more the search has come to an end as well. -/
theorem Setting.Done.length_le {s : Assembly} (h : st.Done s) (hmeets : st.MeetsFirst reached)
    (hstep : st.InStep reached s.graph) : reached.length ≤ s.graph.order.size := by
  obtain ⟨home, hinv, hcurrent, hwaiting⟩ := h
  refine Nat.le_of_not_lt fun hlt => ?_
  obtain ⟨d, -, hwaits⟩ := hinv.exists_waiting hmeets hstep hcurrent (List.getElem?_eq_getElem hlt)
  rw [hwaiting] at hwaits
  cases hwaits

/-- Without the handler of a synchronized method the whole order of parsing keeps in step with the search. -/
theorem assemble_inStep (hsync : m.access.isSynchronized = false)
    (hcalls : ∀ insns, Insn.sweep m.code = .ok insns → ∀ i ∈ insns, i.flow ≠ .jsr) :
    Answers (assemble m pool o) {} fun _ t => ∃ st home reached, st.method = m ∧ Finished st home t.graph ∧
      st.unlocks = [] ∧ st.MeetsFirst reached ∧ st.InStep reached t.graph ∧
        reached.length ≤ t.graph.order.size := by
  unfold assemble
  refine Yields.bind (prepare_spec.mono (fun _ _ h => h) fun _ _ _ => trivial) ?_
  rintro - s ⟨st, home, rfl, hinv, -, hunlocks, horder⟩
  rw [hsync] at hunlocks
  have hnone := List.length_eq_zero_iff.1 hunlocks
  obtain ⟨reached, hmeets⟩ := st.exists_meetsFirst (hcalls _ (Survey.sweep_eq st.surveyed))
  have hstep : st.InStep reached s.graph := by
    intro k b t hb
    rw [horder] at hb
    cases hb
  refine Yields.bind (hinv.run_inStep hmeets hnone hstep) ?_
  rintro - t ⟨hdone, hnext⟩
  have hlength := hdone.length_le hmeets hnext
  obtain ⟨home', hfinished⟩ := hdone.finished
  refine hdone.conclude_spec.mono (fun _ u hu => ?_) fun _ _ h => h
  rw [hu]
  exact ⟨st, home', reached, rfl, hfinished, hnone, hmeets, hnext, hlength⟩

namespace Finished

section
variable (h : Finished st home g) (hcalls : ∀ i ∈ st.survey.insns, i.flow ≠ .jsr)
include h hcalls

theorem home_eq_none (hb : b < g.blocks.size) : home b = none := by
  refine Option.eq_none_iff_forall_not_mem.2 fun j hj => ?_
  obtain ⟨_, _, hx⟩ := h.called b j hb hj
  exact h.facts.exit_ne_jsr hcalls hx

theorem defaultHandler_eq_false (hunlocks : st.unlocks = []) (hb : b < g.blocks.size) :
    (g.block b).flags.defaultHandler = false := by
  obtain ⟨u, hget⟩ := h.laid.exists_get hunlocks hb (h.home_eq_none hcalls hb)
  refine Bool.eq_false_iff.2 fun hflag => ?_
  have hsite := (h.laid.defaultHandler_iff b hb).1 hflag
  rw [(h.laid.get_iff.1 hget).site] at hsite
  cases hsite

/-- The table lists all blocks. -/
theorem range_perm (hunlocks : st.unlocks = []) :
    (List.range g.blocks.size).Perm (st.survey.layout.filterMap fun x => st.table.get x.bci) := by
  have hbcis : (st.survey.layout.map Start.bci).Nodup := Survey.map_bci_layout ▸ Survey.nodup_starts
  refine (List.perm_ext_iff_of_nodup List.nodup_range ?_).2 fun b => ?_
  · rw [List.Nodup, List.pairwise_filterMap]
    refine (List.pairwise_map.1 hbcis).imp fun hne b hb c hc hbc => hne ?_
    rw [h.laid.get_iff] at hb hc
    exact Site.code.inj (hb.site.symm.trans (hbc ▸ hc.site))
  · rw [List.mem_range, List.mem_filterMap]
    constructor
    · intro hb
      obtain ⟨u, hu⟩ := h.laid.exists_get hunlocks hb (h.home_eq_none hcalls hb)
      have hmem := st.mem_starts_of_get hu
      rw [← Survey.map_bci_layout] at hmem
      obtain ⟨x, hx, rfl⟩ := List.mem_map.1 hmem
      exact ⟨x, hx, hu⟩
    · rintro ⟨x, -, hb⟩
      exact (h.laid.get_iff.1 hb).lt

/-- The blocks are those of the layout. -/
theorem blocks_perm (hunlocks : st.unlocks = []) :
    ((List.range g.blocks.size).map fun b => (g.block b).blankCopy).Perm
      (st.survey.layout.map Start.block) := by
  have hsame : ∀ x ∈ st.survey.layout,
      (st.table.get x.bci).map (fun b => (g.block b).blankCopy) = some x.block := by
    intro x hx
    obtain ⟨b, hb⟩ := st.exists_get (Survey.map_bci_layout ▸ List.mem_map_of_mem hx)
    rw [hb, Option.map_some, h.laid.layout x hx b hb]
  have hperm := (h.range_perm hcalls hunlocks).map fun b => (g.block b).blankCopy
  rw [List.map_filterMap, List.filterMap_congr hsame, List.filterMap_eq_map'] at hperm
  exact hperm

/-- A block that control goes on to starts at a successor in the layout. -/
theorem exists_leads (ha : g.LiesAt home none u a) (hv : (g.block a).visited = true)
    (hb : b ∈ (g.block a).successors) :
    ∃ t, t ∈ Start.successors st.survey.layout st.survey.insns st.method.code.size u ∧
      Leads home g none t b := by
  have hsettled := h.settled hv
  obtain ⟨t, hleads⟩ : ∃ t, Leads home g none t b := by
    cases hsettled with
    | unlock _ hsite => rw [ha.site] at hsite; cases hsite
    | code _ _ _ _ hx hfits _ =>
      rw [Block.successors, hx, Option.elim_some, Exit.mem_successors] at hb
      rcases hb with hb | ⟨r, rfl⟩ | rfl
      · obtain ⟨t, -, hleads⟩ := hfits.exists_leads hb
        exact ⟨t, ha.home_eq ▸ hleads⟩
      · exact absurd hx (h.facts.exit_ne_jsr hcalls)
      · obtain ⟨_, _, hhome, -⟩ := (h.settled hv).ret hx
        rw [ha.home_eq] at hhome
        cases hhome
  exact ⟨t, (hsettled.leads_iff hcalls h.laid ha).2 ⟨b, hb, hleads⟩, hleads⟩

end

section
variable (h : Finished st home g) (hmeets : st.MeetsFirst reached)
include h hmeets

/-- Control reaches the blocks at the starts of `reached` without an exception. -/
theorem exists_flows (ht : t ∈ reached) (hget : st.table.get t = some b) :
    (g.block b).visited = true ∧ ∃ a, g.start = some a ∧ g.Flows a b := by
  obtain ⟨a, hstart, ha⟩ := h.facts.start
  have hreach : ∃ b, Leads home g none t b ∧ g.Flows a b := by
    have hleads := hmeets.mem_iff.1 ht
    clear ht hget
    induction hleads with
    | refl => exact ⟨a, ha, .refl⟩
    | tail _ hnext ih =>
      obtain ⟨b, hb, hflows⟩ := ih
      have hsettled := h.settled ((h.queued_iff b).1 hb.2)
      obtain ⟨c, hc, hleads⟩ := (hsettled.leads_iff hmeets.calls h.laid hb.1).1 hnext
      exact ⟨c, hleads, hflows.tail hc⟩
  obtain ⟨c, hc, hflows⟩ := hreach
  obtain rfl := h.laid.unique hc.1 (h.laid.get_iff.1 hget)
  exact ⟨(h.queued_iff c).1 hc.2, a, hstart, hflows⟩

theorem flows_iff : (∃ a, g.start = some a ∧ g.Flows a b) ↔ ∃ t ∈ reached, st.table.get t = some b := by
  constructor
  · rintro ⟨a, hstart, hflows⟩
    induction hflows with
    | refl =>
      obtain ⟨a', hstart', hleads⟩ := h.facts.start
      cases hstart.symm.trans hstart'
      exact ⟨0, hmeets.mem_iff.2 .refl, h.laid.get_iff.2 hleads.1⟩
    | @tail b c _ hbc ih =>
      obtain ⟨u, hu, hget⟩ := ih
      obtain ⟨hv, -⟩ := h.exists_flows hmeets hu hget
      obtain ⟨t, ht, hleads⟩ := h.exists_leads hmeets.calls (h.laid.get_iff.1 hget) hv hbc
      exact ⟨t, hmeets.mem_iff.2 ((hmeets.mem_iff.1 hu).tail ht), h.laid.get_iff.2 hleads.1⟩
  · rintro ⟨t, ht, hget⟩
    exact (h.exists_flows hmeets ht hget).2

end

end Finished

namespace Setting.InStep

variable (h : st.InStep reached g)
include h

/-- What is parsed first is at the starts of `reached`, in the same order. -/
theorem exists_of_take (hb : (g.order.toList.take reached.length)[k]? = some b) :
    ∃ t, reached[k]? = some t ∧ st.table.get t = some b := by
  rw [List.getElem?_take, Array.getElem?_toList] at hb
  split at hb
  · rename_i hk
    have ht := List.getElem?_eq_getElem hk
    exact ⟨_, ht, h k b _ hb ht⟩
  · cases hb

section
variable (hlength : reached.length ≤ g.order.size)
include hlength

theorem mem_take : b ∈ g.order.toList.take reached.length ↔ ∃ t ∈ reached, st.table.get t = some b := by
  constructor
  · intro hb
    obtain ⟨k, hk⟩ := List.mem_iff_getElem?.1 hb
    obtain ⟨t, ht, hget⟩ := h.exists_of_take hk
    exact ⟨t, List.mem_of_getElem? ht, hget⟩
  · rintro ⟨t, ht, hget⟩
    obtain ⟨k, hk⟩ := List.mem_iff_getElem?.1 ht
    obtain ⟨hlt, -⟩ := List.getElem?_eq_some_iff.1 hk
    obtain ⟨b', hb', hget'⟩ := h.exists_get (Nat.lt_of_lt_of_le hlt hlength) hk
    cases hget.symm.trans hget'
    refine List.mem_of_getElem? (i := k) ?_
    rw [List.getElem?_take, if_pos hlt, Array.getElem?_toList]
    exact hb'

theorem map_take {α : Type} {p : Block → α} {l : List α} (hl : l.length = reached.length)
    (hp : ∀ (k : Nat) t b, reached[k]? = some t → st.table.get t = some b → l[k]? = some (p (g.block b))) :
    (g.order.toList.take reached.length).map (fun b => p (g.block b)) = l := by
  apply List.ext_getElem?
  intro k
  rw [List.getElem?_map]
  cases hb : (g.order.toList.take reached.length)[k]? with
  | some b =>
    obtain ⟨t, ht, hget⟩ := h.exists_of_take hb
    exact (hp k t b ht hget).symm
  | none =>
    have hk : reached.length ≤ k := by
      rw [List.getElem?_eq_none_iff, List.length_take] at hb
      simpa [hlength] using hb
    exact (List.getElem?_eq_none (hl ▸ hk)).symm

end

end Setting.InStep

/-- Without the handler of a synchronized method a graph is parsed depth-first. -/
theorem Finished.parsedDepthFirst (h : Finished st home g) (hmeets : st.MeetsFirst reached)
    (hunlocks : st.unlocks = []) (hstep : st.InStep reached g) (hlength : reached.length ≤ g.order.size) :
    g.ParsedDepthFirst st.survey.layout
      (Start.successors st.survey.layout st.survey.insns st.method.code.size) reached [] where
  blocks := (List.append_nil _).symm ▸ h.blocks_perm hmeets.calls hunlocks
  nodup := hmeets.nodup
  mem_iff t := hmeets.mem_iff
  sites := by
    refine hstep.map_take hlength (List.length_map _) fun k t b ht hb => ?_
    rw [List.getElem?_map, ht, Option.map_some, (h.laid.get_iff.1 hb).site]
  numbers := by
    refine hstep.map_take hlength List.length_range fun k t b ht hb => ?_
    obtain ⟨hk, -⟩ := List.getElem?_eq_some_iff.1 ht
    rw [(hmeets.number_iff h.laid hb hk).2 ht, List.getElem?_range hk]
  flows b := (hstep.mem_take hlength).trans (h.flows_iff hmeets).symm
  later b hb t ht hsite := by
    have hlt := Graph.lt_of_visited ((h.mem_order b).1 (List.mem_of_mem_drop hb))
    have hget := h.laid.get_iff.2 ⟨hlt, h.home_eq_none hmeets.calls hlt, hsite⟩
    exact List.disjoint_take_drop h.nodup (Nat.le_refl _) ((hstep.mem_take hlength).2 ⟨t, ht, hget⟩) hb
  last b hb hflag := by
    rw [h.defaultHandler_eq_false hmeets.calls hunlocks hb] at hflag
    cases hflag

/-! ## The block that unlocks -/

namespace Graph.AddsUnlock

variable (h : g.AddsUnlock n g')
include h

theorem blankCopy_eq (b : BlockId) : (g'.block (shift n b)).blankCopy = (g.block b).blankCopy := by
  have heq := congrArg Block.blankCopy (h.block b)
  exact heq

theorem successors_eq (b : BlockId) :
    (g'.block (shift n b)).successors = (g.block b).successors.map (shift n) := by
  have hexit : (g'.block (shift n b)).exit = (g.block b).exit.map (Exit.shift n) :=
    congrArg Block.exit (h.block b)
  unfold Block.successors
  rw [hexit]
  cases (g.block b).exit with
  | none => rfl
  | some x => exact Exit.successors_shift n x

theorem le_size : n ≤ g.blocks.size := by
  have hn : n < g'.blocks.size := Graph.lt_of_visited (by rw [h.unlock])
  rw [h.size_eq] at hn
  exact Nat.le_of_lt_succ hn

theorem toList_order : g'.order.toList = g.order.toList.map (shift n) ++ [n] := by
  rw [h.order, Array.toList_push, Array.toList_map]

theorem range_perm :
    (List.range g'.blocks.size).Perm ((List.range g.blocks.size).map (shift n) ++ [n]) := by
  rw [h.size_eq]
  have hnodup : ((List.range g.blocks.size).map (shift n) ++ [n]).Nodup := by
    refine List.Nodup.append (List.nodup_range.map (shift_injective n)) (List.nodup_singleton n) ?_
    intro b hb hbn
    obtain ⟨c, -, rfl⟩ := List.mem_map.1 hb
    exact shift_ne n c (List.mem_singleton.1 hbn)
  refine (List.perm_ext_iff_of_nodup List.nodup_range hnodup).2 fun b => ?_
  by_cases hb : b = n
  · simp [hb, Nat.lt_succ_of_le h.le_size]
  · obtain ⟨c, rfl⟩ := exists_shift hb
    simp [shift_ne, shift_lt_succ_iff h.le_size]

/-- Control goes on as before. -/
theorem flows_iff : (∃ a, g'.start = some a ∧ g'.Flows a d) ↔
    ∃ b, (∃ a, g.start = some a ∧ g.Flows a b) ∧ shift n b = d := by
  rw [h.start]
  constructor
  · rintro ⟨_, hstart, hflows⟩
    obtain ⟨a, ha, rfl⟩ := Option.map_eq_some_iff.1 hstart
    have hreach : ∃ b, g.Flows a b ∧ shift n b = d := by
      clear hstart
      induction hflows with
      | refl => exact ⟨a, .refl, rfl⟩
      | tail _ hnext ih =>
        obtain ⟨b, hflows, rfl⟩ := ih
        rw [h.successors_eq] at hnext
        obtain ⟨c, hc, rfl⟩ := List.mem_map.1 hnext
        exact ⟨c, hflows.tail hc, rfl⟩
    obtain ⟨b, hfrom, hb⟩ := hreach
    exact ⟨b, ⟨a, ha, hfrom⟩, hb⟩
  · rintro ⟨b, ⟨a, hstart, hflows⟩, rfl⟩
    refine ⟨shift n a, by rw [hstart]; rfl, hflows.lift (shift n) fun b c hc => ?_⟩
    show shift n c ∈ (g'.block (shift n b)).successors
    rw [h.successors_eq]
    exact List.mem_map_of_mem hc

end Graph.AddsUnlock

/-- The block that unlocks comes behind all that is parsed depth-first. -/
theorem Graph.ParsedDepthFirst.addsUnlock {starts : List Start} {next : Nat → List Nat}
    (h : g.ParsedDepthFirst starts next reached []) (hadds : g.AddsUnlock n g')
    (hflags : ∀ b, b < g.blocks.size → (g.block b).flags.defaultHandler = false) :
    g'.ParsedDepthFirst starts next reached [.unlocking n false] := by
  have hlength : reached.length ≤ (g.order.toList.map (shift n)).length := by
    have hlength := congrArg List.length h.sites
    simp only [List.length_map, List.length_take] at hlength ⊢
    omega
  have hfirst : g'.order.toList.take reached.length = (g.order.toList.take reached.length).map (shift n) := by
    rw [hadds.toList_order, List.take_append_of_le_length hlength, List.map_take]
  have hkeeps : ∀ {α : Type} (p : Block → α), (∀ y : Block, p y.blankCopy = p y) →
      ∀ b, p (g'.block (shift n b)) = p (g.block b) := fun p hp b => by
    rw [← hp, hadds.blankCopy_eq, hp]
  have hsite := hkeeps Block.site fun _ => rfl
  have hnumber := hkeeps Block.number fun _ => rfl
  refine ⟨?_, h.nodup, h.mem_iff, ?_, ?_, fun b => ?_, fun b hb t ht => ?_, fun b hb hflag => ?_⟩
  · have hblank : (g'.block n).blankCopy = .unlocking n false := by rw [hadds.unlock]; rfl
    have hperm := hadds.range_perm.map fun b => (g'.block b).blankCopy
    rw [List.map_append, List.map_map, List.map_singleton, hblank] at hperm
    refine hperm.trans (List.Perm.append_right _ ?_)
    simpa [Function.comp_def, hadds.blankCopy_eq] using h.blocks
  · rw [hfirst, List.map_map]
    simpa [Function.comp_def, hsite] using h.sites
  · rw [hfirst, List.map_map]
    simpa [Function.comp_def, hnumber] using h.numbers
  · rw [hfirst, hadds.flows_iff, List.mem_map]
    simp only [h.flows]
  · rw [hadds.toList_order, List.drop_append_of_le_length hlength, ← List.map_drop] at hb
    rcases List.mem_append.1 hb with hb | hb
    · obtain ⟨c, hc, rfl⟩ := List.mem_map.1 hb
      rw [hsite]
      exact h.later c hc t ht
    · cases List.mem_singleton.1 hb
      rw [hadds.unlock]
      nofun
  · by_cases hbn : b = n
    · rw [hadds.order, hbn, Array.back?_push]
    · obtain ⟨c, rfl⟩ := exists_shift hbn
      rw [hadds.size_eq, shift_lt_succ_iff hadds.le_size] at hb
      rw [hkeeps (·.flags.defaultHandler) fun _ => rfl, hflags c hb] at hflag
      cases hflag

/-- The graph of a synchronized method is that of the method without the flag and the block that unlocks. -/
theorem exists_addsUnlock_of_build (h : build m pool o = .ok g') (hsync : m.access.isSynchronized = true) :
    ∃ g starts, build { m with access := {} } pool o = .ok g ∧ layout m.code m.handlers = .ok starts ∧
      g.AddsUnlock starts.length g' := by
  have hplain : ({ m with access := {} } : Method).access.isSynchronized = false :=
    Nat.zero_testBit 5
  cases hbuild : build { m with access := {} } pool o with
  | error fault =>
    have hfault := (build_gains _ pool o hplain hsync).1 fault hbuild
    cases hfault.symm.trans h
  | ok g =>
    -- under a greater limit the block that unlocks fits in for sure, and neither graph changes
    have hle := order_size_le_of_build hbuild
    have hmore := build_of_order_size_le (Nat.le_succ_of_le hle) hbuild
    have hmore' := build_of_order_size_le (Nat.le_succ_of_le (order_size_le_of_build h)) h
    obtain ⟨starts, hlayout, hadds⟩ :=
      (build_gains _ pool { o with blockLimit := o.blockLimit + 1 } hplain hsync).2 g hmore
    obtain ⟨g'', hbuild'', hadds⟩ := hadds (Nat.lt_succ_of_le hle)
    cases hbuild''.symm.trans hmore'
    exact ⟨g, starts, rfl, hlayout, hadds⟩

/-- A method that is not synchronized and calls no subroutines is parsed depth-first. -/
theorem parsedDepthFirst_of_build (hbuild : build m pool o = .ok g) (hsync : m.access.isSynchronized = false)
    (hcalls : ∀ insns, Insn.sweep m.code = .ok insns → ∀ i ∈ insns, i.flow ≠ .jsr) :
    ∃ starts insns reached, layout m.code m.handlers = .ok starts ∧ Insn.sweep m.code = .ok insns ∧
      g.ParsedDepthFirst starts (Start.successors starts insns m.code.size) reached [] ∧
      ∀ b, b < g.blocks.size → (g.block b).flags.defaultHandler = false := by
  obtain ⟨t, rfl, st, home, reached, rfl, hfinished, hnone, hmeets, hstep, hlength⟩ :=
    exists_of_build_ok (assemble_inStep hsync hcalls) hbuild
  exact ⟨_, _, reached, by rw [layout, st.surveyed]; rfl, Survey.sweep_eq st.surveyed,
    hfinished.parsedDepthFirst hmeets hnone hstep hlength,
    fun b hb => hfinished.defaultHandler_eq_false hmeets.calls hnone hb⟩

/-- **Without subroutines parsing goes on depth-first.** If the graph of a method is built that calls no
subroutines, it has just one block for each start of its layout, and one that unlocks when the method is
synchronized. What control reaches from the beginning without an exception is parsed first, by increasing
depth-first number from zero on, and the block that unlocks is parsed last. -/
theorem parsed_depth_first (hbuild : build m pool o = .ok g)
    (hcalls : ∀ insns, Insn.sweep m.code = .ok insns → ∀ i ∈ insns, i.flow ≠ .jsr) :
    ∃ starts insns reached, layout m.code m.handlers = .ok starts ∧ Insn.sweep m.code = .ok insns ∧
      g.ParsedDepthFirst starts (Start.successors starts insns m.code.size) reached
        (if m.access.isSynchronized then [.unlocking starts.length false] else []) := by
  cases hsync : m.access.isSynchronized with
  | false =>
    obtain ⟨starts, insns, reached, hlayout, hinsns, hparsed, -⟩ := parsedDepthFirst_of_build hbuild hsync hcalls
    exact ⟨starts, insns, reached, hlayout, hinsns, hparsed⟩
  | true =>
    obtain ⟨g₀, starts, hbuild₀, hlayout, hadds⟩ := exists_addsUnlock_of_build hbuild hsync
    obtain ⟨starts', insns, reached, hlayout', hinsns, hparsed, hflags⟩ :=
      parsedDepthFirst_of_build hbuild₀ (Nat.zero_testBit 5) hcalls
    cases hlayout.symm.trans hlayout'
    exact ⟨starts, insns, reached, hlayout, hinsns, hparsed.addsUnlock hadds hflags⟩

/-- A synchronized method that loops until it returns, with a handler for the condition of the loop. -/
def guardedLoop : Method where
  name := "loop"
  access := AccessFlags.ofStatic.withSynchronized
  code := #[0x99, 0, 5, 0xb1, 0xbf, 0xa7, 0xff, 0xfb]
  handlers := [{ first := 0, limit := 3, target := .code 4, catchType := 0 }]

/-- The handler waits first, yet it is parsed after what the condition leads to, and before the block that
unlocks. -/
theorem guardedLoop_parsed :
    (∀ insns, Insn.sweep guardedLoop.code = .ok insns → ∀ i ∈ insns, i.flow ≠ .jsr) ∧
    ∃ g starts insns reached, build guardedLoop {} {} = .ok g ∧
      g.order.toList.map (fun b => (g.block b).site) = [.code 0, .code 3, .code 5, .code 4, .unlock] ∧
      g.order.toList.map (fun b => (g.block b).number) = [0, 1, 2, 3, 4] ∧
      g.ParsedDepthFirst starts (Start.successors starts insns guardedLoop.code.size) reached
        [.unlocking 4 false] := by
  have hvalue : (Insn.sweep guardedLoop.code).toOption.all
      (fun l => l.all fun i => decide (i.flow ≠ .jsr)) = true := by decide +kernel
  have hcalls : ∀ insns, Insn.sweep guardedLoop.code = .ok insns → ∀ i ∈ insns, i.flow ≠ .jsr := by
    intro insns hinsns i hi
    rw [hinsns] at hvalue
    exact of_decide_eq_true (List.all_eq_true.1 hvalue i hi)
  have hlength : (layout guardedLoop.code guardedLoop.handlers).toOption.map List.length = some 4 := by
    decide +kernel
  obtain ⟨g, hbuild, hgraph⟩ := exists_build_of_any guardedLoop {} {} (fun g =>
    g.order.toList.map (fun b => (g.block b).site) = [.code 0, .code 3, .code 5, .code 4, .unlock] ∧
    g.order.toList.map (fun b => (g.block b).number) = [0, 1, 2, 3, 4]) (by decide +kernel)
  obtain ⟨hsites, hnumbers⟩ := of_decide_eq_true hgraph
  obtain ⟨starts, insns, reached, hlayout, -, hparsed⟩ := parsed_depth_first hbuild hcalls
  rw [hlayout] at hlength
  have hstarts : starts.length = 4 := Option.some.inj hlength
  have hsync : guardedLoop.access.isSynchronized = true := AccessFlags.isSynchronized_withSynchronized _
  rw [if_pos hsync, hstarts] at hparsed
  exact ⟨hcalls, g, starts, insns, reached, hbuild, hsites, hnumbers, hparsed⟩

end BlockGraph
