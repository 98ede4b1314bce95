import BlockGraph.Proofs.Copies
import BlockGraph.Proofs.Layout.Segments

/-!
# How the code is split into blocks

The layout says where blocks start, before anything is parsed; parsing finds out for itself where a block
ends. Both agree, in every copy: a block that starts at an index holds the instructions of the sweep from
there up to the next start, and control leaves it as it leaves the last of them. Main statement:
`spells_of_build`.
-/

namespace BlockGraph

variable {m : Method} {pool : ConstantPool} {o : Options} {st : Setting} {home : Homes} {g : Graph}
  {b c : BlockId} {i : Insn} {x : Exit} {limit : Nat}

/-- How control leaves a block, told by where in the code it may go on. Where a `ret` comes back to is
left out, since that depends on the call. -/
inductive Departure where
  | goto (target : Site)
  | branch (taken notTaken : Site)
  | switch (fallback : Site) (cases : List Site)
  | jsr (entry continuation : Site)
  | ret
  | leave
  | throw
deriving DecidableEq, Repr

/-- How control leaves a block of a graph, if that has been parsed. -/
def Graph.departure? (g : Graph) (b : BlockId) : Option Departure :=
  (g.block b).exit.map fun
    | .goto d => .goto (g.block d).site
    | .branch d d' => .branch (g.block d).site (g.block d').site
    | .switch d ds => .switch (g.block d).site (ds.map fun d => (g.block d).site)
    | .jsr e r => .jsr (g.block e).site (g.block r).site
    | .ret _ => .ret
    | .leave => .leave
    | .throw => .throw

/-- How control leaves a block after its last instruction, when the next block starts at `limit`. -/
def Insn.departure? (i : Insn) (limit : Nat) : Option Departure :=
  match i.flow, i.targets with
  | .next, _ => some (.goto (.code limit))
  | .goto, [t] => some (.goto (.code t))
  | .branch, [t] => some (.branch (.code t) (.code i.next))
  | .switch, t :: ts => some (.switch (.code t) (ts.map .code))
  | .jsr, [t] => some (.jsr (.code t) (.code i.next))
  | .ret, _ => some .ret
  | .leave, _ => some .leave
  | .throw, _ => some .throw
  | _, _ => none

/-- A block holds the instructions of the code between two indices, and control leaves it as it leaves the
last of them. -/
structure Graph.Spells (g : Graph) (insns : List Insn) (b : BlockId) (first limit : Nat) : Prop where
  instrs : (g.block b).instrs.toList.map (fun id => g.instrs[id]?) =
    (Insn.between insns first limit).map fun i => some (i.inBlock b)
  exit : ∃ i x, (Insn.between insns first limit).getLast? = some i ∧ i.departure? limit = some x ∧
    g.departure? b = some x

/-- What an instruction of the graph keeps of the code. -/
def Instr.source (k : Instr) : Site × Opcode := (k.site, k.opcode)

/-! ## Reading a block off the graph -/

/-- Where no index is out of range, each has its instruction. -/
theorem Graph.InRange.map_getElem? (hg : g.InRange) (b : BlockId) :
    (g.block b).instrs.toList.map (fun id => g.instrs[id]?) = (g.body b).map some := by
  have hids : ∀ id ∈ (g.block b).instrs.toList, id < g.instrs.size := fun id hid =>
    hg.instrs b id (by simpa using hid)
  unfold Graph.body
  generalize (g.block b).instrs.toList = l at hids ⊢
  induction l with
  | nil => rfl
  | cons id rest ih =>
    have hlt := hids id List.mem_cons_self
    have hid : g.instrs[id]? = some g.instrs[id] := Array.getElem?_eq_getElem hlt
    rw [List.map_cons, List.filterMap_cons, hid, ih fun k hk => hids k (List.mem_cons_of_mem _ hk)]
    rfl

/-- A block that holds some instructions of the code is made from them. -/
theorem Graph.Spells.body_eq {insns : List Insn} {first : Nat} (h : g.Spells insns b first limit)
    (hg : g.InRange) : g.body b = (Insn.between insns first limit).map (Insn.inBlock b) := by
  have hmap := (hg.map_getElem? b).symm.trans h.instrs
  have hinj := congrArg (List.filterMap id) hmap
  simpa [List.filterMap_map, Function.comp_def] using hinj

theorem Graph.Spells.source_eq {insns : List Insn} {first : Nat} (h : g.Spells insns b first limit)
    (hg : g.InRange) : (g.body b).map Instr.source =
      (Insn.between insns first limit).map fun i => (.code i.bci, i.opcode) := by
  rw [h.body_eq hg, List.map_map]
  rfl

/-! ## Where control leaves a block -/

theorem ExitFits.departure (h : ExitFits home g b i x) (hx : (g.block b).exit = some x)
    (hlimit : i.flow = .next → limit = i.next) :
    (i.departure? limit).isSome = true ∧ g.departure? b = i.departure? limit := by
  unfold Graph.departure?
  rw [hx]
  cases h with
  | jump hf ht hd => simp [Insn.departure?, hf, ht, hd.1.site]
  | falls hf hd => simp [Insn.departure?, hf, hd.1.site, hlimit hf]
  | branch hf ht hd hd' => simp [Insn.departure?, hf, ht, hd.1.site, hd'.1.site]
  | @switch t ts d ds hf ht hd hds =>
    have hcases : ds.map (fun d => (g.block d).site) = ts.map Site.code := by
      clear hx ht
      induction hds with
      | nil => rfl
      | cons hd' _ ih => rw [List.map_cons, List.map_cons, ih, hd'.1.site]
    simp [Insn.departure?, hf, ht, hd.1.site, hcases]
  | call hf ht he hr => simp [Insn.departure?, hf, ht, he.1.site, hr.site]
  | ret hf | leave hf | throw hf => simp [Insn.departure?, hf]

/-- A block ends where another one starts, or with the code. -/
theorem ExitFits.next_mem_starts (h : ExitFits home g b i x) (hlaid : Laid st home g)
    (hi : i ∈ st.survey.insns) : i.next ∈ st.survey.starts ∨ i.next = st.method.code.size := by
  have hends : i.endsBlock = true →
      i.next ∈ st.survey.starts ∨ i.next = st.method.code.size := fun he => by
    have hle := (Survey.bci_lt_next st.surveyed hi).2
    rcases Nat.lt_or_ge i.next st.method.code.size with hlt | hge
    · exact .inl (Survey.next_mem_starts st.surveyed hi he hlt)
    · exact .inr (Nat.le_antisymm hle hge)
  cases h with
  | falls _ hd => exact .inl (hlaid.mem_starts hd.1)
  | jump hf | branch hf | switch hf | call hf | ret hf | leave hf | throw hf =>
    exact hends (by rw [Insn.endsBlock, hf]; rfl)

/-! ## Parsed blocks -/

namespace Finished

variable (h : Finished st home g)
include h

/-- A parsed block with code holds what the layout gives it. -/
theorem spells (hv : (g.block b).visited = true) {bci : Nat} (hsite : (g.block b).site = .code bci) :
    g.Spells st.survey.insns b bci (Start.after st.survey.layout st.method.code.size bci) := by
  cases h.settled hv with
  | @code bci' before i x hlies hstretch hbody _ hx hfits =>
    obtain rfl : bci' = bci := Site.code.inj (hlies.site.symm.trans hsite)
    have hafter := hstretch.after_eq st.surveyed (hfits.next_mem_starts h.laid hstretch.mem)
    rw [hafter]
    obtain ⟨hsome, hsame⟩ := hfits.departure hx fun _ => rfl
    obtain ⟨d, hd⟩ := Option.isSome_iff_exists.1 hsome
    refine ⟨?_, i, d, ?_, hd, hsame.trans hd⟩
    · rw [h.range.map_getElem?, hbody, hstretch.between_eq st.surveyed, List.map_map]
      rfl
    · rw [hstretch.between_eq st.surveyed, List.getLast?_concat]
  | unlock _ hs => rw [hsite] at hs; cases hs

/-- A block with code is the one of the layout, or a copy of it. -/
theorem exists_start (hlt : b < g.blocks.size) {bci : Nat} (hsite : (g.block b).site = .code bci) :
    ∃ s ∈ st.survey.layout, s.bci = bci ∧ (g.block b).blankCopy = s.block := by
  obtain ⟨b₀, hget, hkin⟩ := h.laid.kin ⟨hlt, rfl, hsite⟩
  have hmem := st.mem_starts_of_get hget
  rw [← Survey.map_bci_layout] at hmem
  obtain ⟨s, hs, rfl⟩ := List.mem_map.1 hmem
  exact ⟨s, hs, rfl, hkin.trans (h.laid.layout s hs b₀ hget)⟩

/-- Parsed blocks that start at the same place are the same but for where they belong. -/
theorem agree (hb : (g.block b).visited = true) (hc : (g.block c).visited = true)
    (hsite : (g.block b).site = (g.block c).site) :
    (g.body b).map Instr.source = (g.body c).map Instr.source ∧ g.departure? b = g.departure? c := by
  cases hs : (g.block c).site with
  | code bci =>
    have hspells_b := h.spells hb (hsite.trans hs)
    have hspells_c := h.spells hc hs
    obtain ⟨i, x, hlast, hi, hx⟩ := hspells_b.exit
    obtain ⟨i', x', hlast', hi', hx'⟩ := hspells_c.exit
    refine ⟨(hspells_b.source_eq h.range).trans (hspells_c.source_eq h.range).symm, ?_⟩
    cases hlast.symm.trans hlast'
    rw [hx, hx', ← hi, ← hi']
  | unlock =>
    have hunlock : ∀ d, (g.block d).visited = true → (g.block d).site = .unlock →
        (g.body d).map Instr.source = [(.unlock, .monitorexit), (.unlock, .athrow)] ∧
          g.departure? d = some .throw := by
      intro d hv hd
      cases h.settled hv with
      | code hlies => rw [hlies.site] at hd; cases hd
      | unlock _ _ hbody hx =>
        unfold Graph.departure?
        rw [hbody, hx]
        exact ⟨rfl, rfl⟩
    obtain ⟨hbody_b, hexit_b⟩ := hunlock b hb (hsite.trans hs)
    obtain ⟨hbody_c, hexit_c⟩ := hunlock c hc hs
    rw [hbody_b, hbody_c, hexit_b, hexit_c]
    exact ⟨rfl, rfl⟩

end Finished

/-- **The code is split as it was laid out.** A parsed block, other than the handler that unlocks, starts
where the layout has a start, holds the instructions of the sweep from there up to the next start, and is
left as the last of them is. Every block with code, parsed or not, has the index, the number and the flags
of its start. So parsed blocks that start at the same index have the same instructions and are left the
same way. The instructions of the graph are those of its blocks, in the order of parsing. -/
theorem spells_of_build (h : build m pool o = .ok g) : ∃ starts insns,
    layout m.code m.handlers = .ok starts ∧ Insn.sweep m.code = .ok insns ∧
    (∀ b ∈ g.order, (g.block b).flags.defaultHandler = false → ∃ s ∈ starts,
      (g.block b).site = .code s.bci ∧
        g.Spells insns b s.bci (Start.after starts m.code.size s.bci)) ∧
    (∀ b, b < g.blocks.size → ∀ bci, (g.block b).site = .code bci →
      ∃ s ∈ starts, s.bci = bci ∧ (g.block b).blankCopy = s.block) ∧
    (∀ b ∈ g.order, ∀ c ∈ g.order, (g.block b).site = (g.block c).site →
      (g.body b).map Instr.source = (g.body c).map Instr.source ∧ g.departure? b = g.departure? c) ∧
    g.order.toList.flatMap (fun b => (g.block b).instrs.toList) = List.range g.instrs.size := by
  obtain ⟨st, home, rfl, hfinished⟩ := finished_of_build h
  have hvisited : ∀ b ∈ g.order, (g.block b).visited = true := fun b hb =>
    (hfinished.mem_order b).1 (Array.mem_toList_iff.2 hb)
  refine ⟨_, _, by rw [layout, st.surveyed]; rfl, Survey.sweep_eq st.surveyed, fun b hb hflag => ?_,
    fun b hlt bci hsite => hfinished.exists_start hlt hsite,
    fun b hb c hc hsite => hfinished.agree (hvisited b hb) (hvisited c hc) hsite,
    (making_of_build h).orderly.arena⟩
  have hv := hvisited b hb
  cases hs : (g.block b).site with
  | unlock => rw [(hfinished.defaultHandler_iff hv).2 hs] at hflag; cases hflag
  | code bci =>
    obtain ⟨s, hmem, rfl, -⟩ := hfinished.exists_start (Graph.lt_of_visited hv) hs
    exact ⟨s, hmem, rfl, hfinished.spells hv hs⟩

theorem callTwice_spells : ∃ g, build callTwice {} {} = .ok g ∧ g.order = #[0, 4, 1, 5, 2] ∧
    (g.body 4).map Instr.source = (g.body 5).map Instr.source ∧ g.departure? 4 = g.departure? 5 ∧
    g.order.toList.flatMap (fun b => (g.block b).instrs.toList) = List.range g.instrs.size := by
  obtain ⟨g, hbuild, hgraph⟩ := exists_build_of_any callTwice {} {}
    (fun g => g.order = #[0, 4, 1, 5, 2] ∧ (g.block 4).site = (g.block 5).site) (by decide +kernel)
  obtain ⟨horder, hsite⟩ := of_decide_eq_true hgraph
  obtain ⟨_, _, -, -, -, -, hagree, harena⟩ := spells_of_build hbuild
  obtain ⟨hsource, hdeparture⟩ := hagree 4 (by rw [horder]; simp) 5 (by rw [horder]; simp) hsite
  exact ⟨g, hbuild, horder, hsource, hdeparture, harena⟩

end BlockGraph
