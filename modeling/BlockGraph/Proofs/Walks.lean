import BlockGraph.Proofs.Assembly.Finished
import BlockGraph.Proofs.Machine

/-!
# Walks of a graph

A walk goes from instruction to instruction of a graph: on inside a block, from its last instruction to
where control leaves it, and from any instruction to a handler that protects it. The walks of a graph
that was built spell the same indices of the code as the runs of the method's control machine: a block
tells by the copy in which it lies which calls are open (`Opens`). Main statement:
`traces_iff_of_build`.
-/

namespace BlockGraph

variable {m : Method} {pool : ConstantPool} {o : Options} {st : Setting} {home : Homes} {g : Graph}
  {b d : BlockId} {c : Control}

/-- A place in a graph, an instruction of a block. -/
structure Place where
  block : BlockId
  index : Nat := 0
deriving DecidableEq, Repr

/-- The index in the code of the instruction at a place, where there is one. -/
def Graph.bciAt? (g : Graph) (p : Place) : Option Nat :=
  (g.body p.block)[p.index]?.bind fun i =>
    match i.site with
    | .code bci => some bci
    | .unlock => none

/-- A step of a walk. -/
inductive Graph.Moves (g : Graph) (p : Place) : Place → Prop where
  | inside : p.index + 1 < (g.body p.block).length → g.Moves p { p with index := p.index + 1 }
  | leave {d : BlockId} : p.index + 1 = (g.body p.block).length → d ∈ (g.block p.block).successors →
    g.Moves p { block := d }
  | caught {i : Instr} {bci : Nat} {x : Handler} {d : BlockId} : (g.body p.block)[p.index]? = some i →
    i.site = .code bci → x ∈ g.declaredHandlers 0 → x.protects bci = true →
    d ∈ (g.block p.block).handlers → (g.block d).site = x.target → g.Moves p { block := d }

/-- A step of a walk that does not enter the block that unlocks. -/
def Graph.Walks (g : Graph) (p q : Place) : Prop :=
  g.Moves p q ∧ (g.block q.block).flags.defaultHandler = false

/-! ## Open calls -/

/-- Where the calls come back to that are open in the copy made for a call. -/
inductive Opens (home : Homes) (g : Graph) : Option BlockId → List Nat → Prop where
  | root : Opens home g none []
  | call {j e r : BlockId} {bci : Nat} {returns : List Nat} : (g.block j).exit = some (.jsr e r) →
    (g.block r).site = .code bci → Opens home g (home j) returns →
    Opens home g (some j) (bci :: returns)

/-- Control is at a place of the graph: at the same index of the code, with the same open calls. -/
structure Matches (home : Homes) (g : Graph) (c : Control) (p : Place) : Prop where
  visited : (g.block p.block).visited = true
  instr : ∃ i, (g.body p.block)[p.index]? = some i ∧ i.site = .code c.bci
  opens : Opens home g (home p.block) c.returns

theorem Matches.bciAt?_eq {p : Place} (h : Matches home g c p) : some c.bci = g.bciAt? p := by
  obtain ⟨i, hi, hsite⟩ := h.instr
  rw [Graph.bciAt?, hi, Option.bind_some, hsite]

namespace Finished

variable (h : Finished st home g)
include h

/-- Control enters a block at its first instruction. -/
theorem arrive {bci : Nat} {returns : List Nat} (hv : (g.block d).visited = true)
    (hsite : (g.block d).site = .code bci) (ho : Opens home g (home d) returns) :
    Matches home g ⟨bci, returns⟩ { block := d } := by
  refine ⟨hv, ?_, ho⟩
  cases h.settled hv with
  | code hlies hstretch hbody =>
    obtain ⟨k, hk, hbci⟩ := hstretch.exists_first
    rw [hlies.site] at hsite
    cases hsite
    refine ⟨k.inBlock d, ?_, congrArg Site.code hbci⟩
    show (g.body d)[0]? = _
    rw [hbody, List.getElem?_map, hk]; rfl
  | unlock _ hunlock => rw [hunlock] at hsite; cases hsite

theorem arrive_of_leads {bci : Nat} {call : Option BlockId} {returns : List Nat}
    (hd : Leads home g call bci d) (ho : Opens home g call returns) :
    Matches home g ⟨bci, returns⟩ { block := d } :=
  h.arrive ((h.queued_iff d).1 hd.2) hd.1.site (hd.1.home_eq ▸ ho)

/-- After the last instruction of a block control enters a block where control leaves to, and it can
enter each of them. -/
theorem leave {i : Insn} {x : Exit} {returns : List Nat} (hfits : ExitFits home g b i x)
    (hx : (g.block b).exit = some x) (ho : Opens home g (home b) returns) :
    (∀ c ∈ i.goes returns, ∃ d ∈ x.successors, Matches home g c { block := d }) ∧
      ∀ d ∈ x.successors, ∃ c ∈ i.goes returns, Matches home g c { block := d } := by
  have harrive : ∀ {t d}, Leads home g (home b) t d → Matches home g ⟨t, returns⟩ { block := d } :=
    fun hd => h.arrive_of_leads hd ho
  cases hfits with
  | jump hf ht hd => simpa [Insn.goes, hf, ht, Exit.successors] using harrive hd
  | falls hf hd => simpa [Insn.goes, hf, Exit.successors] using harrive hd
  | branch hf ht hd hd' =>
    have htaken := harrive hd
    have hnot := harrive hd'
    simp only [Insn.goes, hf, ht, Exit.successors, List.map_cons, List.map_nil, List.cons_append,
      List.nil_append, List.mem_cons, List.not_mem_nil, or_false, forall_eq_or_imp, forall_eq]
    exact ⟨⟨⟨_, .inl rfl, htaken⟩, _, .inr rfl, hnot⟩, ⟨_, .inl rfl, htaken⟩, _, .inr rfl, hnot⟩
  | @switch t ts d ds hf ht hd hds =>
    have hall := exists_of_forall₂ (List.Forall₂.cons hd hds)
    simp only [Insn.goes, hf, ht, Exit.successors, List.mem_map, List.mem_eraseDups]
    refine ⟨?_, fun d hd => ?_⟩
    · rintro c ⟨t, ht, rfl⟩
      obtain ⟨d, hd, hleads⟩ := hall.1 t ht
      exact ⟨d, hd, harrive hleads⟩
    · obtain ⟨t, ht, hleads⟩ := hall.2 d hd
      exact ⟨_, ⟨t, ht, rfl⟩, harrive hleads⟩
  | call hf ht he hr =>
    have henter := h.arrive_of_leads he (.call hx hr.site ho)
    simpa [Insn.goes, hf, ht, Exit.successors] using henter
  | @ret j e t hf hj hexit _ =>
    rw [hj] at ho
    cases ho with
    | call hexit' hsite ho =>
      rw [hexit] at hexit'
      cases hexit'
      -- the call has gone on, since this block comes back to it
      obtain ⟨_, _, hdone⟩ := h.facts.returned b t hx
      have hv := (h.queued_iff t).1 (hdone.resolve_left List.not_mem_nil)
      obtain ⟨_, _, _, _, _, -, hr⟩ := (h.settled (h.visited_of_exit hexit)).call hexit
      have hback := h.arrive hv hsite (hr.home_eq ▸ ho)
      simpa [Insn.goes, hf, Exit.successors] using hback
  | leave hf | throw hf => simp [Insn.goes, hf, Exit.successors]

/-- Where control is, a stretch of the code is parsed into the block. -/
theorem exists_insn {p : Place} (hm : Matches home g c p) : ∃ bci before i x k,
    g.LiesAt home (home p.block) bci p.block ∧ st.survey.Stretch bci before i ∧
      g.body p.block = (before ++ [i]).map (Insn.inBlock p.block) ∧
      Caught st home g p.block (before ++ [i]) ∧ (g.block p.block).exit = some x ∧
      ExitFits home g p.block i x ∧ (before ++ [i])[p.index]? = some k ∧ k.bci = c.bci ∧
      Insn.read st.method.code c.bci = .ok k := by
  obtain ⟨instr, hinstr, hsite⟩ := hm.instr
  cases h.settled hm.visited with
  | @code bci before i x hlies hstretch hbody hcaught hx hfits =>
    rw [hbody, List.getElem?_map] at hinstr
    obtain ⟨k, hk, rfl⟩ := Option.map_eq_some_iff.1 hinstr
    have hbci : k.bci = c.bci := Site.code.inj hsite
    have hread := st.read_of_mem (hstretch.mem_insns k (List.mem_of_getElem? hk))
    exact ⟨bci, before, i, x, k, hlies, hstretch, hbody, hcaught, hx, hfits, hk, hbci, hbci ▸ hread⟩
  | unlock _ _ hbody =>
    rw [hbody] at hinstr
    rcases List.mem_cons.1 (List.mem_of_getElem? hinstr) with rfl | hmem
    · cases hsite
    · cases List.mem_singleton.1 hmem; cases hsite

theorem not_defaultHandler {p : Place} (hm : Matches home g c p) :
    (g.block p.block).flags.defaultHandler = false := by
  obtain ⟨_, _, _, _, _, hlies, -⟩ := h.exists_insn hm
  refine Bool.eq_false_iff.2 fun hflag => ?_
  have hsite := (h.defaultHandler_iff hm.visited).1 hflag
  rw [hlies.site] at hsite; cases hsite

/-! ## The simulation -/

/-- A walk can follow each step of control. -/
theorem follow {c' : Control} {p : Place} (hm : Matches home g c p) (hstep : st.method.Step c c') :
    ∃ q, g.Moves p q ∧ Matches home g c' q := by
  obtain ⟨bci, before, i, x, k, -, hstretch, hbody, hcaught, hx, hfits, hk, hbci, hread⟩ :=
    h.exists_insn hm
  cases hstep with
  | goes hread' hgoes =>
    rw [hread] at hread'
    cases hread'
    rcases hstretch.last_or_next hk with ⟨hlast, rfl⟩ | ⟨hflow, k', hk', hbci'⟩
    · obtain ⟨d, hd, hm'⟩ := (h.leave hfits hx hm.opens).1 c' hgoes
      refine ⟨_, .leave ?_ ?_, hm'⟩
      · rw [hbody, List.length_map]; exact hlast
      · rw [Block.successors, hx]; exact hd
    · simp only [Insn.goes, hflow, List.mem_singleton] at hgoes
      subst hgoes
      have hinstr : (g.body p.block)[p.index + 1]? = some (k'.inBlock p.block) := by
        rw [hbody, List.getElem?_map, hk']; rfl
      exact ⟨_, .inside (List.getElem?_eq_some_iff.1 hinstr).1, hm.visited,
        ⟨_, hinstr, congrArg Site.code hbci'⟩, hm.opens⟩
  | @caught y entry hy hprotects hentry =>
    have hmem : st.table.resolve y ∈ st.handlers := List.mem_append_left _ (List.mem_map_of_mem hy)
    have htarget : (st.table.resolve y).target = .code entry := by
      have hy : y.target = .code entry := by
        unfold Handler.entryIndex? at hentry
        cases ht : y.target with
        | code bci => rw [ht] at hentry; cases hentry; rfl
        | unlock => rw [ht] at hentry; cases hentry
      exact hy
    obtain ⟨d, hd, hcatches⟩ := hcaught.complete _ hmem k (List.mem_of_getElem? hk)
      (by rw [hbci]; exact hprotects)
    have hsite := hcatches.site
    unfold Catches at hcatches
    rw [htarget] at hcatches
    refine ⟨_, .caught (i := k.inBlock p.block) ?_ rfl ?_ ?_ hd hsite,
      h.arrive ((h.queued_iff d).1 (hcaught.sound d hd).1) hcatches.site (hcatches.home_eq ▸ hm.opens)⟩
    · rw [hbody, List.getElem?_map, hk]; rfl
    · rw [h.laid.declaredHandlers]; exact hmem
    · rw [hbci]; exact hprotects

/-- Control can follow each step of a walk. -/
theorem lead {p q : Place} (hm : Matches home g c p) (hwalk : g.Walks p q) :
    ∃ c', st.method.Step c c' ∧ Matches home g c' q := by
  obtain ⟨bci, before, i, x, k, -, hstretch, hbody, hcaught, hx, hfits, hk, hbci, hread⟩ :=
    h.exists_insn hm
  have hlength : (g.body p.block).length = (before ++ [i]).length := by rw [hbody, List.length_map]
  have hlt : p.index < (before ++ [i]).length := (List.getElem?_eq_some_iff.1 hk).1
  obtain ⟨hmoves, hcode⟩ := hwalk
  cases hmoves with
  | inside hinside =>
    rcases hstretch.last_or_next hk with ⟨hlast, -⟩ | ⟨hflow, k', hk', hbci'⟩
    · omega
    · refine ⟨⟨k.next, c.returns⟩, .goes hread (by simp [Insn.goes, hflow]), hm.visited,
        ⟨k'.inBlock p.block, ?_, congrArg Site.code hbci'⟩, hm.opens⟩
      show (g.body p.block)[p.index + 1]? = _
      rw [hbody, List.getElem?_map, hk']; rfl
  | @leave d hlast hd =>
    rw [Block.successors, hx] at hd
    obtain ⟨c', hc', hm'⟩ := (h.leave hfits hx hm.opens).2 d hd
    rcases hstretch.last_or_next hk with ⟨-, rfl⟩ | ⟨-, k', hk', -⟩
    · exact ⟨c', .goes hread hc', hm'⟩
    · have := (List.getElem?_eq_some_iff.1 hk').1
      omega
  | @caught instr bci' y d hinstr hsite hy hprotects hd htarget =>
    obtain ⟨hq, y', hy', k', -, -, hcatches⟩ := hcaught.sound d hd
    have hv := (h.queued_iff d).1 hq
    have hbci' : bci' = c.bci := by
      rw [hbody, List.getElem?_map, hk] at hinstr
      cases hinstr
      exact (Site.code.inj hsite).symm.trans hbci
    rcases hcatches.near with ⟨hhome, entry, hentry⟩ | hunlock
    · rw [h.laid.declaredHandlers] at hy
      rw [hentry] at htarget
      obtain ⟨z, hz, rfl, hzentry⟩ := st.exists_handler_of_code hy htarget.symm
      exact ⟨⟨entry, c.returns⟩, .caught hz (hbci' ▸ hprotects) hzentry,
        h.arrive hv hentry (hhome ▸ hm.opens)⟩
    · rw [(h.defaultHandler_iff hv).2 hunlock] at hcode; cases hcode

/-- The beginning of the method is the first place of the graph. -/
theorem matches_start {start : BlockId} (hstart : g.start = some start) :
    Matches home g ⟨0, []⟩ { block := start } := by
  obtain ⟨b, hb, hleads⟩ := h.facts.start
  rw [hstart] at hb; cases hb
  exact h.arrive_of_leads hleads .root

end Finished

/-- **The graph means what the code means.** For a graph that was built, the indices of the code that the
runs of the control machine pass through from the beginning are those that the walks from the first
instruction of the graph pass through which do not enter the block that unlocks. Such a walk always has
an instruction before it. -/
theorem traces_iff_of_build (h : build m pool o = .ok g) : ∃ start, g.start = some start ∧
    ∀ trace, Traces m.Step (fun c => some c.bci) ⟨0, []⟩ trace ↔
      Traces g.Walks g.bciAt? { block := start } trace := by
  obtain ⟨st, home, rfl, hfinished⟩ := finished_of_build h
  obtain ⟨start, hstart, -⟩ := hfinished.facts.start
  refine ⟨start, hstart, fun trace => traces_iff_of_bisimilar (R := Matches home g)
    Matches.bciAt?_eq (fun hm hstep => ?_) hfinished.lead (hfinished.matches_start hstart)⟩
  obtain ⟨q, hmoves, hm'⟩ := hfinished.follow hm hstep
  exact ⟨q, ⟨hmoves, hfinished.not_defaultHandler hm'⟩, hm'⟩

/-- A method that calls a subroutine once; an exception on the way leads to its end. -/
def callGuarded : Method where
  name := "guarded"
  code := #[0xa8, 0, 4, 0xb1, 0x4b, 0xa9, 0]
  handlers := [{ first := 0, limit := 7, target := .code 3, catchType := 0 }]

theorem callGuarded_traces : ∃ g start, build callGuarded {} {} = .ok g ∧ g.start = some start ∧
    Traces g.Walks g.bciAt? { block := start } [some 0, some 4, some 5, some 3] ∧
    Traces g.Walks g.bciAt? { block := start } [some 0, some 4, some 3] := by
  obtain ⟨g, hbuild, -⟩ := exists_build_of_any callGuarded {} {} (fun _ => true) (by decide +kernel)
  obtain ⟨start, hstart, htraces⟩ := traces_iff_of_build hbuild
  have hcall : callGuarded.Step ⟨0, []⟩ ⟨4, [3]⟩ :=
    .goes (i := ⟨0, 3, 0xa8, false, [4]⟩) rfl (by decide)
  have hstore : callGuarded.Step ⟨4, [3]⟩ ⟨5, [3]⟩ :=
    .goes (i := ⟨4, 5, 0x4b, false, []⟩) rfl (by decide)
  have hret : callGuarded.Step ⟨5, [3]⟩ ⟨3, []⟩ := .goes (i := ⟨5, 7, 0xa9, false, []⟩) rfl (by decide)
  have hcaught : callGuarded.Step ⟨4, [3]⟩ ⟨3, [3]⟩ := .caught List.mem_cons_self rfl rfl
  exact ⟨g, start, hbuild, hstart, (htraces _).1 (.step hcall (.step hstore (.step hret .stop))),
    (htraces _).1 (.step hcall (.step hcaught .stop))⟩

end BlockGraph
