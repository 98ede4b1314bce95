import Mathlib.Logic.Relation
import BlockGraph.Proofs.Assembly.Scheduling

/-!
# Closed blocks

What is true of a block once it is closed, whatever is parsed after it: `Settled` says which code it
holds, where control leaves it and which handlers it has, `Origin` how it was come by, `Segment` where
the blocks of a call stand in the order of parsing, `RetKept` that nothing parsed up to a `ret`
writes the local that the `ret` uses, `Apart` that subroutines one inside the other do not keep
their return addresses in the same local, and `Unentered` that they do not start at the same index.
`Facts` joins them; it outlasts whatever happens to an open block (`Facts.edit`), that the next block is
opened (`Facts.visit`), and that a subroutine is left (`Facts.leave`).
-/

namespace BlockGraph

/-- The instruction of the graph that an instruction of the code becomes in a block. -/
def Insn.inBlock (b : BlockId) (i : Insn) : Instr :=
  { site := .code i.bci, opcode := i.opcode, block := b }

/-! ## Handlers and exits -/

/-- Where the handlers start that protect some instructions, instruction by instruction. -/
def Setting.caught (st : Setting) (l : List Insn) : List Site :=
  l.flatMap fun k => (st.handlers.filter (·.protects k.bci)).map (·.target)

/-- A block with the listed instructions has the handlers that protect some of them, each once and as they
come. -/
structure Caught (st : Setting) (home : Homes) (g : Graph) (b : BlockId) (l : List Insn) : Prop where
  listed : (g.block b).handlers.map (fun d => (g.block d).site) = (st.caught l).eraseDups
  complete : ∀ x ∈ st.handlers, ∀ k ∈ l, x.protects k.bci = true →
    ∃ d ∈ (g.block b).handlers, Catches home g (home b) x d
  sound : ∀ d ∈ (g.block b).handlers, (g.block d).queued = true ∧
    ∃ x ∈ st.handlers, ∃ k ∈ l, x.protects k.bci = true ∧ Catches home g (home b) x d

/-- Where control leaves a block whose last instruction is `i`. -/
inductive ExitFits (home : Homes) (g : Graph) (b : BlockId) (i : Insn) : Exit → Prop where
  | jump {t : Nat} {d : BlockId} : i.flow = .goto → i.targets = [t] → Leads home g (home b) t d →
    ExitFits home g b i (.goto d)
  | falls {d : BlockId} : i.flow = .next → Leads home g (home b) i.next d →
    ExitFits home g b i (.goto d)
  | branch {t : Nat} {d d' : BlockId} : i.flow = .branch → i.targets = [t] →
    Leads home g (home b) t d → Leads home g (home b) i.next d' →
    ExitFits home g b i (.branch d d')
  | switch {t : Nat} {ts : List Nat} {d : BlockId} {ds : List BlockId} : i.flow = .switch →
    i.targets = t :: ts → Leads home g (home b) t d → List.Forall₂ (Leads home g (home b)) ts ds →
    ExitFits home g b i (.switch d ds)
  | call {t : Nat} {e r : BlockId} : i.flow = .jsr → i.targets = [t] → Leads home g (some b) t e →
    g.LiesAt home (home b) i.next r → ExitFits home g b i (.jsr e r)
  | ret {j e t : BlockId} : i.flow = .ret → home b = some j →
    (g.block j).exit = some (.jsr e t) → b ∈ (g.block t).predecessors → ExitFits home g b i (.ret t)
  | leave : i.flow = .leave → ExitFits home g b i .leave
  | throw : i.flow = .throw → ExitFits home g b i .throw

/-- A closed block holds a stretch of the code and is known to the blocks that it leads to, or it is the
block that unlocks. -/
inductive Settled (st : Setting) (home : Homes) (g : Graph) (b : BlockId) : Prop where
  | code {bci : Nat} {before : List Insn} {i : Insn} {x : Exit} :
    g.LiesAt home (home b) bci b → st.survey.Stretch bci before i →
    g.body b = (before ++ [i]).map (Insn.inBlock b) → Caught st home g b (before ++ [i]) →
    (g.block b).exit = some x → ExitFits home g b i x →
    (∀ d ∈ x.successors, b ∈ (g.block d).predecessors) → Settled st home g b
  | unlock : b < g.blocks.size → (g.block b).site = .unlock →
    g.body b = [⟨.unlock, .monitorexit, b⟩, ⟨.unlock, .athrow, b⟩] →
    (g.block b).exit = some .throw → (g.block b).handlers = [] → Settled st home g b

section
variable {st : Setting} {home home' : Homes} {g g' : Graph} {b : BlockId} {l : List Insn} {i : Insn}
  {x : Exit}

theorem Caught.site_grows (h : Caught st home g b l) (hg : Grows home g home' g') {d : BlockId}
    (hd : d ∈ (g.block b).handlers) : (g'.block d).site = (g.block d).site := by
  obtain ⟨-, _, _, _, _, _, hcatches⟩ := h.sound d hd
  exact hg.site hcatches.lt

theorem Caught.grows (h : Caught st home g b l) (hb : b < g.blocks.size)
    (hg : Grows home g home' g') (hsame : (g'.block b).handlers = (g.block b).handlers) :
    Caught st home' g' b l where
  listed := by
    rw [hsame, ← h.listed]
    exact List.map_congr_left fun d hd => h.site_grows hg hd
  complete y hy k hk hp := by
    obtain ⟨d, hd, hcatches⟩ := h.complete y hy k hk hp
    rw [hsame, hg.home_eq b hb]
    exact ⟨d, hd, hcatches.grows hg⟩
  sound d hd := by
    rw [hsame] at hd
    obtain ⟨hq, y, hy, k, hk, hp, hcatches⟩ := h.sound d hd
    rw [hg.home_eq b hb]
    exact ⟨hg.queued d hq, y, hy, k, hk, hp, hcatches.grows hg⟩

/-- A block that gets the handlers of one more instruction. -/
theorem Caught.link (h : Caught st home g b l) (hlaid : Laid st home g') (hg : Grows home g home g')
    (hcomplete : ∀ y ∈ st.handlers, y.protects i.bci = true → ∃ d ∈ (g'.block b).handlers,
      (g'.block d).queued = true ∧ Catches home g' (home b) y d)
    (hold : ∀ d ∈ (g.block b).handlers, d ∈ (g'.block b).handlers)
    (hsound : ∀ d ∈ (g'.block b).handlers, d ∈ (g.block b).handlers ∨ (g'.block d).queued = true ∧
      ∃ y ∈ st.handlers, y.protects i.bci = true ∧ Catches home g' (home b) y d)
    (hlisted : ∃ entries, (g'.block b).handlers = entries.foldl addNew (g.block b).handlers ∧
      List.Forall₂ (Catches home g' (home b)) (st.handlers.filter (·.protects i.bci)) entries) :
    Caught st home g' b (l ++ [i]) where
  listed := by
    obtain ⟨entries, hhandlers, hentries⟩ := hlisted
    have hold' : (g.block b).handlers.map (fun d => (g'.block d).site) = (st.caught l).eraseDups :=
      h.listed ▸ List.map_congr_left fun d hd => h.site_grows hg hd
    have hcatches : ∀ c ∈ (g.block b).handlers ++ entries,
        ∃ y ∈ st.handlers, Catches home g' (home b) y c := by
      intro c hc
      rcases List.mem_append.1 hc with hc | hc
      · obtain ⟨-, y, hy, _, _, _, hcatches⟩ := h.sound c hc
        exact ⟨y, hy, hcatches.grows hg⟩
      · obtain ⟨y, hy, hcatches⟩ := (exists_of_forall₂ hentries).2 c hc
        exact ⟨y, (List.mem_filter.1 hy).1, hcatches⟩
    rw [hhandlers, map_addNew entries hold' fun c hc d hd hsite => ?_, sites_of_catches hentries]
    · simp [Setting.caught]
    · obtain ⟨x, hx, hxc⟩ := hcatches c hc
      obtain ⟨y, hy, hyd⟩ := hcatches d (List.mem_append_right _ hd)
      exact hlaid.catches_inj hx hy hxc hyd hsite
  complete y hy k hk hp := by
    rcases List.mem_append.1 hk with hk | hk
    · obtain ⟨d, hd, hcatches⟩ := h.complete y hy k hk hp
      exact ⟨d, hold d hd, hcatches.grows hg⟩
    · cases List.mem_singleton.1 hk
      obtain ⟨d, hd, -, hcatches⟩ := hcomplete y hy hp
      exact ⟨d, hd, hcatches⟩
  sound d hd := by
    rcases hsound d hd with hd | ⟨hq, y, hy, hp, hcatches⟩
    · obtain ⟨hq, y, hy, k, hk, hp, hcatches⟩ := h.sound d hd
      exact ⟨hg.queued d hq, y, hy, k, List.mem_append_left _ hk, hp, hcatches.grows hg⟩
    · exact ⟨hq, y, hy, i, by simp, hp, hcatches⟩

theorem ExitFits.grows (h : ExitFits home g b i x) (hb : b < g.blocks.size)
    (hg : Grows home g home' g') : ExitFits home' g' b i x := by
  have hhome := hg.home_eq b hb
  cases h with
  | jump hf ht hd => exact .jump hf ht (hhome ▸ hd.grows hg)
  | falls hf hd => exact .falls hf (hhome ▸ hd.grows hg)
  | branch hf ht hd hd' => exact .branch hf ht (hhome ▸ hd.grows hg) (hhome ▸ hd'.grows hg)
  | switch hf ht hd hds =>
    exact .switch hf ht (hhome ▸ hd.grows hg) (hds.imp fun _ _ hd => hhome ▸ hd.grows hg)
  | call hf ht he hr => exact .call hf ht (he.grows hg) (hhome ▸ hg.liesAt hr)
  | ret hf hj hexit hp =>
    exact .ret hf (hhome.trans hj) (hg.exit _ _ hexit) (hg.predecessors _ _ hp)
  | leave hf => exact .leave hf
  | throw hf => exact .throw hf

theorem Settled.lt (h : Settled st home g b) : b < g.blocks.size := by
  cases h with
  | code hlies => exact hlies.lt
  | unlock hlt => exact hlt

theorem Settled.isSome_exit (h : Settled st home g b) : (g.block b).exit.isSome = true := by
  cases h with
  | code _ _ _ _ hx => rw [hx]; rfl
  | unlock _ _ _ hx => rw [hx]; rfl

theorem Settled.body_ne_nil (h : Settled st home g b) : g.body b ≠ [] := by
  cases h with
  | code _ _ hbody => rw [hbody]; simp
  | unlock _ _ hbody => rw [hbody]; simp

theorem Settled.grows (h : Settled st home g b) (hg : Grows home g home' g') :
    Settled st home' g' b := by
  have hlt := h.lt
  have hclosed := h.isSome_exit
  cases h with
  | code hlies hstretch hbody hcaught hx hfits hknown =>
    exact .code (hg.home_eq b hlt ▸ hg.liesAt hlies) hstretch ((hg.body b hclosed).trans hbody)
      (hcaught.grows hlt hg (hg.closed b hclosed)) (hg.exit b _ hx) (hfits.grows hlt hg)
      fun d hd => hg.predecessors d b (hknown d hd)
  | unlock _ hsite hbody hx hhandlers =>
    exact .unlock (hg.lt hlt) ((hg.site hlt).trans hsite) ((hg.body b hclosed).trans hbody)
      (hg.exit b _ hx) ((hg.closed b hclosed).trans hhandlers)

/-- A closed block is a predecessor of the blocks that it leads to. -/
theorem Settled.known {d : BlockId} (h : Settled st home g b) (hd : d ∈ (g.block b).successors) :
    b ∈ (g.block d).predecessors := by
  unfold Block.successors at hd
  cases h with
  | code _ _ _ _ hx _ hknown => rw [hx] at hd; exact hknown d hd
  | unlock _ _ _ hx => rw [hx] at hd; cases hd

/-- A block that ends with a call holds code. -/
theorem Settled.call {e r : BlockId} (h : Settled st home g b)
    (hx : (g.block b).exit = some (.jsr e r)) : ∃ i ∈ st.survey.insns, i.flow = .jsr ∧
      ∃ t, i.targets = [t] ∧ Leads home g (some b) t e ∧ g.LiesAt home (home b) i.next r := by
  cases h with
  | code _ hstretch _ _ hx' hfits =>
    rw [hx] at hx'
    cases hx'
    cases hfits with
    | call hf ht he hr => exact ⟨_, hstretch.mem, hf, _, ht, he, hr⟩
  | unlock _ _ _ hx' => rw [hx] at hx'; cases hx'

theorem Settled.ret {t : BlockId} (h : Settled st home g b) (hx : (g.block b).exit = some (.ret t)) :
    ∃ j e, home b = some j ∧ (g.block j).exit = some (.jsr e t) ∧ b ∈ (g.block t).predecessors := by
  cases h with
  | code _ _ _ _ hx' hfits =>
    rw [hx] at hx'
    cases hx'
    cases hfits with
    | ret _ hj hexit hp => exact ⟨_, _, hj, hexit, hp⟩
  | unlock _ _ _ hx' => rw [hx] at hx'; cases hx'

end

/-! ## How a block was come by -/

/-- Control goes from block `a` to block `b` in the same copy: by a jump, a branch or a switch, to a
handler, or from a call to where that comes back to. -/
def Graph.Beside (g : Graph) (a b : BlockId) : Prop :=
  b ∈ (g.block a).exit.elim [] Exit.jumps ∨ b ∈ (g.block a).handlers ∨
    ∃ e, (g.block a).exit = some (.jsr e b) ∧ (g.block b).queued = true

/-- The block with which a copy starts. -/
def Graph.Entry (g : Graph) : Option BlockId → BlockId → Prop
  | none, b => g.start = some b
  | some j, b => ∃ r, (g.block j).exit = some (.jsr b r)

/-- A block is reached from the beginning of its copy. -/
def Origin (home : Homes) (g : Graph) (b : BlockId) : Prop :=
  ∃ a, g.Entry (home b) a ∧ Relation.ReflTransGen g.Beside a b

section
variable {home home' : Homes} {g g' : Graph} {a b : BlockId}

theorem Graph.Beside.grows (h : g.Beside a b) (hg : Grows home g home' g') : g'.Beside a b := by
  rcases h with h | h | ⟨e, hexit, hq⟩
  · cases hx : (g.block a).exit with
    | none => rw [hx] at h; cases h
    | some x => rw [hx] at h; exact .inl (by rw [hg.exit a x hx]; exact h)
  · exact .inr (.inl (hg.handlers a b h))
  · exact .inr (.inr ⟨e, hg.exit a _ hexit, hg.queued b hq⟩)

theorem Graph.Entry.grows {call : Option BlockId} (h : g.Entry call b) (hg : Grows home g home' g') :
    g'.Entry call b := by
  cases call with
  | none => exact hg.start.trans h
  | some j => exact h.imp fun r hr => hg.exit j _ hr

theorem Origin.grows (h : Origin home g b) (hb : b < g.blocks.size) (hg : Grows home g home' g') :
    Origin home' g' b := by
  obtain ⟨a, ha, hreach⟩ := h
  refine ⟨a, ?_, Relation.ReflTransGen.mono (fun c d hcd => hcd.grows hg) _ _ hreach⟩
  rw [hg.home_eq b hb]
  exact ha.grows hg

/-- Control goes on inside a copy. -/
theorem Origin.step (h : Origin home g a) (hab : g.Beside a b) (hhome : home b = home a) :
    Origin home g b := by
  obtain ⟨c, hc, hreach⟩ := h
  exact ⟨c, hhome ▸ hc, hreach.tail hab⟩

end

/-! ## The order of parsing -/

/-- The blocks that were parsed for call `j` stand together in the order, right after `j`, and the
first of them is `e`. As long as the call is open they are the last ones. -/
def Segment (home : Homes) (path : List BlockId) (g : Graph) (j e : BlockId) : Prop :=
  ∃ pre seg post, g.order.toList = pre ++ j :: (seg ++ post) ∧ (∀ b ∈ seg, Under home j b) ∧
    (∀ b ∈ pre ++ j :: post, ¬ Under home j b) ∧ (j ∈ path → post = []) ∧
    (seg = [] ∨ seg.head? = some e)

theorem Segment.congr {home home' : Homes} {path path' : List BlockId} {g g' : Graph} {j e : BlockId}
    (h : Segment home path g j e) (horder : g'.order = g.order)
    (hunder : ∀ b ∈ g.order.toList, Under home' j b ↔ Under home j b) (hpath : j ∈ path' → j ∈ path) :
    Segment home' path' g' j e := by
  obtain ⟨pre, seg, post, hsplit, hseg, hrest, hpost, hhead⟩ := h
  rw [hsplit] at hunder
  refine ⟨pre, seg, post, horder ▸ hsplit, fun b hb => ?_, fun b hb => ?_, fun hj => hpost (hpath hj),
    hhead⟩
  · exact (hunder b (by simp [hb])).2 (hseg b hb)
  · refine fun hu => hrest b hb ((hunder b ?_).1 hu)
    rcases List.mem_append.1 hb with hb | hb
    · simp [hb]
    · rcases List.mem_cons.1 hb with rfl | hb <;> simp [*]

/-- While the first block of an open call is the last one parsed, nothing else of its copy has been. -/
theorem Segment.eq_of_copied {home : Homes} {path : List BlockId} {g : Graph} {j b : BlockId}
    (h : Segment home path g j b) (hj : j ∈ path) (hb : home b = some j)
    (hlast : ∃ init, g.order.toList = init ++ [b]) (hnodup : g.order.toList.Nodup) {d : BlockId}
    (hd : d ∈ g.order.toList) (hhome : home d = some j) : d = b := by
  obtain ⟨pre, seg, post, hsplit, -, hrest, hpost, hhead⟩ := h
  obtain ⟨init, hlast⟩ := hlast
  cases hpost hj
  rw [List.append_nil] at hsplit
  -- the segment starts with `b`, which stands at the end as well
  have hseg : seg = [b] := by
    rcases hhead with rfl | hhead
    · have hmem : b ∈ pre ++ [j] := by
        rw [← hsplit, hlast]
        simp
      exact absurd (.copied hb) (hrest b hmem)
    · obtain ⟨rest, rfl⟩ := List.head?_eq_some_iff.1 hhead
      rcases List.eq_nil_or_concat rest with rfl | ⟨rest', last, rfl⟩
      · rfl
      · rw [hsplit] at hnodup hlast
        have hsplit' : pre ++ j :: b :: rest'.concat last = (pre ++ j :: b :: rest') ++ [last] := by simp
        rw [hsplit'] at hlast
        cases (List.append_inj' hlast rfl).2
        simp [List.nodup_append] at hnodup
  rw [hsplit, hseg] at hd
  have hu : Under home j d := .copied hhome
  rcases List.mem_append.1 hd with hd | hd
  · exact absurd hu (hrest d (List.mem_append_left _ hd))
  · rcases List.mem_cons.1 hd with rfl | hd
    · exact absurd hu (hrest d (by simp))
    · exact List.mem_singleton.1 hd

/-! ## Return addresses -/

/-- The instruction at an index stores a reference or a return address in local `n`. -/
def Saves (code : Array UInt8) (bci n : Nat) : Prop :=
  ∃ i, Insn.read code bci = .ok i ∧ i.opcode.storesReference = true ∧
    (i.cursor code).localSlot = .ok n

/-- The instruction at an index is a store that writes local `n`, as its first or its second one. -/
def Overwrites (code : Array UInt8) (bci n : Nat) : Prop :=
  ∃ i width slot, Insn.read code bci = .ok i ∧ i.opcode.writtenSlots? = some width ∧
    (i.cursor code).localSlot = .ok slot ∧ (slot = n ∨ width = 2 ∧ slot + 1 = n)

/-- No instruction of a block but the one at `entry` writes local `n`. -/
def KeepsLocal (st : Setting) (g : Graph) (entry n : Nat) (b : BlockId) : Prop :=
  ∀ k ∈ g.body b, ∀ bci, k.site = .code bci → bci ≠ entry → ¬ Overwrites st.method.code bci n

/-- What writes the local is not taken back. -/
theorem KeepsLocal.mono {st : Setting} {g g' : Graph} {entry n : Nat} {b : BlockId}
    (h : KeepsLocal st g' entry n b) (hbody : ∀ k ∈ g.body b, k ∈ g'.body b) :
    KeepsLocal st g entry n b := fun k hk => h k (hbody k hk)

theorem KeepsLocal.of_nil {st : Setting} {g : Graph} {entry n : Nat} {b : BlockId} (h : g.body b = []) :
    KeepsLocal st g entry n b := by
  intro k hk
  rw [h] at hk; cases hk

theorem KeepsLocal.of_body {st : Setting} {g g' : Graph} {entry n : Nat} {b : BlockId}
    (h : KeepsLocal st g' entry n b) (hbody : g'.body b = g.body b) : KeepsLocal st g entry n b :=
  h.mono fun _ hk => hbody ▸ hk

/-- A block that ends with a `ret` uses the local in which the subroutine stored its return address, and
which no block of the same copy writes that was parsed before. -/
def RetKept (st : Setting) (home : Homes) (g : Graph) (b : BlockId) : Prop :=
  ∃ k bci i n j e r entry, (g.body b).getLast? = some k ∧ k.site = .code bci ∧
    Insn.read st.method.code bci = .ok i ∧ (i.cursor st.method.code).localSlot = .ok n ∧
    home b = some j ∧ (g.block j).exit = some (.jsr e r) ∧ g.LiesAt home (some j) entry e ∧
    Saves st.method.code entry n ∧ ∃ pre post, g.order.toList = pre ++ b :: post ∧ ∀ c ∈ pre ++ [b],
      (g.block c).exit.isSome = true ∧ (home c = some j → KeepsLocal st g entry n c)

theorem RetKept.grows {st : Setting} {home home' : Homes} {g g' : Graph} {b : BlockId}
    (h : RetKept st home g b) (hg : Grows home g home' g') : RetKept st home' g' b := by
  obtain ⟨k, bci, i, n, j, e, r, entry, hlast, hsite, hread, hslot, hhome, hexit, hlies, hsaves, pre,
    post, horder, hkept⟩ := h
  obtain ⟨more, hmore⟩ := hg.order
  have hb := (hkept b (by simp)).1
  have hsame : ∀ c ∈ pre ++ [b], home' c = home c := by
    intro c hc
    obtain ⟨x, hx⟩ := Option.isSome_iff_exists.1 (hkept c hc).1
    exact hg.home_eq c (Graph.lt_of_exit hx)
  refine ⟨k, bci, i, n, j, e, r, entry, ?_, hsite, hread, hslot, ?_, hg.exit j _ hexit,
    hg.liesAt hlies, hsaves, pre, post ++ more, ?_, fun c hc => ⟨hg.isSome_exit (hkept c hc).1, fun hc' => ?_⟩⟩
  · rw [hg.body b hb]; exact hlast
  · rw [hsame b (by simp)]; exact hhome
  · rw [← hmore, horder]; simp
  · rw [hsame c hc] at hc'
    have hkeeps := (hkept c hc).2 hc'
    unfold KeepsLocal
    rw [hg.body c (hkept c hc).1]
    exact hkeeps

/-- The subroutine that is called at `k` starts with block `e`. If it stores its return address where a
subroutine around it stored its own, that one had overwritten the local before. -/
def Apart (st : Setting) (home : Homes) (g : Graph) (k e : BlockId) : Prop :=
  ∀ j, Under home j k → ∃ e' r' entry, (g.block j).exit = some (.jsr e' r') ∧
    g.LiesAt home (some j) entry e' ∧ ∀ pos n, (g.block e).site = .code pos →
      Saves st.method.code pos n → Saves st.method.code entry n →
        ∃ pre post, g.order.toList = pre ++ e :: post ∧ ∃ b ∈ pre,
          (g.block b).exit.isSome = true ∧ home b = some j ∧ ¬ KeepsLocal st g entry n b

theorem Apart.grows {st : Setting} {home home' : Homes} {g g' : Graph} {k e : BlockId}
    (h : Apart st home g k e) (he : e < g.blocks.size)
    (hunder : ∀ j, Under home' j k → Under home j k) (hg : Grows home g home' g') :
    Apart st home' g' k e := by
  intro j hj
  obtain ⟨e', r', entry, hexit, hlies, hlost⟩ := h j (hunder j hj)
  refine ⟨e', r', entry, hg.exit j _ hexit, hg.liesAt hlies, fun pos n hsite hsaves hsaves' => ?_⟩
  obtain ⟨pre, post, horder, b, hb, hclosed, hhome, hnot⟩ :=
    hlost pos n ((hg.site he).symm.trans hsite) hsaves hsaves'
  obtain ⟨more, hmore⟩ := hg.order
  refine ⟨pre, post ++ more, by rw [← hmore, horder]; simp, b, hb, hg.isSome_exit hclosed, ?_,
    fun hkeeps => hnot (hkeeps.of_body (hg.body b hclosed))⟩
  obtain ⟨x, hx⟩ := Option.isSome_iff_exists.1 hclosed
  exact (hg.home_eq b (Graph.lt_of_exit hx)).trans hhome

/-- The subroutine that is called at `k` starts with block `e`: neither at the beginning of the method nor
where a subroutine around it starts. -/
def Unentered (home : Homes) (g : Graph) (k e : BlockId) : Prop :=
  (g.block e).site ≠ .code 0 ∧ ∀ j, Under home j k → ∃ e' r', (g.block j).exit = some (.jsr e' r') ∧
    e' < g.blocks.size ∧ (g.block e').site ≠ (g.block e).site

theorem Unentered.grows {home home' : Homes} {g g' : Graph} {k e : BlockId} (h : Unentered home g k e)
    (he : e < g.blocks.size) (hunder : ∀ j, Under home' j k → Under home j k)
    (hg : Grows home g home' g') : Unentered home' g' k e := by
  refine ⟨hg.site he ▸ h.1, fun j hj => ?_⟩
  obtain ⟨e', r', hexit, hlt, hne⟩ := h.2 j (hunder j hj)
  refine ⟨e', r', hg.exit j _ hexit, hg.lt hlt, ?_⟩
  rw [hg.site hlt, hg.site he]
  exact hne

/-! ## All closed blocks -/

/-- What is known of the closed blocks of a graph, and of those that wait. -/
structure Facts (st : Setting) (home : Homes) (path : List BlockId) (g : Graph) : Prop where
  settled : ∀ b, (g.block b).exit.isSome = true → Settled st home g b
  returned : ∀ b t, (g.block b).exit = some (.ret t) →
    ∃ j, home b = some j ∧ (j ∈ path ∨ (g.block t).queued = true)
  kept : ∀ b t, (g.block b).exit = some (.ret t) → RetKept st home g b
  apart : ∀ k e r, (g.block k).exit = some (.jsr e r) → g.body e ≠ [] → Apart st home g k e
  unentered : ∀ k e r, (g.block k).exit = some (.jsr e r) → Unentered home g k e
  origin : ∀ b, (g.block b).queued = true → (g.block b).site ≠ .unlock → Origin home g b
  segments : ∀ j e r, (g.block j).exit = some (.jsr e r) → Segment home path g j e
  unlock : path = [] ∨ ∀ x ∈ st.handlers, x.target = .unlock → ∀ d, x.entry = some d →
    (g.block d).queued = true
  start : ∃ b, g.start = some b ∧ Leads home g none 0 b

section
variable {st : Setting} {home home' : Homes} {path path' : List BlockId} {g g' : Graph}
  {touched : Option BlockId} {new : List BlockId} {b j : BlockId}

/-- An open block may change, and may be closed with what is said of closed blocks. -/
theorem Facts.edit (h : Facts st home path g) (hlaid : Laid st home g) (hrange : g.InRange)
    (hedits : Edits touched new home g home' g') (hpath : ∀ j ∈ path, j ∈ path')
    (hpath' : ∀ j ∈ path', j ∈ path ∨ touched = some j)
    (hunlock : path = [] → path' = [] ∨ ∀ x ∈ st.handlers, x.target = .unlock →
      ∀ d, x.entry = some d → (g'.block d).queued = true)
    (hnew : ∀ d ∈ new, (g'.block d).site ≠ .unlock → Origin home' g' d)
    (hbegun : ∀ k e r, touched = some e → (g.block k).exit = some (.jsr e r) → g.body e = [] →
      g'.body e ≠ [] → Apart st home' g' k e)
    (hself : ∀ b x, touched = some b → (g'.block b).exit = some x → Settled st home' g' b ∧
      (∀ t, x = .ret t → (∃ j, home' b = some j ∧ j ∈ path') ∧ RetKept st home' g' b) ∧
      ∀ e r, x = .jsr e r → Segment home' path' g' b e ∧ g'.body e = [] ∧ Unentered home' g' b e) :
    Facts st home' path' g' := by
  have hgrows := hedits.grows
  have hold : ∀ {b x}, touched ≠ some b → (g'.block b).exit = some x → (g.block b).exit = some x :=
    fun hb hx => (hedits.exit _ hb).symm.trans hx
  refine ⟨fun b hb => ?_, fun b t hx => ?_, fun b t hx => ?_, fun k e r hx hne => ?_,
    fun k e r hx => ?_, fun b hq hsite => ?_, fun j e r hx => ?_, ?_, ?_⟩
  · obtain ⟨x, hx⟩ := Option.isSome_iff_exists.1 hb
    by_cases ht : touched = some b
    · exact (hself b x ht hx).1
    · exact (h.settled b (by rw [hold ht hx]; rfl)).grows hgrows
  · by_cases ht : touched = some b
    · obtain ⟨j, hj, hmem⟩ := ((hself b _ ht hx).2.1 t rfl).1
      exact ⟨j, hj, .inl hmem⟩
    · obtain ⟨j, hj, hdone⟩ := h.returned b t (hold ht hx)
      exact ⟨j, (hgrows.home_eq b (Graph.lt_of_exit (hold ht hx))).trans hj,
        hdone.imp (hpath j) (hgrows.queued t)⟩
  · by_cases ht : touched = some b
    · exact ((hself b _ ht hx).2.1 t rfl).2
    · exact (h.kept b t (hold ht hx)).grows hgrows
  · by_cases ht : touched = some k
    · exact absurd ((hself k _ ht hx).2.2 e r rfl).2.1 hne
    · have hx := hold ht hx
      by_cases hnil : g.body e = []
      · by_cases hte : touched = some e
        · exact hbegun k e r hte hx hnil hne
        · exact absurd ((hedits.body e hte).trans hnil) hne
      · refine (h.apart k e r hx hnil).grows (Graph.lt_of_body_ne_nil hnil) (fun j hj => ?_) hgrows
        exact (under_congr hlaid.lt_of_home hgrows.home_eq (Graph.lt_of_exit hx)).1 hj
  · by_cases ht : touched = some k
    · exact ((hself k _ ht hx).2.2 e r rfl).2.2
    · have hx := hold ht hx
      obtain ⟨_, _, _, _, _, hleads, -⟩ := (h.settled k (by rw [hx]; rfl)).call hx
      refine (h.unentered k e r hx).grows hleads.1.lt (fun j hj => ?_) hgrows
      exact (under_congr hlaid.lt_of_home hgrows.home_eq (Graph.lt_of_exit hx)).1 hj
  · rcases hedits.queued b hq with hq | hmem
    · have hlt := Graph.lt_of_queued hq
      exact (h.origin b hq (hgrows.site hlt ▸ hsite)).grows hlt hgrows
    · exact hnew b hmem hsite
  · by_cases ht : touched = some j
    · exact ((hself j _ ht hx).2.2 e r rfl).1
    · refine (h.segments j e r (hold ht hx)).congr hedits.order (fun b hb => ?_) fun hj =>
        (hpath' j hj).resolve_right ht
      exact under_congr hlaid.lt_of_home hgrows.home_eq (hrange.order b (by simpa using hb))
  · rcases h.unlock with hnil | hqueued
    · exact hunlock hnil
    · exact .inr fun x hx ht d hd => hgrows.queued d (hqueued x hx ht d hd)
  · obtain ⟨b, hb, hleads⟩ := h.start
    exact ⟨b, hgrows.start.trans hb, hleads.grows hgrows⟩

theorem grows_visit (home : Homes) : Grows home g home (g.visit b) where
  size_le := Nat.le_of_eq (Graph.size_modifyBlock g b _).symm
  home_eq _ _ := rfl
  kin c _ := Graph.proj_visit Block.blankCopy (fun _ => rfl) c
  queued c hc := (Graph.proj_visit Block.queued (fun _ => rfl) c).trans hc
  visited c hc := by
    show ((g.modifyBlock b _).block c).visited = true
    rw [Graph.block_modifyBlock]
    split
    · rfl
    · exact hc
  exit c x hc := (Graph.proj_visit Block.exit (fun _ => rfl) c).trans hc
  body c _ := Graph.body_visit c
  closed c _ := Graph.proj_visit Block.handlers (fun _ => rfl) c
  handlers c d hd := by rwa [Graph.proj_visit Block.handlers fun _ => rfl]
  predecessors c p hp := by rwa [Graph.proj_visit Block.predecessors fun _ => rfl]
  start := rfl
  order := ⟨[b], Array.toList_push.symm⟩

/-- The next block belongs to all segments that are open. -/
theorem Segment.push {e : BlockId} (h : Segment home path g j e)
    (hunder : ∀ j, Under home j b ↔ j ∈ path)
    (hfirst : j ∈ path → e = b ∨ e ∈ g.order.toList) (he : Under home j e) :
    Segment home path (g.visit b) j e := by
  obtain ⟨pre, seg, post, hsplit, hseg, hrest, hpost, hhead⟩ := h
  have horder : (g.visit b).order.toList = g.order.toList ++ [b] := Array.toList_push
  by_cases hj : j ∈ path
  · cases hpost hj
    refine ⟨pre, seg ++ [b], [], ?_, fun c hc => ?_, hrest, fun _ => rfl, .inr ?_⟩
    · rw [horder, hsplit]; simp
    · rcases List.mem_append.1 hc with hc | hc
      · exact hseg c hc
      · cases List.mem_singleton.1 hc; exact (hunder j).2 hj
    · rcases hhead with rfl | hhead
      · -- the segment is still empty, so its first block has not been parsed
        rcases hfirst hj with rfl | hmem
        · rfl
        · refine absurd he (hrest e ?_)
          rw [hsplit] at hmem
          simpa using hmem
      · rw [List.head?_append, hhead]; rfl
  · refine ⟨pre, seg, post ++ [b], ?_, hseg, fun c hc => ?_, fun hmem => absurd hmem hj, hhead⟩
    · rw [horder, hsplit]; simp
    · rcases List.mem_append.1 hc with hc' | hc'
      · exact hrest c (List.mem_append_left _ hc')
      · rcases List.mem_cons.1 hc' with rfl | hc'
        · exact hrest c (by simp)
        · rcases List.mem_append.1 hc' with hc' | hc'
          · exact hrest c (by simp [hc'])
          · cases List.mem_singleton.1 hc'; exact fun hu => hj ((hunder j).1 hu)

theorem Facts.visit (h : Facts st home path g) (hunder : ∀ j, Under home j b ↔ j ∈ path)
    (hfirst : ∀ j ∈ path, ∀ e r, (g.block j).exit = some (.jsr e r) → e = b ∨ e ∈ g.order.toList) :
    Facts st home path (g.visit b) := by
  have hgrows := grows_visit (g := g) (b := b) home
  have hexit : ∀ c, ((g.visit b).block c).exit = (g.block c).exit :=
    Graph.proj_visit Block.exit fun _ => rfl
  have hqueued : ∀ c, ((g.visit b).block c).queued = (g.block c).queued :=
    Graph.proj_visit Block.queued fun _ => rfl
  refine ⟨fun c hc => ?_, fun c t hx => ?_, fun c t hx => ?_, fun k e r hx hne => ?_,
    fun k e r hx => ?_, fun c hq hsite => ?_, fun j e r hx => ?_, ?_, ?_⟩
  · exact (h.settled c (hexit c ▸ hc)).grows hgrows
  · rw [hexit] at hx
    rw [hqueued]
    exact h.returned c t hx
  · exact (h.kept c t (hexit c ▸ hx)).grows hgrows
  · rw [Graph.body_visit] at hne
    exact (h.apart k e r (hexit k ▸ hx) hne).grows (Graph.lt_of_body_ne_nil hne) (fun _ hj => hj) hgrows
  · rw [hexit] at hx
    obtain ⟨_, _, _, _, _, hleads, -⟩ := (h.settled k (by rw [hx]; rfl)).call hx
    exact (h.unentered k e r hx).grows hleads.1.lt (fun _ hj => hj) hgrows
  · rw [hqueued] at hq
    have hlt := Graph.lt_of_queued hq
    exact (h.origin c hq (hgrows.site hlt ▸ hsite)).grows hlt hgrows
  · rw [hexit] at hx
    obtain ⟨i, -, -, t, -, hleads, -⟩ := (h.settled j (by rw [hx]; rfl)).call hx
    exact (h.segments j e r hx).push hunder (fun hj => hfirst j hj e r hx) (.copied hleads.1.home_eq)
  · exact h.unlock.imp id fun hunlock x hx ht d hd => (hqueued d).trans (hunlock x hx ht d hd)
  · obtain ⟨c, hc, hleads⟩ := h.start
    exact ⟨c, hc, hleads.grows hgrows⟩

/-- A subroutine is left once it is known to come back to a block that is queued, or never. -/
theorem Facts.leave (h : Facts st home (j :: path) g)
    (hback : ∀ b t, home b = some j → (g.block b).exit = some (.ret t) →
      (g.block t).queued = true) : Facts st home path g where
  settled := h.settled
  returned b t hx := by
    obtain ⟨k, hk, hdone⟩ := h.returned b t hx
    refine ⟨k, hk, ?_⟩
    rcases hdone with hmem | hq
    · rcases List.mem_cons.1 hmem with rfl | hmem
      · exact .inr (hback b t hk hx)
      · exact .inl hmem
    · exact .inr hq
  kept := h.kept
  apart := h.apart
  unentered := h.unentered
  origin := h.origin
  segments k e r hx :=
    (h.segments k e r hx).congr rfl (fun _ _ => Iff.rfl) fun hk => List.mem_cons_of_mem _ hk
  unlock := .inr (h.unlock.resolve_left (by simp))
  start := h.start

end
end BlockGraph
