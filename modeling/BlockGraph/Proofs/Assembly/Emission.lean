import BlockGraph.Proofs.Assembly.Invariant

/-!
# Emitting an instruction

The first half of parsing an instruction: its handlers are linked (`Inv.guard`), it is put into the open
block, and if it is a store the local of the return address is tracked (`Guarded.append`,
`Guarded.store`).
-/

namespace BlockGraph

open Assembly

variable {st : Setting} {home home' : Homes} {path : List BlockId} {s t : Assembly} {g g' : Graph}
  {b : BlockId} {bci : Nat} {before : List Insn} {i : Insn} {call : Option BlockId} {c c' : Context}
  {bad : Fault → Assembly → Prop}

/-- What a context knows of its return address depends on the blocks of its own copy only. -/
theorem AddressKept.of_bodies (h : AddressKept st home g call c)
    (hhome : ∀ b, b < g.blocks.size → home' b = home b)
    (hbody : ∀ j b, call = some j → home' b = some j → g'.body b = g.body b)
    (hidle : c'.idle = c.idle) : AddressKept st home' g' call c' := by
  have hreturn : c'.returnLocal = c.returnLocal := (congrArg Context.returnLocal hidle :)
  have hnil : ∀ {b}, ¬ b < g.blocks.size → g.body b = [] := fun hb =>
    Graph.body_of_size_le (Nat.le_of_not_lt hb)
  constructor
  · intro hroot
    exact hreturn.trans (h.root hroot)
  · intro j sub n hj hsub hn
    obtain ⟨sub₀, hsub₀, hsame, -⟩ := Context.exists_subroutine hidle.symm hsub
    obtain ⟨hsaves, ⟨b, hb, hbegun⟩, hkeeps⟩ := h.kept j sub₀ n hj hsub₀ (hreturn ▸ hn)
    rw [hsame] at hsaves hkeeps
    have hb' : home' b = some j := (hhome b (Graph.lt_of_body_ne_nil hbegun)).trans hb
    refine ⟨hsaves, ⟨b, hb', hbody j b hj hb' ▸ hbegun⟩, fun b hb => ?_⟩
    by_cases hlt : b < g.blocks.size
    · exact (hkeeps b ((hhome b hlt).symm.trans hb)).of_body (hbody j b hj hb).symm
    · exact .of_nil ((hbody j b hj hb).trans (hnil hlt))
  · intro j sub n hj hsub hsaves
    obtain ⟨sub₀, hsub₀, hsame, -⟩ := Context.exists_subroutine hidle.symm hsub
    rw [← hsame] at hsaves ⊢
    rcases h.lost j sub₀ n hj hsub₀ hsaves with hn | hall | ⟨b, hb, hnot⟩
    · exact .inl (hreturn.trans hn)
    · refine .inr (.inl fun b hb => (hbody j b hj hb).trans ?_)
      by_cases hlt : b < g.blocks.size
      · exact hall b ((hhome b hlt).symm.trans hb)
      · exact hnil hlt
    · have hlt : b < g.blocks.size := by
        by_contra hlt
        exact hnot (.of_nil (hnil hlt))
      have hb' := (hhome b hlt).trans hb
      exact .inr (.inr ⟨b, hb', fun hkeeps => hnot (hkeeps.of_body (hbody j b hj hb'))⟩)

/-- Contexts that only looked for blocks keep what they know of their calls. -/
theorem CopiedAndQueued.calls {touched : Option BlockId} {new : List BlockId}
    (h : CopiedAndQueued touched new home s home' t) (hs : Nest (CallFits st home s.graph) s.chain path) :
    Nest (CallFits st home' t.graph) t.chain path :=
  hs.congr h.chain fun _ _ _ hidle hc => (hc.grows h.edits.grows).of_idle hidle

theorem CopiedAndQueued.addresses {touched : Option BlockId} {new : List BlockId}
    (h : CopiedAndQueued touched new home s home' t) (hbody : ∀ b, t.graph.body b = s.graph.body b)
    (hs : Nest (AddressKept st home s.graph) s.chain path) :
    Nest (AddressKept st home' t.graph) t.chain path :=
  hs.congr h.chain fun _ _ _ hidle hc =>
    hc.of_bodies h.edits.grows.home_eq (fun _ b _ _ => hbody b) hidle

theorem CopiedAndQueued.cursor {touched : Option BlockId} {new : List BlockId} {p : Cursor}
    (h : CopiedAndQueued touched new home s home' t) (hs : ∀ c ∈ s.chain.head?, c.cursor = p) :
    ∀ c ∈ t.chain.head?, c.cursor = p := by
  intro c hc
  have hchain := congrArg List.head? h.chain
  rw [List.head?_map, List.head?_map, hc] at hchain
  obtain ⟨c₀, hc₀, hidle⟩ := Option.map_eq_some_iff.1 hchain.symm
  have hcursor : c₀.cursor = c.cursor := (congrArg Context.cursor hidle :)
  rw [← hcursor]
  exact hs c₀ hc₀

/-- While a block is open the subroutines of the path have begun. -/
theorem Core.visited_entry (h : Core st home path s) (hb : s.current = some b) {j e r : BlockId}
    (hj : j ∈ path) (hx : (s.graph.block j).exit = some (.jsr e r)) :
    (s.graph.block e).visited = true := by
  rcases h.started j hj e r hx with hv | ⟨-, hcurrent, -⟩
  · exact hv
  · rw [hb] at hcurrent
    cases hcurrent

theorem Core.origin_open {l m : List Insn} (h : Core st home path s)
    (hh : Holds st home path s b bci before i l m) : Origin home s.graph b :=
  h.facts.origin b (h.base.queue.queued b (h.base.queue.current b hh.current).1) fun hs => by
    rw [hh.lies.site] at hs; cases hs

/-! ## Linking handlers -/

theorem Inv.guard (h : Inv st home path s) (hh : Holds st home path s b bci before i before before) :
    Yields (linkHandlers b i.bci) s (fun _ t => Guarded st home path t b bci before i) bad := by
  refine (linkHandlers_spec h.base h.calls hh.current h.facts.unlock).mono ?_ fun _ _ hb => hb
  rintro - t ⟨hbase, ⟨new, hsched, hnew⟩, hbody, hcomplete, hold, hsound, hlisted⟩
  have hedits := hsched.edits
  have hgrows := hedits.grows
  have hcurrent : t.current = some b := hsched.current.trans hh.current
  have hexit := (hbase.queue.current b hcurrent).2
  rw [← hh.lies.home_eq] at hcomplete hsound hlisted
  have hcaught : Caught st home t.graph b (before ++ [i]) :=
    hh.caught.link hbase.laid hgrows hcomplete hold hsound hlisted
  have hunlock : ∀ x ∈ st.handlers, x.target = .unlock → ∀ d, x.entry = some d →
      (t.graph.block d).queued = true := by
    intro x hx ht d hd
    obtain ⟨d', -, hq, hcatches⟩ := hcomplete x hx
      (st.unlock_protects hx ht (Survey.bci_lt st.surveyed hh.stretch.mem))
    rw [Catches, ht] at hcatches
    rw [hd] at hcatches
    cases hcatches.1
    exact hq
  refine ⟨⟨hbase, ?_, hsched.calls h.calls, ?_, fun j hj e r hx => .inl ?_⟩, ?_, hunlock⟩
  · refine h.facts.edit h.base.laid h.base.range hedits (fun _ hj => hj) (fun _ hj => .inl hj)
      (fun _ => .inr hunlock) (fun d hd hsite => ?_) (fun k e r he _ hnil hne => ?_) fun c x hc hx => ?_
    · have horigin := (h.origin_open hh).grows hh.lies.lt hgrows
      have hd := hnew d hd
      refine horigin.step (.inr (.inl hd)) ?_
      obtain ⟨-, x, -, k, -, -, hcatches⟩ := hcaught.sound d hd
      cases ht : x.target with
      | code t => rw [Catches, ht] at hcatches; exact hcatches.home_eq
      | unlock => rw [hcatches.site, ht] at hsite; exact absurd rfl hsite
    · cases he; exact absurd (hbody.trans hnil) hne
    · cases hc; rw [hexit] at hx; cases hx
  · refine hsched.addresses (fun c => ?_) h.addresses
    by_cases hc : b = c
    · rw [← hc, hbody]
    · exact hedits.body c fun he => hc (Option.some.inj he)
  · have hjb : some b ≠ some j := by
      intro he
      cases he; rw [hexit] at hx; cases hx
    rw [hedits.exit j hjb] at hx
    exact hgrows.visited e (h.visited_entry hh.current hj hx)
  · exact ⟨hcurrent, hgrows.liesAt hh.lies, hh.stretch, hbody.trans hh.body, hcaught,
      hsched.cursor hh.cursor, hedits.order ▸ hh.last⟩

/-! ## Appending -/

/-- The instruction is put into the open block, after which the local of the return address is
`kept`. -/
theorem Guarded.emit (h : Guarded st home path s b bci before i) {c : Context} {outer : List Context}
    (hchain : s.chain = c :: outer) (kept : Option Nat) (log : Array Event)
    (haddress : AddressKept st home (s.graph.append b (.code i.bci) i.opcode).2 path.head?
      { c with returnLocal := kept })
    (hapart : ∀ k r, (s.graph.block k).exit = some (.jsr b r) → before = [] →
      Apart st home (s.graph.append b (.code i.bci) i.opcode).2 k b) :
    Emitted st home path { appendInstr b (.code i.bci) i.opcode s with
      log := log, chain := { c with returnLocal := kept } :: outer } b bci before i := by
  have hh := h.holds
  obtain ⟨hbase, hedits, hbody⟩ := h.base.append hh.current (.code i.bci) i.opcode
  have hgrows := hedits.grows
  have hexit := (hbase.queue.current b hh.current).2
  have hhandlers : ((appendInstr b (.code i.bci) i.opcode s).graph.block b).handlers =
      (s.graph.block b).handlers := by
    show ((s.graph.append b _ _).2.block b).handlers = _
    rw [Graph.block_append]
    split <;> rfl
  have hcalls : Nest (CallFits st home (appendInstr b (.code i.bci) i.opcode s).graph) (c :: outer) path :=
    (hchain ▸ h.calls).imp fun _ _ hc => hc.grows hgrows
  refine ⟨⟨hbase.rechain rfl rfl rfl ?_ ?_, ?_, hcalls.setHead ⟨hcalls.head.root, hcalls.head.called⟩, ?_,
    fun j hj e r hx => .inl ?_⟩, ?_, fun x hx ht d hd => hgrows.queued d (h.unlock x hx ht d hd)⟩
  · show _ = s.chain.map Context.place
    rw [hchain]; rfl
  · show _ = s.chain.map (·.agenda)
    rw [hchain]; rfl
  · refine h.facts.edit h.base.laid h.base.range hedits (fun _ hj => hj) (fun _ hj => .inl hj)
      (fun _ => .inr fun x hx ht d hd => hgrows.queued d (h.unlock x hx ht d hd)) (by simp)
      (fun k e r he hx hnil _ => ?_) fun d x hd hx => ?_
    · cases he
      exact hapart k r hx (List.map_eq_nil_iff.1 (hh.body.symm.trans hnil))
    · cases hd; rw [hexit] at hx; cases hx
  · have hnodup := h.base.linked.nodup h.base.laid.lt_of_home
    refine (hchain ▸ h.addresses).replace hnodup haddress fun call c' hcall hc' =>
      hc'.of_bodies (fun _ _ => rfl) (fun j d hj hd => hedits.body d fun he => ?_) rfl
    cases he
    exact hcall (hj.trans (hd.symm.trans hh.lies.home_eq))
  · have hjb : some b ≠ some j := by
      intro he
      cases he
      have hx' : ((appendInstr b (.code i.bci) i.opcode s).graph.block b).exit = some (.jsr e r) := hx
      rw [hexit] at hx'; cases hx'
    exact hgrows.visited e (h.visited_entry hh.current hj ((hedits.exit j hjb).symm.trans hx))
  · refine ⟨hh.current, hgrows.liesAt hh.lies, hh.stretch, ?_, hh.caught.grows hh.lies.lt hgrows hhandlers,
      fun c' hc' => ?_, hedits.order ▸ hh.last⟩
    · refine hbody.trans ?_
      rw [hh.body, List.map_append]; rfl
    · cases hc'
      exact hh.cursor c (by rw [hchain]; rfl)

/-- A block that kept a local keeps it unless the instruction writes it. -/
theorem Guarded.keepsLocal (h : Guarded st home path s b bci before i) {entry n : Nat} {d : BlockId}
    (hkept : KeepsLocal st s.graph entry n d)
    (hi : d = b → i.bci = entry ∨ ¬ Overwrites st.method.code i.bci n) :
    KeepsLocal st (s.graph.append b (.code i.bci) i.opcode).2 entry n d := by
  obtain ⟨-, hedits, hbody⟩ := h.base.append h.holds.current (.code i.bci) i.opcode
  intro k hk pos hsite hpos
  by_cases hdb : d = b
  · subst hdb
    have hk : k ∈ s.graph.body d ++ [_] := hbody ▸ hk
    rcases List.mem_append.1 hk with hk | hk
    · exact hkept k hk pos hsite hpos
    · cases List.mem_singleton.1 hk
      cases hsite
      exact (hi rfl).resolve_left hpos
  · have hk : k ∈ s.graph.body d := hedits.body d (fun he => hdb (Option.some.inj he).symm) ▸ hk
    exact hkept k hk pos hsite hpos

/-- A block that has overwritten a local has done so whatever comes after. -/
theorem Guarded.not_keepsLocal (h : Guarded st home path s b bci before i) {entry n : Nat} {d : BlockId}
    (hnot : ¬ KeepsLocal st s.graph entry n d) :
    ¬ KeepsLocal st (s.graph.append b (.code i.bci) i.opcode).2 entry n d := fun hkeeps =>
  hnot (hkeeps.mono fun _ hk => Graph.mem_body_append h.base.range h.holds.lies.lt hk)

/-- Once an instruction has been put into the open block, something of the copy has been parsed. -/
theorem Guarded.begun (h : Guarded st home path s b bci before i) {j : BlockId}
    (hj : path.head? = some j) :
    ∃ d, home d = some j ∧ (s.graph.append b (.code i.bci) i.opcode).2.body d ≠ [] := by
  refine ⟨b, h.holds.lies.home_eq.trans hj, ?_⟩
  rw [Graph.body_append_self h.base.range h.holds.lies.lt]
  simp

/-! ## The local of the return address -/

/-- Only the instruction at an index tells whether that saves a return address. -/
theorem Holds.storesReference {l m : List Insn} (h : Holds st home path s b bci before i l m) {n : Nat}
    (hsaves : Saves st.method.code i.bci n) :
    i.opcode.storesReference = true ∧ (i.cursor st.method.code).localSlot = .ok n := by
  obtain ⟨i', hread, hstores, hslot⟩ := hsaves
  rw [st.read_of_mem h.stretch.mem] at hread
  cases hread
  exact ⟨hstores, hslot⟩

/-- As long as nothing of a copy has been parsed, the instruction under the cursor is the first one. -/
theorem Core.bci_eq_entry (h : Core st home path s) {m : List Insn}
    (hh : Holds st home path s b bci before i before m) {c : Context} {outer : List Context}
    (hchain : s.chain = c :: outer) {j : BlockId} {sub : Subroutine} (hj : path.head? = some j)
    (hsub : c.subroutine = some sub) (hnil : ∀ d, home d = some j → s.graph.body d = []) :
    i.bci = sub.entry := by
  obtain ⟨sub', e, r, -, hsub', hexit, -, hlies, -⟩ := (hchain ▸ h.calls).head.called j hj
  rw [hsub] at hsub'; cases hsub'
  have hv := h.visited_entry hh.current (List.mem_of_mem_head? hj) hexit
  rcases h.base.queue.closed e hv with hclosed | hcurrent
  · exact absurd (hnil e hlies.home_eq) (h.facts.settled e hclosed).body_ne_nil
  · rw [hh.current] at hcurrent
    cases hcurrent
    have hbefore : before = [] :=
      List.map_eq_nil_iff.1 (hh.body.symm.trans (hnil b (hh.lies.home_eq.trans hj)))
    have hbci : bci = i.bci := (hbefore ▸ hh.stretch).eq_of_nil
    exact hbci.symm.trans (Site.code.inj (hh.lies.site.symm.trans hlies.site))

/-- Unless the first instruction of a subroutine is put into the open block, a return address that has been
stored is still on record, or its local has been overwritten. -/
theorem Guarded.lost (h : Guarded st home path s b bci before i) {c : Context} {outer : List Context}
    (hchain : s.chain = c :: outer) {j : BlockId} {sub : Subroutine} {n : Nat}
    (hj : path.head? = some j) (hsub : c.subroutine = some sub)
    (hfirst : ¬ (i.bci = sub.entry ∧ i.opcode.storesReference = true))
    (hsaves : Saves st.method.code sub.entry n) : c.returnLocal = some n ∨ ∃ d, home d = some j ∧
      ¬ KeepsLocal st (s.graph.append b (.code i.bci) i.opcode).2 sub.entry n d := by
  rcases (hchain ▸ h.addresses).head.lost j sub n hj hsub hsaves with hn | hnil | ⟨d, hd, hnot⟩
  · exact .inl hn
  · have hentry := h.bci_eq_entry h.holds hchain hj hsub hnil
    exact absurd ⟨hentry, (h.holds.storesReference (hentry ▸ hsaves)).1⟩ hfirst
  · exact .inr ⟨d, hd, h.not_keepsLocal hnot⟩

/-- All subroutines of a chain are of the same scope, and only the last context is for none. -/
theorem mem_subroutinesOf {chain : List Context} {c : Context}
    (h : Nest (ContextFits st home g) chain path) (hc : c ∈ chain) (hsub : c.isSubroutine = true) :
    c ∈ Chain.subroutinesOf 0 chain := by
  induction h with
  | root hfits =>
    cases List.mem_singleton.1 hc
    simp [Context.isSubroutine, hfits.root rfl] at hsub
  | @call d outer j path hfits _ ih =>
    obtain ⟨sub, hd, -⟩ := hfits.copies j rfl
    have hhead : Chain.subroutinesOf 0 (d :: outer) = d :: Chain.subroutinesOf 0 outer := by
      simp [Chain.subroutinesOf, Context.isSubroutine, hd, hfits.scope]
    rw [hhead]
    rcases List.mem_cons.1 hc with rfl | hc
    · exact List.mem_cons_self
    · exact List.mem_cons_of_mem _ (ih hc)

/-- While a block is open, what has been parsed of the copies around it is closed, and was parsed before. -/
theorem Guarded.closed_around (h : Guarded st home path s b bci before i) {j d : BlockId}
    (hj : path.head? ≠ some j) (hv : (s.graph.block d).visited = true) (hd : home d = some j) :
    (s.graph.block d).exit.isSome = true ∧ ∃ pre, s.graph.order.toList = pre ++ [b] ∧ d ∈ pre := by
  have hh := h.holds
  have hne : d ≠ b := by
    rintro rfl
    exact hj (hh.lies.home_eq.symm.trans hd)
  constructor
  · refine (h.base.queue.closed d hv).resolve_right fun hcurrent => ?_
    rw [hh.current] at hcurrent
    exact hne (Option.some.inj hcurrent).symm
  · obtain ⟨pre, hlast⟩ := hh.last
    have hmem := (h.base.queue.mem_order d).2 hv
    rw [hlast] at hmem
    exact ⟨pre, hlast, (List.mem_append.1 hmem).resolve_right fun hd => hne (List.mem_singleton.1 hd)⟩

/-- A subroutine begins with an instruction that stores the return address where none around it keeps its
own. -/
theorem Guarded.apart (h : Guarded st home path s b bci before i) {c : Context} {outer : List Context}
    (hchain : s.chain = c :: outer)
    (hfree : ∀ sub n, c.subroutine = some sub → i.bci = sub.entry → Saves st.method.code i.bci n →
      Chain.enclosingKeeps (c :: outer) n = false) {k r : BlockId}
    (hx : (s.graph.block k).exit = some (.jsr b r)) (hbefore : before = []) :
    Apart st home (s.graph.append b (.code i.bci) i.opcode).2 k b := by
  intro j hj
  have hh := h.holds
  obtain ⟨-, hedits, -⟩ := h.base.append hh.current (.code i.bci) i.opcode
  have hgrows := hedits.grows
  obtain ⟨_, _, _, _, _, hleads, -⟩ := (h.facts.settled k (by rw [hx]; rfl)).call hx
  have hhead : path.head? = some k := hh.lies.home_eq.symm.trans hleads.1.home_eq
  obtain ⟨path, rfl⟩ := List.head?_eq_some_iff.1 hhead
  have hbci : bci = i.bci := (hbefore ▸ hh.stretch).eq_of_nil
  -- the call `j` is one of those around
  have hmem : j ∈ path := (h.base.linked.2.2.under_iff h.base.linked.2.1).1 hj
  have hne : some k ≠ some j := fun he =>
    (List.nodup_cons.1 (h.base.linked.nodup h.base.laid.lt_of_home)).1 (Option.some.inj he ▸ hmem)
  obtain ⟨d, hd, hcalls, haddress⟩ :=
    ((hchain ▸ h.calls).tail.and (hchain ▸ h.addresses).tail).exists_of_mem hmem
  obtain ⟨sub', e', r', -, hsub', hexit', -, hlies', -⟩ := hcalls.called j rfl
  refine ⟨e', r', sub'.entry, hgrows.exit j _ hexit', hgrows.liesAt hlies', fun pos n hsite hsaves hsaves' => ?_⟩
  obtain rfl : i.bci = pos := by
    have hsame := (hgrows.site hh.lies.lt).symm.trans hsite
    rw [hh.lies.site, hbci] at hsame
    exact Site.code.inj hsame
  have hkept : d.returnLocal ≠ some n := by
    intro hn
    obtain ⟨sub, _, _, -, hsub, hexit, -, hlies, -⟩ := (hchain ▸ h.calls).head.called k rfl
    rw [hx] at hexit
    cases hexit
    have hentry : i.bci = sub.entry :=
      hbci.symm.trans (Site.code.inj (hh.lies.site.symm.trans hlies.site))
    have hscope : c.scope = 0 := (hchain ▸ h.base.contexts).head.scope
    have hfalse := hfree sub n hsub hentry hsaves
    rw [Chain.enclosingKeeps, hscope, List.any_eq_false] at hfalse
    have hd := mem_subroutinesOf (hchain ▸ h.base.contexts).tail hd (by simp [Context.isSubroutine, hsub'])
    exact hfalse d hd (by simp [hn])
  rcases haddress.lost j sub' n rfl hsub' hsaves' with hn | hnil | ⟨x, hhome, hnot⟩
  · exact absurd hn hkept
  · have hv := h.visited_entry hh.current (List.mem_cons_of_mem _ hmem) hexit'
    have hsettled := h.facts.settled e' (h.closed_around hne hv hlies'.home_eq).1
    exact absurd (hnil e' hlies'.home_eq) hsettled.body_ne_nil
  · have hv : (s.graph.block x).visited = true := by
      refine Bool.not_eq_false _ ▸ fun hv => hnot (.of_nil (h.base.queue.fresh x hv).2.1)
    obtain ⟨hclosed, pre, hlast, hmem⟩ := h.closed_around hne hv hhome
    exact ⟨pre, [], hedits.order ▸ hlast, x, hmem, hgrows.isSome_exit hclosed, hhome,
      h.not_keepsLocal hnot⟩

/-- An instruction that does not begin the subroutine and does not write the local on record is put into
the open block. -/
theorem Guarded.emit_unchanged (h : Guarded st home path s b bci before i) {c : Context}
    {outer : List Context} (hchain : s.chain = c :: outer)
    (hfirst : ∀ sub, c.subroutine = some sub →
      ¬ (i.bci = sub.entry ∧ i.opcode.storesReference = true))
    (hkeeps : ∀ sub n, c.subroutine = some sub → c.returnLocal = some n →
      ¬ Overwrites st.method.code i.bci n) :
    Emitted st home path (appendInstr b (.code i.bci) i.opcode s) b bci before i := by
  have haddress := (hchain ▸ h.addresses).head
  have hemit := h.emit hchain c.returnLocal s.log ⟨haddress.root, fun j sub n hj hsub hn =>
      (haddress.kept j sub n hj hsub hn).imp_right fun ⟨_, hkept⟩ => ⟨h.begun hj, fun d hd =>
        h.keepsLocal (hkept d hd) fun _ => .inr (hkeeps sub n hsub hn)⟩,
      fun j sub n hj hsub hsaves => (h.lost hchain hj hsub (hfirst sub hsub) hsaves).imp id .inr⟩
    fun k r hx hbefore => h.apart hchain (fun sub n hsub hentry hsaves =>
      absurd ⟨hentry, (h.holds.storesReference hsaves).1⟩ (hfirst sub hsub)) hx hbefore
  have hsame : { appendInstr b (.code i.bci) i.opcode s with
      log := s.log, chain := { c with returnLocal := c.returnLocal } :: outer } =
        appendInstr b (.code i.bci) i.opcode s := by
    rw [← hchain]; rfl
  exact hsame ▸ hemit

/-- An instruction that writes no local is put into the open block. -/
theorem Guarded.append (h : Guarded st home path s b bci before i)
    (hi : i.opcode.writtenSlots? = none) :
    Emitted st home path (appendInstr b (.code i.bci) i.opcode s) b bci before i := by
  obtain ⟨c, outer, hchain⟩ := h.base.contexts.exists_cons
  refine h.emit_unchanged hchain (fun _ _ hfirst => ?_) fun _ n _ _ => ?_
  · have hwrites := Opcode.writes_of_storesReference hfirst.2
    rw [hi] at hwrites; cases hwrites
  · rintro ⟨i', width, slot, hread, hwidth, -⟩
    rw [st.read_of_mem h.holds.stretch.mem] at hread; cases hread
    rw [hi] at hwidth; cases hwidth

/-! ## Tracking the return address -/

/-- At the beginning of a subroutine nothing else of its copy has been parsed. -/
theorem Guarded.body_eq_nil (h : Guarded st home path s b bci before i) {c : Context}
    {outer : List Context} (hchain : s.chain = c :: outer) {j : BlockId} {sub : Subroutine}
    (hj : path.head? = some j) (hsub : c.subroutine = some sub) (hentry : i.bci = sub.entry) :
    ∀ d, home d = some j → s.graph.body d = [] := by
  have hh := h.holds
  obtain ⟨sub', e, r, -, hsub', hexit, -, hlies, -, -⟩ := (hchain ▸ h.calls).head.called j hj
  rw [hsub] at hsub'; cases hsub'
  obtain ⟨hbefore, hbci⟩ := hh.stretch.eq_nil_of_start (hentry ▸ h.base.laid.mem_starts hlies)
  have hbe : b = e := h.base.laid.unique (hj ▸ hh.lies) (hbci ▸ hentry ▸ hlies)
  subst hbe
  intro d hd
  by_cases hv : (s.graph.block d).visited = true
  · have hdb : d = b := (h.facts.segments j b r hexit).eq_of_copied (List.mem_of_mem_head? hj)
      hlies.home_eq hh.last h.base.queue.nodup ((h.base.queue.mem_order d).2 hv) hd
    rw [hdb, hh.body, hbefore]
    rfl
  · exact (h.base.queue.fresh d (by simpa using hv)).2.1

/-- A store is put into the open block and the local of the return address is tracked, unless an
enclosing subroutine keeps its own there. -/
theorem Guarded.store (h : Guarded st home path s b bci before i) {width slot : Nat}
    (hwidth : i.opcode.writtenSlots? = some width)
    (hslot : (i.cursor st.method.code).localSlot = .ok slot) :
    Yields (trackStore i.opcode i.bci slot width) (appendInstr b (.code i.bci) i.opcode s)
      (fun _ t => Emitted st home path t b bci before i) st.Ends := by
  obtain ⟨c, outer, hchain⟩ := h.base.contexts.exists_cons
  have hchain' : (appendInstr b (.code i.bci) i.opcode s).chain = c :: outer := hchain
  have hread := st.read_of_mem h.holds.stretch.mem
  cases hsub : c.subroutine with
  | none =>
    simp only [Yields, trackStore, hchain', hsub]
    refine h.emit_unchanged hchain (fun sub hsub' => ?_) fun sub n hsub' => ?_
    all_goals rw [hsub] at hsub'; cases hsub'
  | some sub =>
    simp only [Yields, trackStore, hchain', hsub]
    by_cases hfirst : i.bci = sub.entry ∧ i.opcode.storesReference = true
    · simp only [if_pos hfirst]
      by_cases henclosing : Chain.enclosingKeeps (c :: outer) slot = true
      · simp only [if_pos henclosing]
        exact ⟨.bailout _, ((h.base.append h.holds.current (.code i.bci) i.opcode).1.note _).within⟩
      · simp only [if_neg henclosing]
        have hslot_eq : ∀ {n}, Saves st.method.code i.bci n → slot = n := fun hsaves =>
          Except.ok.inj (hslot.symm.trans (h.holds.storesReference hsaves).2)
        refine hsub ▸ h.emit hchain (some slot) _ ⟨fun hroot => ?_, fun j sub' n hj hsub' hn => ?_,
          fun j sub' n hj hsub' hsaves => ?_⟩ fun k r hx hbefore => h.apart hchain
            (fun _ n _ _ hsaves => hslot_eq hsaves ▸ Bool.not_eq_true _ ▸ henclosing) hx hbefore
        · have hcontexts := hchain ▸ h.base.contexts
          rw [hcontexts.head.root hroot] at hsub; cases hsub
        · rw [hsub] at hsub'; cases hsub'
          cases hn
          refine ⟨⟨i, hfirst.1 ▸ hread, hfirst.2, hslot⟩, h.begun hj, fun d hd =>
            h.keepsLocal (.of_nil (h.body_eq_nil hchain hj hsub hfirst.1 d hd)) fun _ => .inl hfirst.1⟩
        · rw [hsub] at hsub'; cases hsub'
          exact .inl (congrArg some (hslot_eq (hfirst.1.symm ▸ hsaves)))
    · simp only [if_neg hfirst]
      have hfirst' : ∀ sub', c.subroutine = some sub' →
          ¬ (i.bci = sub'.entry ∧ i.opcode.storesReference = true) := by
        intro sub' hsub'
        rw [hsub] at hsub'; cases hsub'
        exact hfirst
      by_cases hlost : c.returnLocal.any (overwrites slot width) = true
      · simp only [if_pos hlost]
        refine hsub ▸ h.emit hchain none _ ⟨fun _ => rfl, fun j sub' n _ _ hn => (by cases hn),
          fun j sub' n hj hsub' hsaves => .inr (.inr ?_)⟩ fun k r hx hbefore => h.apart hchain
            (fun sub' n hsub' hentry hsaves =>
              absurd ⟨hentry, (h.holds.storesReference hsaves).1⟩ (hfirst' sub' hsub')) hx hbefore
        rw [hsub] at hsub'; cases hsub'
        rcases h.lost hchain hj hsub hfirst hsaves with hn | hnot
        · -- the instruction overwrites the local that was on record
          refine ⟨b, h.holds.lies.home_eq.trans hj, fun hkeeps => ?_⟩
          rw [hn] at hlost
          refine hkeeps (i.inBlock b) ?_ i.bci rfl (fun hentry => hfirst ⟨hentry, ?_⟩)
            ⟨i, width, slot, hread, hwidth, hslot, by simpa [overwrites] using hlost⟩
          · rw [Graph.body_append_self h.base.range h.holds.lies.lt]
            exact List.mem_append_right _ (List.mem_singleton_self _)
          · exact (h.holds.storesReference (hentry ▸ hsaves)).1
        · exact hnot
      · simp only [if_neg hlost]
        refine h.emit_unchanged hchain hfirst' fun sub' n hsub' hn => ?_
        rintro ⟨i', width', slot', hread', hwidth', hslot', hover⟩
        rw [hread] at hread'; cases hread'
        rw [hwidth] at hwidth'; cases hwidth'
        rw [hslot] at hslot'; cases hslot'
        rw [hn] at hlost
        exact hlost (by simpa [overwrites] using hover)

end BlockGraph
