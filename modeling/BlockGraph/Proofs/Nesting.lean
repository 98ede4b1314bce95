import BlockGraph.Proofs.Faults
import BlockGraph.Proofs.ReturnAddress

/-!
# Return addresses of nested subroutines

A subroutine that is called inside another one may store its return address in the same local. When its
first instruction is about to do that while the local is on record, the method is refused. No other store of
a nested subroutine is checked against the records of the subroutines around it: it overwrites a return
address unnoticed, and the `ret` that comes after it is accepted. First instructions too may come before that
`ret` in control flow, if they are parsed after the outer subroutine has overwritten the local itself
(`nested_overwrites_local` has a method of each kind). Main statement: `nested_addresses_apart`.
-/

namespace BlockGraph

open Assembly

variable {m : Method} {pool : ConstantPool} {o : Options} {st : Setting} {home : Homes}
  {path : List BlockId} {g : Graph} {s t : Assembly} {b e j r : BlockId} {n : Nat}

/-! ## Refused first instructions -/

/-- The instruction under the cursor is the first one of the innermost subroutine, and it would store the
return address where a subroutine around it keeps its own. -/
def Assembly.Clobbers (s : Assembly) : Prop :=
  s.current.isSome = true ∧ ∃ c ∈ s.chain.head?, ∃ sub ∈ c.subroutine,
    c.cursor.position = sub.entry ∧ c.cursor.opcode.storesReference = true ∧
      ∃ slot ∈ c.cursor.localSlot.toOption, ∃ d ∈ s.chain.tail,
        d.isSubroutine = true ∧ d.returnLocal = some slot

instance (s : Assembly) : Decidable s.Clobbers := inferInstanceAs (Decidable (_ ∧ _))

/-- Around the innermost context a subroutine keeps its return address in a local. -/
theorem enclosingKeeps_of_mem {c d : Context} {outer : List Context} {slot : Nat}
    (h : Nest (ContextFits st home g) (c :: outer) path) (hd : d ∈ outer)
    (hsub : d.isSubroutine = true) (hlocal : d.returnLocal = some slot) :
    Chain.enclosingKeeps (c :: outer) slot = true := by
  have hscope := h.head.scope
  cases h with
  | root _ => cases hd
  | call _ hrest =>
    rw [Chain.enclosingKeeps, hscope, List.any_eq_true]
    exact ⟨d, mem_subroutinesOf hrest hd hsub, by simp [hlocal]⟩

/-- What only looks for blocks leaves that as it is. -/
theorem CopiedAndQueued.enclosingKeeps {home' : Homes} {touched : Option BlockId} {new : List BlockId}
    {c d : Context} {outer : List Context} {slot : Nat} (h : CopiedAndQueued touched new home s home' t)
    (hbase : Base st home' path t) (hchain : s.chain = c :: outer) (hd : d ∈ outer)
    (hsub : d.isSubroutine = true) (hlocal : d.returnLocal = some slot) :
    Chain.enclosingKeeps t.chain slot = true := by
  have hidle := h.chain
  rw [hchain, List.map_cons] at hidle
  obtain ⟨c', outer', hchain', -, htail⟩ := List.map_eq_cons_iff.1 hidle
  obtain ⟨d', hd', hsame⟩ := List.mem_map.1 (htail ▸ List.mem_map_of_mem hd)
  obtain ⟨sub, hsub⟩ := Option.isSome_iff_exists.1 hsub
  obtain ⟨sub', hsub', -⟩ := Context.exists_subroutine hsame hsub
  have hlocal' : d'.returnLocal = d.returnLocal := (congrArg Context.returnLocal hsame :)
  rw [hchain']
  exact enclosingKeeps_of_mem (hchain' ▸ hbase.contexts) hd' (by rw [Context.isSubroutine, hsub']; rfl)
    (hlocal'.trans hlocal)

/-- The step that would store the return address is refused. -/
theorem Inv.refused (h : Inv st home path s) (hs : s.Clobbers) :
    Yields (Assembly.step m o) s (fun _ _ => False) fun fault _ =>
      fault = .bailout .addressOverwritten := by
  obtain ⟨hcurrent, c, hc, sub, hsub, hentry, hstores, slot, hslot, d, hd, hissub, hlocal⟩ := hs
  obtain ⟨b, hb⟩ := Option.isSome_iff_exists.1 hcurrent
  obtain ⟨outer, hchain⟩ := List.head?_eq_some_iff.1 hc
  obtain ⟨bci, before, i, hh⟩ := h.opened b hb
  have hcursor : c.cursor = i.cursor st.method.code := hh.cursor c hc
  rw [hcursor] at hentry hstores hslot
  have hslot : (i.cursor st.method.code).localSlot = .ok slot := by
    cases hread : (i.cursor st.method.code).localSlot with
    | error fault => rw [hread] at hslot; cases hslot
    | ok slot' => rw [hread] at hslot; cases hslot; rfl
  have hwrites := Opcode.writes_of_storesReference hstores
  obtain ⟨width, hwidth⟩ := Option.isSome_iff_exists.1 hwrites
  have hflow := Opcode.flow_of_writes hwrites
  rw [yields_step_some hb]
  unfold Assembly.parseInstr
  rw [yields_bind, yields_innermost hchain, hcursor]
  refine (linkHandlers_spec h.base h.calls hb h.facts.unlock).bind ?_
  rintro - t ⟨hbase, ⟨new, hsched, -⟩, -⟩
  -- the contexts are the same but for what waits in them
  rw [hchain, List.tail_cons] at hd
  have henclosing := hsched.enclosingKeeps hbase hchain hd hissub hlocal
  have hidle := hsched.chain
  rw [hchain, List.map_cons] at hidle
  obtain ⟨c', outer', hchain', hhead, -⟩ := List.map_eq_cons_iff.1 hidle
  obtain ⟨sub', hsub', hentry', -⟩ := Context.exists_subroutine hhead hsub
  rw [hchain'] at henclosing
  rw [yields_bind, yields_modify]
  simp only [hflow, hwidth]
  rw [yields_bind, yields_ofExcept, hslot]
  simp only
  rw [yields_bind]
  have hfirst : (i.cursor st.method.code).position = sub'.entry ∧
      (i.cursor st.method.code).opcode.storesReference = true := ⟨hentry.trans hentry'.symm, hstores⟩
  have happend : (appendInstr b (.code (i.cursor st.method.code).position)
      (i.cursor st.method.code).opcode t).chain = c' :: outer' := hchain'
  simp only [Yields, trackStore, happend, hsub', if_pos hfirst, if_pos henclosing]

/-! ## Runs -/

/-- When nothing is left to do, nothing more is done. -/
theorem Setting.Done.step_eq (h : st.Done t) : Assembly.step m o t = .ok true t := by
  obtain ⟨home, hinv, hcurrent, hwaiting⟩ := h
  have hcontexts := hinv.base.contexts
  obtain ⟨c, outer, hchain⟩ := hcontexts.exists_cons
  rw [hchain] at hcontexts hwaiting
  cases hcontexts
  have hentries : c.agenda.entries = [] := by simpa [Chain.waiting] using hwaiting
  have hyields : Yields (Assembly.step m o) t (fun done u => done = true ∧ u = t) fun _ _ => False := by
    rw [hinv.base.yields_step_nil hcurrent hchain hentries]
    simp [Yields, closeContext, hchain]
  cases hstep : Assembly.step m o t with
  | ok done u => obtain ⟨rfl, rfl⟩ := hyields.of_ok hstep; rfl
  | error fault u => exact (hyields.of_error hstep).elim

/-- A run that is refused from an assembly on the way is refused from the beginning. -/
theorem Method.Reaches.refused (h : m.Reaches pool o s)
    (hs : ∀ fuel, Yields (run m o fuel) s (fun _ _ => False) fun fault _ => ∃ why, fault = .bailout why) :
    ∃ why, build m pool o = .error (.bailout why) := by
  induction h with
  | @prepared s hprepare =>
    have hfails : Yields (assemble m pool o) {} (fun _ _ => False)
        fun fault _ => ∃ why, fault = .bailout why := by
      unfold assemble
      rw [yields_bind, Yields, hprepare]
      exact (hs _).bind fun _ _ h => h.elim
    obtain ⟨fault, -, hbuild, why, rfl⟩ := exists_build_error hfails
    exact ⟨why, hbuild⟩
  | @step s t done hreach hstep ih =>
    apply ih
    intro fuel
    cases fuel with
    | zero => exact ⟨_, rfl⟩
    | succ fuel =>
      obtain ⟨st, home, path, -, hinv⟩ := hreach.inv
      unfold run
      rw [yields_bind, Yields, hstep]
      cases done with
      | false => exact hs fuel
      | true =>
        -- then a run from `t` ends with an answer
        have hends := hs 1
        unfold run at hends
        rw [yields_bind, Yields, (hinv.step.of_ok hstep).step_eq] at hends
        exact hends.elim

/-! ## What is overwritten before the `ret` -/

/-- A block of the copy that starts with `e` holds an instruction, other than the first one of the
subroutine, that writes local `n`. -/
def Graph.Loses (g : Graph) (code : Array UInt8) (e : BlockId) (n : Nat) (b : BlockId) : Prop :=
  g.Reaches e b ∧ ∃ k ∈ g.body b, ∃ bci, k.site = .code bci ∧ k.site ≠ (g.block e).site ∧
    Overwrites code bci n

namespace Finished

variable (h : Finished st home g)
include h

/-- A `ret` in the copy of a call uses the local where the subroutine has stored its return address, and
what loses that comes later in the order of parsing. -/
theorem lost_after {c t : BlockId} (hcall : (g.block j).exit = some (.jsr e c)) (hr : g.Reaches e r)
    (hret : (g.block r).exit = some (.ret t)) (hn : g.EndsInRet st.method.code r n) :
    ∃ entry, (g.block e).site = .code entry ∧ Saves st.method.code entry n ∧
      ∀ b ∈ g.order.toList, home b = some j → ¬ KeepsLocal st g entry n b →
        ∃ pre mid post, g.order.toList = pre ++ r :: (mid ++ b :: post) := by
  obtain ⟨k, bci, i, n', j', e', c', entry, hlast, hsite, hread, hslot, hhome, hcall', hlies, hsaves, pre,
    post, horder, hkept⟩ := h.facts.kept r t hret
  obtain ⟨k', bci', i', hlast', hsite', hread', -, hslot'⟩ := hn
  -- both tell of the same instruction
  obtain rfl : k = k' := Option.some.inj (hlast.symm.trans hlast')
  obtain rfl : bci = bci' := Site.code.inj (hsite.symm.trans hsite')
  obtain rfl : i = i' := Except.ok.inj (hread.symm.trans hread')
  obtain rfl : n' = n := Except.ok.inj (hslot.symm.trans hslot')
  obtain rfl : j' = j := by
    have hj := (h.home_of_reaches hcall hr).2.resolve_right (h.site_ne_unlock hret (by simp))
    exact Option.some.inj (hhome.symm.trans hj)
  rw [hcall] at hcall'
  cases hcall'
  refine ⟨entry, hlies.site, hsaves, fun b hb hhome' hnot => ?_⟩
  rw [horder] at hb
  have hpre : b ∉ pre ++ [r] := fun hb => hnot ((hkept b hb).2 hhome')
  have hpost : b ∈ post := by
    simp only [List.mem_append, List.mem_cons, List.not_mem_nil, or_false, not_or] at hb hpre
    exact (hb.resolve_left hpre.1).resolve_left hpre.2
  obtain ⟨mid, post', rfl⟩ := List.append_of_mem hpost
  exact ⟨pre, mid, post', horder⟩

end Finished

/-- In a list without duplicates what comes after an element that comes after another one. -/
theorem split_of_before {l pre mid post pre' post' : List BlockId} {a b c : BlockId} (hl : l.Nodup)
    (hab : l = pre ++ a :: (mid ++ b :: post)) (hbc : l = pre' ++ c :: post') (hb : b ∈ pre') :
    ∃ mid', l = pre ++ a :: (mid ++ b :: (mid' ++ c :: post')) := by
  obtain ⟨x, y, rfl⟩ := List.append_of_mem hb
  have hsplit : (pre ++ a :: mid) ++ b :: post = x ++ b :: (y ++ c :: post') := by
    rw [List.append_assoc, List.cons_append, ← hab, hbc, List.append_assoc, List.cons_append]
  have hnodup : ((pre ++ a :: mid) ++ b :: post).Nodup := by
    rw [List.append_assoc, List.cons_append, ← hab]; exact hl
  have hnot := (List.nodup_cons.1 (List.perm_middle.nodup_iff.1 hnodup)).1
  rw [List.mem_append, not_or] at hnot
  obtain ⟨-, -, hpost⟩ := (List.append_cons_inj_of_notMem hnot.1 hnot.2).1 hsplit
  exact ⟨y, by rw [hab, hpost]⟩

/-- **Return addresses of nested subroutines are kept apart.** Let a `ret` of local `n` end block `r` in the
copy that starts with `e`. If a subroutine that is called in this copy, or in one nested in it, stores its
return address in `n` as well, with its first instruction, then the copy had lost its own before: a block of
the copy that overwrites `n` was parsed after `r` and before the first block `e'` of that subroutine.
And whenever a first instruction would overwrite a return address on record, the method is refused. -/
theorem nested_addresses_apart (m : Method) (pool : ConstantPool) (o : Options) :
    (∀ g, build m pool o = .ok g → ∀ j e c r t n, (g.block j).exit = some (.jsr e c) → g.Reaches e r →
      (g.block r).exit = some (.ret t) → g.EndsInRet m.code r n →
      ∀ k e' c' entry, g.ReachesBelow e k → (g.block k).exit = some (.jsr e' c') →
        (g.block e').site = .code entry → Saves m.code entry n →
          ∃ b, g.Loses m.code e n b ∧
            ∃ pre mid mid' post, g.order.toList = pre ++ r :: (mid ++ b :: (mid' ++ e' :: post))) ∧
    ∀ s, m.Reaches pool o s → s.Clobbers → ∃ why, build m pool o = .error (.bailout why) := by
  refine ⟨fun g hbuild j e c r t n hcall hr hret hn k e' c' entry hk hcall' hsite hsaves => ?_,
    fun s hreach hs => hreach.refused fun fuel => ?_⟩
  · obtain ⟨st, home, rfl, h⟩ := finished_of_build hbuild
    obtain ⟨entry₀, hsite₀, hsaves₀, hafter⟩ := h.lost_after hcall hr hret hn
    obtain ⟨he', -, -⟩ := h.call hcall'
    -- the call in `k` lies below the one in `j`
    have hunder : Under home j k :=
      (h.under_of_reachesBelow hcall hk).2.resolve_right (h.site_ne_unlock hcall' (by simp))
    have hnil := (h.settled he').body_ne_nil
    obtain ⟨e₁, c₁, entry₁, hcall₁, hlies, hlost⟩ := h.facts.apart k e' c' hcall' hnil j hunder
    rw [hcall] at hcall₁
    cases hcall₁
    obtain rfl : entry₀ = entry₁ := Site.code.inj (hsite₀.symm.trans hlies.site)
    obtain ⟨pre', post', horder', b, hb, -, hhome, hnot⟩ := hlost entry n hsite hsaves hsaves₀
    have hmem : b ∈ g.order.toList := by rw [horder']; exact List.mem_append_left _ hb
    obtain ⟨pre, mid, post, horder⟩ := hafter b hmem hhome hnot
    obtain ⟨mid', hsplit⟩ := split_of_before h.nodup horder horder' hb
    refine ⟨b, ⟨h.reaches_of_home hcall ((h.mem_order b).1 hmem) hhome, ?_⟩, pre, mid, mid', post', hsplit⟩
    simp only [KeepsLocal, not_forall, not_not] at hnot
    obtain ⟨i, hi, bci, hbci, hne, hover⟩ := hnot
    exact ⟨i, hi, bci, hbci, by rw [hbci, hsite₀]; simpa using hne, hover⟩
  · obtain ⟨st, home, path, -, hinv⟩ := hreach.inv
    cases fuel with
    | zero => exact ⟨_, rfl⟩
    | succ fuel =>
      unfold run
      exact yields_bind.2 ((hinv.refused hs).mono (fun _ _ h => h.elim) fun _ _ h => ⟨_, h⟩)

/-! ## Stores that no record tells of -/

/-- Its nested subroutine overwrites the return address of the outer one, but not with its first
instruction. -/
def innerStore : Method where
  name := "inner"
  code := #[0xa8, 0, 4, 0xb1, 0x4c, 0xa8, 0, 5, 0xa9, 1, 0x4d, 0x03, 0x3c, 0xa9, 2]

/-- Its subroutine branches to a `ret`, or overwrites its return address, calls a subroutine that stores its
own there, and goes back to the branch. -/
def innerEntry : Method where
  name := "late"
  code := #[0xa8, 0, 4, 0xb1, 0x4c, 0x03, 0x9a, 0, 5, 0xa9, 1, 0x03, 0x3c, 0xa8, 0, 6, 0xa7, 0xff, 0xf5,
    0x4c, 0xa9, 1]

theorem exists_build_innerEntry : ∃ g, build innerEntry {} {} = .ok g ∧
    (g.block 0).exit = some (.jsr 8 1) ∧ (g.block 8).exit = some (.goto 9) ∧
    (g.block 9).exit = some (.branch 10 11) ∧ (g.block 10).exit = some (.jsr 14 12) ∧
    (g.block 11).exit = some (.ret 1) ∧ (g.block 14).exit = some (.ret 12) ∧
    [8, 9, 10, 14, 12, 9, 11].IsChain (fun a b => b ∈ (g.block a).successors) ∧
    (g.block 14).site = .code 19 ∧ (g.body 11).getLast? = some ⟨.code 9, 0xa9, 11⟩ ∧
    ⟨.code 19, 0x4c, 14⟩ ∈ g.body 14 := by
  obtain ⟨g, hbuild, hgraph⟩ := exists_build_of_any innerEntry {} {}
    (fun g => (g.block 0).exit = some (.jsr 8 1) ∧ (g.block 8).exit = some (.goto 9) ∧
      (g.block 9).exit = some (.branch 10 11) ∧ (g.block 10).exit = some (.jsr 14 12) ∧
      (g.block 11).exit = some (.ret 1) ∧ (g.block 14).exit = some (.ret 12) ∧
      [8, 9, 10, 14, 12, 9, 11].IsChain (fun a b => b ∈ (g.block a).successors) ∧
      (g.block 14).site = .code 19 ∧ (g.body 11).getLast? = some ⟨.code 9, 0xa9, 11⟩ ∧
      ⟨.code 19, 0x4c, 14⟩ ∈ g.body 14) (by decide +kernel)
  exact ⟨g, hbuild, of_decide_eq_true hgraph⟩

/-- On the way to a `ret` of local 1 a nested subroutine may write local 1: after its first instruction, or
with it if it is parsed after the outer subroutine has overwritten the local. -/
theorem nested_overwrites_local :
    (∃ g, build innerStore {} {} = .ok g ∧ (g.block 0).exit = some (.jsr 5 1) ∧
      (g.block 6).exit = some (.ret 1) ∧ g.EndsInRet innerStore.code 6 1 ∧
      [5, 8, 6].IsChain (fun a b => b ∈ (g.block a).successors) ∧
      (g.block 5).exit = some (.jsr 8 6) ∧ (g.block 8).exit = some (.ret 6) ∧
      ∃ k ∈ g.body 8, k.site = .code 12 ∧ Overwrites innerStore.code 12 1) ∧
    ∃ g, build innerEntry {} {} = .ok g ∧ (g.block 0).exit = some (.jsr 8 1) ∧
      (g.block 11).exit = some (.ret 1) ∧ g.EndsInRet innerEntry.code 11 1 ∧
      [8, 9, 10, 14, 12, 9, 11].IsChain (fun a b => b ∈ (g.block a).successors) ∧
      (g.block 10).exit = some (.jsr 14 12) ∧ (g.block 14).exit = some (.ret 12) ∧
      ∃ k ∈ g.body 14, k.site = .code 19 ∧ Overwrites innerEntry.code 19 1 := by
  constructor
  · obtain ⟨g, hbuild, hgraph⟩ := exists_build_of_any innerStore {} {}
      (fun g => (g.block 0).exit = some (.jsr 5 1) ∧ (g.block 6).exit = some (.ret 1) ∧
        [5, 8, 6].IsChain (fun a b => b ∈ (g.block a).successors) ∧
        (g.block 5).exit = some (.jsr 8 6) ∧ (g.block 8).exit = some (.ret 6) ∧
        (g.body 6).getLast? = some ⟨.code 8, 0xa9, 6⟩ ∧ ⟨.code 12, 0x3c, 8⟩ ∈ g.body 8)
      (by decide +kernel)
    obtain ⟨hcall, hret, hwalk, hinner, hback, hlast, hstore⟩ := of_decide_eq_true hgraph
    exact ⟨g, hbuild, hcall, hret, ⟨_, 8, ⟨8, 10, 0xa9, false, []⟩, hlast, rfl, rfl, rfl, rfl⟩, hwalk,
      hinner, hback, _, hstore, rfl, ⟨12, 13, 0x3c, false, []⟩, 1, 1, rfl, rfl, rfl, .inl rfl⟩
  · obtain ⟨g, hbuild, hcall, -, -, hinner, hret, hback, hwalk, -, hlast, hstore⟩ :=
      exists_build_innerEntry
    exact ⟨g, hbuild, hcall, hret, ⟨_, 9, ⟨9, 11, 0xa9, false, []⟩, hlast, rfl, rfl, rfl, rfl⟩, hwalk,
      hinner, hback, _, hstore, rfl, ⟨19, 20, 0x4c, false, []⟩, 1, 1, rfl, rfl, rfl, .inl rfl⟩

/-! ## Methods where return addresses are kept apart -/

/-- Its nested subroutine begins by storing its return address where the outer one keeps its own. -/
def sameLocal : Method where
  name := "same"
  code := #[0xa8, 0, 4, 0xb1, 0x4c, 0xa8, 0, 5, 0xa9, 1, 0x4c, 0xa9, 1]

theorem innerEntry_apart : (∃ g b, build innerEntry {} {} = .ok g ∧ g.Loses innerEntry.code 8 1 b ∧
    ∃ pre mid mid' post, g.order.toList = pre ++ 11 :: (mid ++ b :: (mid' ++ 14 :: post))) ∧
    ∃ s, sameLocal.Reaches {} {} s ∧ s.Clobbers ∧ ∃ why, build sameLocal {} {} = .error (.bailout why) := by
  constructor
  · obtain ⟨g, hbuild, hcall, hgoto, hbranch, hinner, hret, -, -, hsite, hlast, -⟩ :=
      exists_build_innerEntry
    have hjoin : g.Stays 8 9 := .jump hgoto (by decide)
    have hr : g.Reaches 8 11 := (Relation.ReflTransGen.single hjoin).tail (.jump hbranch (by decide))
    have hk : g.ReachesBelow 8 10 :=
      (Relation.ReflTransGen.single (.stays hjoin)).tail (.stays (.jump hbranch (by decide)))
    obtain ⟨b, hb⟩ := (nested_addresses_apart innerEntry {} {}).1 g hbuild 0 8 1 11 1 1 hcall hr hret
      ⟨_, 9, ⟨9, 11, 0xa9, false, []⟩, hlast, rfl, rfl, rfl, rfl⟩ 10 14 12 19 hk hinner hsite
      ⟨⟨19, 20, 0x4c, false, []⟩, rfl, rfl, rfl⟩
    exact ⟨g, b, hbuild, hb⟩
  · have hany : (sameLocal.after {} {} 6).any (fun s => decide s.Clobbers) = true := by decide +kernel
    obtain ⟨s, hs, hclobbers⟩ := (Option.any_eq_true _ _).1 hany
    have hreach := Method.reaches_of_after hs
    have hclobbers := of_decide_eq_true hclobbers
    exact ⟨s, hreach, hclobbers, (nested_addresses_apart sameLocal {} {}).2 s hreach hclobbers⟩

end BlockGraph
