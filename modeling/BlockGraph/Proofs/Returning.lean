import Mathlib.Data.List.TakeWhile
import BlockGraph.Proofs.Histories
import BlockGraph.Proofs.Nesting
import BlockGraph.Proofs.Runs

/-!
# When a subroutine may return

A `ret` is accepted just when the subroutine has begun by storing its return address in the local that the `ret`
uses, and nothing else that has been parsed for the same call writes that local. Where a subroutine begins with
such a store the method is refused just when one around it keeps its own return address there. Main statement:
`ret_accepted_iff`.
-/

namespace BlockGraph

open Assembly

variable {m : Method} {pool : ConstantPool} {o : Options} {st : Setting} {home : Homes} {path : List BlockId}
  {s t : Assembly} {b : BlockId} {c : Context} {outer : List Context} {sub : Subroutine} {n : Nat}
  {parsed : List Nat}

/-- The instruction at `entry` stores the return address in local `n`, and no other one of those that have been
parsed writes it. -/
def KeepsAddress (code : Array UInt8) (entry n : Nat) (parsed : List Nat) : Prop :=
  Saves code entry n ∧ ∀ pos ∈ parsed, pos ≠ entry → ¬ Overwrites code pos n

/-- A subroutine of the same scope around the innermost context keeps its return address in local `n`. -/
def Context.KeptAround (c : Context) (outer : List Context) (n : Nat) : Prop :=
  ∃ d ∈ outer, d.isSubroutine = true ∧ d.scope = c.scope ∧ d.returnLocal = some n

instance (c : Context) (outer : List Context) (n : Nat) : Decidable (c.KeptAround outer n) :=
  inferInstanceAs (Decidable (∃ d ∈ outer, _))

/-! ## What is on record -/

/-- The context of a subroutine is the one of a call. -/
theorem Base.exists_call (h : Base st home path s) (hchain : s.chain = c :: outer)
    (hsub : c.subroutine = some sub) : ∃ j, path.head? = some j := by
  have hfits := (hchain ▸ h.contexts).head
  cases hj : path.head? with
  | some j => exact ⟨j, rfl⟩
  | none => rw [hfits.root hj] at hsub; cases hsub

/-- What has been parsed in a context are the instructions of the blocks of its copy. -/
theorem Base.mem_parsed_iff (h : Base st home path s) (hchain : s.chain = c :: outer)
    (hrecalls : c.Recalls s.graph parsed) {j : BlockId} (hj : path.head? = some j) {pos : Nat} :
    pos ∈ parsed ↔ ∃ d, home d = some j ∧ s.graph.Contains d pos := by
  have hfits := hj ▸ (hchain ▸ h.contexts).head
  rw [hrecalls pos]
  constructor
  · rintro ⟨bci, d, hfound, hcontains⟩
    exact ⟨d, ((hfits.finds_iff h.laid).1 hfound).home_eq, hcontains⟩
  · rintro ⟨d, hhome, hcontains⟩
    have hlt := Graph.lt_of_contains hcontains
    cases hsite : (s.graph.block d).site with
    | code bci => exact ⟨bci, d, (hfits.finds_iff h.laid).2 ⟨hlt, hhome, hsite⟩, hcontains⟩
    | unlock => rw [(h.laid.unlock d hlt hsite).1] at hhome; cases hhome

theorem Base.keepsLocal_iff (h : Base st home path s) (hchain : s.chain = c :: outer)
    (hrecalls : c.Recalls s.graph parsed) {j : BlockId} (hj : path.head? = some j) {entry : Nat} :
    (∀ pos ∈ parsed, pos ≠ entry → ¬ Overwrites st.method.code pos n) ↔
      ∀ d, home d = some j → KeepsLocal st s.graph entry n d := by
  constructor
  · intro hkeeps d hd k hk pos hsite
    exact hkeeps pos ((h.mem_parsed_iff hchain hrecalls hj).2 ⟨d, hd, k, hk, hsite⟩)
  · intro hkeeps pos hpos
    obtain ⟨d, hd, k, hk, hsite⟩ := (h.mem_parsed_iff hchain hrecalls hj).1 hpos
    exact hkeeps d hd k hk pos hsite

/-- At a `ret` the local of the return address is on record just when what has been parsed tells so. -/
theorem Inv.returnLocal_iff (h : Inv st home path s) (hb : s.current = some b) (hchain : s.chain = c :: outer)
    (hsub : c.subroutine = some sub) (hrecalls : c.Recalls s.graph parsed)
    (hret : c.cursor.opcode.flow = .ret) :
    c.returnLocal = some n ↔ KeepsAddress st.method.code sub.entry n parsed := by
  obtain ⟨bci, before, i, hh⟩ := h.opened b hb
  obtain ⟨j, hj⟩ := h.base.exists_call hchain hsub
  have haddress := (hchain ▸ h.addresses).head
  unfold KeepsAddress
  rw [h.base.keepsLocal_iff hchain hrecalls hj]
  constructor
  · intro hn
    obtain ⟨hsaves, -, hkeeps⟩ := haddress.kept j sub n hj hsub hn
    exact ⟨hsaves, hkeeps⟩
  · rintro ⟨hsaves, hkeeps⟩
    rcases haddress.lost j sub n hj hsub hsaves with hn | hnil | ⟨d, hd, hnot⟩
    · exact hn
    · -- the subroutine would begin with the `ret`
      have hentry := h.bci_eq_entry hh hchain hj hsub hnil
      have hstores := (hh.storesReference (hentry ▸ hsaves)).1
      rw [hh.cursor c (by rw [hchain]; rfl)] at hret
      cases hret.symm.trans (Opcode.flow_of_writes (Opcode.writes_of_storesReference hstores))
    · exact absurd (hkeeps d hd) hnot

/-! ## Steps -/

/-- A `ret` ends its block if its local is on record, and else the method is refused. -/
theorem Inv.step_ret (h : Inv st home path s) (hb : s.current = some b) (hchain : s.chain = c :: outer)
    (hsub : c.subroutine = some sub) (hret : c.cursor.opcode.flow = .ret) (hslot : c.cursor.localSlot = .ok n) :
    Yields (Assembly.step m o) s (fun done t => done = false ∧ c.returnLocal = some n ∧
      ∃ r, c.resume = some r ∧ (t.graph.block b).exit = some (.ret r))
      fun fault _ => c.returnLocal ≠ some n ∧ fault = .bailout .unknownAddress := by
  obtain ⟨j, hj⟩ := h.base.exists_call hchain hsub
  obtain ⟨_, _, r, _, _, _, hresume, -⟩ := (hchain ▸ h.calls).head.called j hj
  rw [yields_step_some hb]
  unfold Assembly.parseInstr
  rw [yields_bind, yields_innermost hchain]
  refine (linkHandlers_spec h.base h.calls hb h.facts.unlock).bind ?_
  rintro - t ⟨hbase, ⟨new, hsched, -⟩, -⟩
  -- the context is the same but for what waits in it and what it has found
  obtain ⟨c', outer', hchain', hidle, -⟩ := List.map_eq_cons_iff.1 (hchain ▸ hsched.chain)
  obtain ⟨sub', hsub', -⟩ := Context.exists_subroutine hidle hsub
  have hlocal : c'.returnLocal = c.returnLocal := (congrArg Context.returnLocal hidle :)
  have hresume' : c'.resume = some r := (congrArg Context.resume hidle :).trans hresume
  have hissub : c'.isSubroutine = true := by rw [Context.isSubroutine, hsub']; rfl
  rw [yields_bind, yields_modify]
  simp only [hret]
  rw [yields_bind, yields_ofExcept, hslot]
  simp only
  have hlt : b < t.graph.blocks.size := Graph.lt_of_visited (hbase.queue.current b (hsched.current.trans hb)).1
  have happend : (appendInstr b (.code c.cursor.position) c.cursor.opcode t).chain = c' :: outer' := hchain'
  unfold returnTarget
  rw [yields_bind, yields_bind, yields_innermost happend]
  by_cases hn : c.returnLocal = some n
  · simp only [hissub, hlocal, hn, hresume', Bool.not_true, Bool.false_eq_true, if_false, ne_eq,
      not_true_eq_false]
    refine ⟨trivial, trivial, r, hresume, ?_⟩
    exact Graph.exit_close_self (Nat.lt_of_lt_of_le hlt (Nat.le_of_eq (Graph.size_modifyBlock _ _ _).symm))
  · simp only [hissub, hlocal, hn, Bool.not_true, Bool.false_eq_true, if_false, ne_eq, not_false_eq_true,
      if_true]
    exact ⟨trivial, rfl⟩

/-- That nothing is kept around is left as it is, too. -/
theorem CopiedAndQueued.enclosingKeeps_eq_false {home' : Homes} {touched : Option BlockId} {new : List BlockId}
    (h : CopiedAndQueued touched new home s home' t) (hchain : s.chain = c :: outer)
    (hfree : ¬ c.KeptAround outer n) :
    Chain.enclosingKeeps t.chain n = false := by
  obtain ⟨c', outer', hchain', hidle, houter⟩ := List.map_eq_cons_iff.1 (hchain ▸ h.chain)
  rw [hchain', Chain.enclosingKeeps, List.any_eq_false]
  intro d' hd' hlocal
  obtain ⟨d, hd, hsame⟩ := List.mem_map.1 (houter ▸ List.mem_map_of_mem ((List.takeWhile_sublist _).mem hd'))
  have hscopes := List.mem_takeWhile_imp hd'
  simp only [Bool.and_eq_true, beq_iff_eq] at hscopes hlocal
  obtain ⟨sub', hsub'⟩ := Option.isSome_iff_exists.1 hscopes.1
  obtain ⟨sub, hsub, -⟩ := Context.exists_subroutine hsame hsub'
  refine hfree ⟨d, hd, by rw [Context.isSubroutine, hsub]; rfl, ?_, ?_⟩
  · exact (congrArg Context.scope hsame :).trans (hscopes.2.trans (congrArg Context.scope hidle :))
  · exact (congrArg Context.returnLocal hsame :).trans hlocal

/-- Storing a return address fails only where one around the subroutine is kept. -/
theorem exists_trackStore {slot : Nat} (hchain : s.chain = c :: outer)
    (hfree : Chain.enclosingKeeps s.chain slot = false) (opcode : Opcode) (bci width : Nat) :
    ∃ t, trackStore opcode bci slot width s = .ok () t := by
  unfold trackStore
  rw [hchain] at hfree ⊢
  simp only [hfree, Bool.false_eq_true, if_false]
  split
  · exact ⟨_, rfl⟩
  · split
    · exact ⟨_, rfl⟩
    · split <;> exact ⟨_, rfl⟩

/-- Where a subroutine begins by storing its return address, the step is refused just when one around it keeps
its own in the same local. -/
theorem Inv.step_entry (h : Inv st home path s) (hb : s.current = some b) (hchain : s.chain = c :: outer)
    (hsub : c.subroutine = some sub) (hentry : c.cursor.position = sub.entry)
    (hstores : c.cursor.opcode.storesReference = true) (hslot : c.cursor.localSlot = .ok n) :
    Yields (Assembly.step m o) s (fun done _ => done = false ∧ ¬ c.KeptAround outer n)
      fun fault _ => c.KeptAround outer n ∧ fault = .bailout .addressOverwritten := by
  by_cases hkept : c.KeptAround outer n
  · have ⟨d, hd, hissub, _, hlocal⟩ := hkept
    have hclobbers : s.Clobbers := by
      refine ⟨by rw [hb]; rfl, c, by rw [hchain]; rfl, sub, hsub, hentry, hstores, n, by rw [hslot]; rfl, d, ?_,
        hissub, hlocal⟩
      rwa [hchain]
    exact (h.refused hclobbers).mono (fun _ _ hf => hf.elim) fun _ _ hf => ⟨hkept, hf⟩
  · obtain ⟨bci, before, i, hh⟩ := h.opened b hb
    have hcursor : c.cursor = i.cursor st.method.code := hh.cursor c (by rw [hchain]; rfl)
    rw [hcursor] at hentry hstores hslot
    obtain ⟨width, hwidth⟩ := Option.isSome_iff_exists.1 (Opcode.writes_of_storesReference hstores)
    have hflow := Opcode.flow_of_writes (Opcode.writes_of_storesReference hstores)
    rw [yields_step_some hb]
    unfold Assembly.parseInstr
    rw [yields_bind, yields_innermost hchain, hcursor]
    have hguard : Yields (linkHandlers b i.bci) s _ fun _ _ => False := h.guard hh
    have hlink : Yields (linkHandlers b i.bci) s _ fun _ _ => False :=
      linkHandlers_spec h.base h.calls hb h.facts.unlock
    refine Yields.bind ((hguard.and hlink).mono (fun _ _ ht => ht) fun _ _ hf => hf.1.elim) ?_
    rintro - t ⟨hguarded, -, ⟨new, hsched, -⟩, -⟩
    have hfree := hsched.enclosingKeeps_eq_false hchain hkept
    obtain ⟨c', outer', hchain'⟩ := hguarded.base.contexts.exists_cons
    have happend : (appendInstr b (.code i.bci) i.opcode t).chain = c' :: outer' := hchain'
    obtain ⟨u, hstore⟩ := exists_trackStore happend hfree i.opcode i.bci width
    rw [yields_bind, yields_modify]
    simp only [hflow, hwidth]
    rw [yields_bind, yields_ofExcept, hslot]
    simp only
    rw [yields_bind]
    show Yields (trackStore i.opcode i.bci n width) (appendInstr b (.code i.bci) i.opcode t) _ _
    rw [Yields, hstore]
    exact (next_spec ((hguarded.store hwidth hslot).of_ok hstore) hflow).mono (fun _ _ _ => ⟨trivial, hkept⟩)
      fun _ _ hf => hf

/-! ## Runs -/

theorem Method.Records.step_ret {hist : History} (h : m.Records pool o s (parsed :: hist))
    (hb : s.current = some b) (hchain : s.chain = c :: outer) (hsub : c.subroutine = some sub)
    (hret : c.cursor.opcode.flow = .ret) (hslot : c.cursor.localSlot = .ok n) :
    Yields (Assembly.step m o) s (fun done t => done = false ∧ KeepsAddress m.code sub.entry n parsed ∧
      ∃ r, c.resume = some r ∧ (t.graph.block b).exit = some (.ret r))
      fun fault _ => ¬ KeepsAddress m.code sub.entry n parsed ∧ fault = .bailout .unknownAddress := by
  obtain ⟨st, home, path, rfl, hinv⟩ := h.reaches.inv
  have hrecorded := h.recorded
  rw [Recorded, hchain] at hrecorded
  have hlocal := hinv.returnLocal_iff (n := n) hb hchain hsub (List.forall₂_cons.1 hrecorded).1 hret
  rw [← hlocal]
  exact hinv.step_ret hb hchain hsub hret hslot

theorem Method.Reaches.exists_parsed (h : m.Reaches pool o s) (hchain : s.chain = c :: outer) :
    ∃ parsed hist, m.Records pool o s (parsed :: hist) := by
  obtain ⟨hist, hrecords⟩ := h.records
  have hrecorded := hrecords.recorded
  rw [Recorded, hchain] at hrecorded
  obtain ⟨parsed, rest, -, -, rfl⟩ := List.forall₂_cons_left_iff.1 hrecorded
  exact ⟨parsed, rest, hrecords⟩

/-- **Which `ret` is accepted.** Let the next instruction be parsed for a call of the subroutine at `sub.entry`, and
let it use local `n`. A `ret` ends its block by coming back to where the call does just when the subroutine
begins by storing its return address in `n` and nothing else that has been parsed for this call writes `n`;
else the method is refused. Where the subroutine begins by storing its return address in `n`, the method is
refused just when a subroutine around it keeps its own there. -/
theorem ret_accepted_iff (h : m.Reaches pool o s) (hb : s.current = some b) (hchain : s.chain = c :: outer)
    (hsub : c.subroutine = some sub) (hslot : c.cursor.localSlot = .ok n) :
    (∃ parsed hist, m.Records pool o s (parsed :: hist)) ∧
    (∀ parsed hist, m.Records pool o s (parsed :: hist) → c.cursor.opcode.flow = .ret →
      ((∃ t r, Assembly.step m o s = .ok false t ∧ c.resume = some r ∧
        (t.graph.block b).exit = some (.ret r)) ↔ KeepsAddress m.code sub.entry n parsed) ∧
      (¬ KeepsAddress m.code sub.entry n parsed → build m pool o = .error (.bailout .unknownAddress))) ∧
    (c.cursor.position = sub.entry → c.cursor.opcode.storesReference = true →
      ((∃ why t, Assembly.step m o s = .error (.bailout why) t) ↔ c.KeptAround outer n) ∧
      (c.KeptAround outer n → build m pool o = .error (.bailout .addressOverwritten)) ∧
      (¬ c.KeptAround outer n → ∃ t, Assembly.step m o s = .ok false t)) := by
  refine ⟨h.exists_parsed hchain, fun parsed hist hrecords hret => ?_, fun hentry hstores => ?_⟩
  · have hyields := hrecords.step_ret hb hchain hsub hret hslot
    cases hstep : Assembly.step m o s with
    | ok done t =>
      obtain ⟨rfl, hkeeps, r, hresume, hexit⟩ := hyields.of_ok hstep
      exact ⟨⟨fun _ => hkeeps, fun _ => ⟨t, r, rfl, hresume, hexit⟩⟩, fun hnot => absurd hkeeps hnot⟩
    | error fault t =>
      obtain ⟨hnot, rfl⟩ := hyields.of_error hstep
      exact ⟨⟨fun ⟨_, _, hok, _⟩ => (nomatch hok), fun hkeeps => absurd hkeeps hnot⟩,
        fun _ => h.build_eq (.fails hstep)⟩
  · obtain ⟨st, home, path, rfl, hinv⟩ := h.inv
    have hyields := hinv.step_entry (m := st.method) (o := o) hb hchain hsub hentry hstores hslot
    cases hstep : Assembly.step st.method o s with
    | ok done t =>
      obtain ⟨rfl, hfree⟩ := hyields.of_ok hstep
      exact ⟨⟨fun ⟨_, _, herror⟩ => (nomatch herror), fun hkept => absurd hkept hfree⟩,
        fun hkept => absurd hkept hfree, fun _ => ⟨t, rfl⟩⟩
    | error fault t =>
      obtain ⟨hkept, rfl⟩ := hyields.of_error hstep
      exact ⟨⟨fun _ => hkept, fun _ => ⟨_, t, rfl⟩⟩, fun _ => h.build_eq (.fails hstep),
        fun hfree => absurd hkept hfree⟩

/-- A `ret` is accepted although a nested subroutine has written its local, and a subroutine that begins by storing
its return address where the one around it keeps its own is not. -/
theorem innerStore_ret_accepted :
    (∃ s parsed hist, innerStore.Records {} {} s (parsed :: hist) ∧ KeepsAddress innerStore.code 4 1 parsed ∧
      ∃ t, Assembly.step innerStore {} s = .ok false t ∧ (t.graph.block 6).exit = some (.ret 1)) ∧
    build sameLocal {} {} = .error (.bailout .addressOverwritten) := by
  constructor
  · have hany : (innerStore.after {} {} 12).any (fun s => decide (s.current = some 6 ∧ ∃ c ∈ s.chain.head?,
        ∃ sub ∈ c.subroutine, sub.entry = 4 ∧ c.cursor.localSlot = .ok 1 ∧ c.cursor.opcode.flow = .ret ∧
          c.resume = some 1)) = true := by decide +kernel
    obtain ⟨s, hs, hat⟩ := (Option.any_eq_true _ _).1 hany
    obtain ⟨hcurrent, c, hc, sub, hsub, hentry, hslot, hret, hresume⟩ := of_decide_eq_true hat
    obtain ⟨outer, hchain⟩ := List.head?_eq_some_iff.1 hc
    obtain ⟨⟨parsed, hist, hrecords⟩, haccepted, -⟩ :=
      ret_accepted_iff (Method.reaches_of_after hs) hcurrent hchain hsub hslot
    obtain ⟨hiff, hrefused⟩ := haccepted parsed hist hrecords hret
    rw [hentry] at hiff hrefused
    -- the method is not refused
    have hkeeps : KeepsAddress innerStore.code 4 1 parsed := by
      by_contra hnot
      obtain ⟨g, hbuild, -⟩ := exists_build_of_any innerStore {} {} (fun _ => true) (by decide +kernel)
      rw [hrefused hnot] at hbuild
      cases hbuild
    obtain ⟨t, r, hstep, hr, hexit⟩ := hiff.2 hkeeps
    rw [hresume] at hr
    cases hr
    exact ⟨s, parsed, hist, hrecords, hkeeps, t, hstep, hexit⟩
  · have hany : (sameLocal.after {} {} 6).any (fun s => decide (s.current = some 8 ∧ ∃ c ∈ s.chain.head?,
        ∃ sub ∈ c.subroutine, c.cursor.localSlot = .ok 1 ∧ c.cursor.position = sub.entry ∧
          c.cursor.opcode.storesReference = true ∧ c.KeptAround s.chain.tail 1)) = true := by decide +kernel
    obtain ⟨s, hs, hat⟩ := (Option.any_eq_true _ _).1 hany
    obtain ⟨hcurrent, c, hc, sub, hsub, hslot, hentry, hstores, hkept⟩ := of_decide_eq_true hat
    obtain ⟨outer, hchain⟩ := List.head?_eq_some_iff.1 hc
    rw [hchain] at hkept
    exact ((ret_accepted_iff (Method.reaches_of_after hs) hcurrent hchain hsub hslot).2.2 hentry hstores).2.1 hkept

end BlockGraph
