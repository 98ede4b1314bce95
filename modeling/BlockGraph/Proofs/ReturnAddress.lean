import BlockGraph.Proofs.Copies

/-!
# Return addresses

A `ret` is accepted if its local holds the return address by what has been parsed so far. So a block that
overwrites the local can stand on a way to the `ret`, as `overwritten_before_ret` shows, but then it was
parsed after the `ret`. Main statement: `parsed_after_ret_of_overwrites`.
-/

namespace BlockGraph

variable {m : Method} {pool : ConstantPool} {o : Options} {st : Setting} {home : Homes} {g : Graph}
  {a b e j r t : BlockId} {n : Nat}

/-- Control goes from block `a` to block `b` by a jump, a branch or a switch, or from a call to where it
comes back to. -/
inductive Graph.Passes (g : Graph) (a b : BlockId) : Prop where
  | jump {x : Exit} : (g.block a).exit = some x → b ∈ x.jumps → g.Passes a b
  | back {e : BlockId} : (g.block a).exit = some (.jsr e b) → g.Passes a b

/-- The last instruction of a block is a `ret` of local `n`. -/
def Graph.EndsInRet (g : Graph) (code : Array UInt8) (b : BlockId) (n : Nat) : Prop :=
  ∃ k bci i, (g.body b).getLast? = some k ∧ k.site = .code bci ∧ Insn.read code bci = .ok i ∧
    i.flow = .ret ∧ (i.cursor code).localSlot = .ok n

namespace Finished

variable (h : Finished st home g)
include h

theorem visited_of_passes (hab : g.Passes a b) : (g.block a).visited = true := by
  cases hab with
  | jump hx | back hx => exact h.visited_of_exit hx

/-- A walk to a block that has been parsed stays where it is. -/
theorem reaches_of_chain (hr : (g.block r).visited = true) : ∀ {walk : List BlockId} {a : BlockId},
    walk.head? = some a → walk.getLast? = some r → walk.IsChain g.Passes →
      (g.block a).visited = true ∧ ∀ b ∈ walk, g.Reaches a b
  | [], _, hhead, _, _ => by cases hhead
  | [_], _, hhead, hlast, _ => by
    cases hhead
    cases hlast
    exact ⟨hr, fun b hb => List.mem_singleton.1 hb ▸ .refl⟩
  | a :: c :: walk, _, hhead, hlast, hchain => by
    cases hhead
    obtain ⟨hac, hchain⟩ := List.isChain_cons_cons.1 hchain
    obtain ⟨hc, hreach⟩ := reaches_of_chain hr rfl (by rwa [List.getLast?_cons_cons] at hlast) hchain
    have hstays : g.Stays a c := by
      cases hac with
      | jump hx hb => exact .jump hx hb
      | back hx => exact .back hx hc
    refine ⟨h.visited_of_passes hac, fun b hb => ?_⟩
    rcases List.mem_cons.1 hb with rfl | hb
    · exact .refl
    · exact (hreach b hb).head hstays

/-- A closed block that comes back from a subroutine ends with a `ret`. -/
theorem endsInRet (hret : (g.block r).exit = some (.ret t)) {k : Instr} {bci : Nat} {i : Insn}
    (hlast : (g.body r).getLast? = some k) (hsite : k.site = .code bci)
    (hread : Insn.read st.method.code bci = .ok i) : i.flow = .ret := by
  cases h.settled (h.visited_of_exit hret) with
  | @code _ before i' x _ hstretch hbody _ hx hfits =>
    rw [hret] at hx
    cases hx
    rw [hbody, List.map_append, List.map_singleton, List.getLast?_concat] at hlast
    cases hlast
    cases hsite
    rw [st.read_of_mem hstretch.mem] at hread
    cases hread
    cases hfits with
    | ret hf => exact hf
  | unlock _ _ _ hx => rw [hret] at hx; cases hx

end Finished

/-- **The return address is kept as far as the subroutine has been parsed.** On a walk from the first block
`e` of a copy to a block `r` that ends with a `ret` of local `n`, the first instruction of the subroutine
stores the return address in `n`, and any other store that writes `n` is in a block that was parsed
after `r`. -/
theorem parsed_after_ret_of_overwrites {c : BlockId} {walk : List BlockId} (h : build m pool o = .ok g)
    (hcall : (g.block j).exit = some (.jsr e c)) (hret : (g.block r).exit = some (.ret t))
    (hhead : walk.head? = some e) (hlast : walk.getLast? = some r) (hchain : walk.IsChain g.Passes) :
    ∃ n entry, g.EndsInRet m.code r n ∧ (g.block e).site = .code entry ∧ Saves m.code entry n ∧
      ∀ b ∈ walk, ∀ k ∈ g.body b, ∀ bci, k.site = .code bci → bci ≠ entry →
        Overwrites m.code bci n → ∃ pre mid post, g.order.toList = pre ++ r :: (mid ++ b :: post) := by
  obtain ⟨st, home, rfl, hfinished⟩ := finished_of_build h
  have hvr := hfinished.visited_of_exit hret
  obtain ⟨-, hreach⟩ := hfinished.reaches_of_chain hvr hhead hlast hchain
  have hcopy := fun b hb => hfinished.home_of_reaches hcall (hreach b hb)
  obtain ⟨k, bci, i, n, j', e', c', entry, hlast', hsite, hread, hslot, hhome, hcall', hlies, hsaves, pre,
    post, horder, hkept⟩ := hfinished.facts.kept r t hret
  -- the call that is known of the `ret` is the one from whose copy the walk comes
  obtain rfl : j' = j := by
    have hr := (hcopy r (List.mem_of_getLast? hlast)).2.resolve_right fun hunlock => by
      rw [(hfinished.laid.unlock r (Graph.lt_of_visited hvr) hunlock).1] at hhome; cases hhome
    exact Option.some.inj (hhome.symm.trans hr)
  rw [hcall] at hcall'
  cases hcall'
  refine ⟨n, entry, ⟨k, bci, i, hlast', hsite, hread, hfinished.endsInRet hret hlast' hsite hread, hslot⟩,
    hlies.site, hsaves, fun b hb k' hk' bci' hsite' hne hover => ?_⟩
  obtain ⟨hvb, hb | hunlock⟩ := hcopy b hb
  · have hmem := (hfinished.mem_order b).2 hvb
    rw [horder] at hmem
    have hnot : b ∉ pre ++ [r] := fun hpre =>
      (hkept b hpre).2 hb k' hk' bci' hsite' hne hover
    have hpost : b ∈ post := by
      rcases List.mem_append.1 hmem with hmem | hmem
      · exact absurd (List.mem_append_left _ hmem) hnot
      · exact (List.mem_cons.1 hmem).resolve_left fun hbr => hnot (by simp [hbr])
    obtain ⟨mid, post', rfl⟩ := List.append_of_mem hpost
    exact ⟨pre, mid, post', horder⟩
  · -- the block that unlocks has no code
    cases hfinished.settled hvb with
    | code hlies => rw [hlies.site] at hunlock; cases hunlock
    | unlock _ _ hbody =>
      rw [hbody] at hk'
      rcases List.mem_cons.1 hk' with rfl | hk'
      · cases hsite'
      · cases List.mem_singleton.1 hk'; cases hsite'

/-! ## A loop behind the branch to the `ret` -/

/-- Its subroutine branches to a `ret`, or to a block that overwrites the return address and goes back
to the branch. -/
def rejoin : Method where
  name := "rejoin"
  code := #[0xa8, 0, 4, 0xb1, 0x4c, 0x03, 0x9a, 0, 5, 0xa9, 1, 0x03, 0x3c, 0xa7, 0xff, 0xf8]

theorem exists_build_rejoin : ∃ g, build rejoin {} {} = .ok g ∧
    (g.block 0).exit = some (.jsr 6 1) ∧ (g.block 9).exit = some (.ret 1) ∧
    [6, 7, 8, 7, 9].IsChain g.Passes ∧ (g.block 6).site = .code 4 ∧
    (g.body 9).getLast? = some ⟨.code 9, 0xa9, 9⟩ ∧ ⟨.code 12, 0x3c, 8⟩ ∈ g.body 8 := by
  obtain ⟨g, hbuild, hgraph⟩ := exists_build_of_any rejoin {} {}
    (fun g => (g.block 0).exit = some (.jsr 6 1) ∧ (g.block 9).exit = some (.ret 1) ∧
      (g.block 6).exit = some (.goto 7) ∧ (g.block 7).exit = some (.branch 8 9) ∧
      (g.block 8).exit = some (.goto 7) ∧ (g.block 6).site = .code 4 ∧
      (g.body 9).getLast? = some ⟨.code 9, 0xa9, 9⟩ ∧ ⟨.code 12, 0x3c, 8⟩ ∈ g.body 8)
    (by decide +kernel)
  obtain ⟨hcall, hret, h6, h7, h8, hrest⟩ := of_decide_eq_true hgraph
  refine ⟨g, hbuild, hcall, hret, ?_, hrest⟩
  have hloop : [7, 8, 7, 9].IsChain g.Passes := by
    refine .cons_cons (.jump h7 (by decide)) (.cons_cons (.jump h8 (by decide)) ?_)
    exact .cons_cons (.jump h7 (by decide)) (.singleton 9)
  exact .cons_cons (.jump h6 (by decide)) hloop

/-- A store on the way to a `ret` may overwrite the return address. -/
theorem overwritten_before_ret : ∃ g, build rejoin {} {} = .ok g ∧
    (g.block 0).exit = some (.jsr 6 1) ∧ (g.block 9).exit = some (.ret 1) ∧
    g.EndsInRet rejoin.code 9 1 ∧ (g.block 6).site = .code 4 ∧
    ∃ walk : List BlockId, walk.head? = some 6 ∧ walk.getLast? = some 9 ∧ walk.IsChain g.Passes ∧
      ∃ b ∈ walk, ∃ k ∈ g.body b, k.site = .code 12 ∧ Overwrites rejoin.code 12 1 := by
  obtain ⟨g, hbuild, hcall, hret, hchain, hsite, hlast, hstore⟩ := exists_build_rejoin
  refine ⟨g, hbuild, hcall, hret, ⟨_, 9, ⟨9, 11, 0xa9, false, []⟩, hlast, rfl, rfl, rfl, rfl⟩, hsite,
    [6, 7, 8, 7, 9], rfl, rfl, hchain, 8, by decide, _, hstore, rfl, ?_⟩
  exact ⟨⟨12, 13, 0x3c, false, []⟩, 1, 1, rfl, rfl, rfl, .inl rfl⟩

theorem rejoin_parsed_after_ret : ∃ g, build rejoin {} {} = .ok g ∧
    ∃ n entry, g.EndsInRet rejoin.code 9 n ∧ (g.block 6).site = .code entry ∧
      Saves rejoin.code entry n ∧ ∀ b ∈ [6, 7, 8, 7, 9], ∀ k ∈ g.body b, ∀ bci, k.site = .code bci →
        bci ≠ entry → Overwrites rejoin.code bci n →
          ∃ pre mid post, g.order.toList = pre ++ 9 :: (mid ++ b :: post) := by
  obtain ⟨g, hbuild, hcall, hret, hchain, -⟩ := exists_build_rejoin
  exact ⟨g, hbuild, parsed_after_ret_of_overwrites hbuild hcall hret rfl rfl hchain⟩

end BlockGraph
