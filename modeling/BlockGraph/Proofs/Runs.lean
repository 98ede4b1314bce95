import BlockGraph.Proofs.Termination

/-!
# Runs without a bound on their steps

`run` takes no more steps than the limit on blocks can call for. Since each step that is not the last one
leaves fewer of them, that bound is never what ends a run: what comes out is what comes out if steps are taken
until one fails or nothing is left to do (`Method.Runs`). Main statement: `build_eq_of_runs`.
-/

namespace BlockGraph

open Assembly

variable {m : Method} {pool : ConstantPool} {o : Options} {st : Setting} {home : Homes}
  {path : List BlockId} {s t : Assembly} {b : BlockId} {r r' : EStateM.Result Fault Assembly Unit}

/-- From an assembly steps are taken until one fails or nothing is left to do. -/
inductive Method.Runs (m : Method) (o : Options) : Assembly → EStateM.Result Fault Assembly Unit → Prop where
  | fails {s t : Assembly} {fault : Fault} : Assembly.step m o s = .error fault t → m.Runs o s (.error fault t)
  | ends {s t : Assembly} : Assembly.step m o s = .ok true t → m.Runs o s (.ok () t)
  | goes {s t : Assembly} {r : EStateM.Result Fault Assembly Unit} :
    Assembly.step m o s = .ok false t → m.Runs o t r → m.Runs o s r

/-- The graph that a run has made, or the fault that ended it. -/
def Assembly.graphOf : EStateM.Result Fault Assembly Unit → Except Fault Graph
  | .ok _ t => .ok t.graph
  | .error fault _ => .error fault

/-- A run comes to one end. -/
theorem Method.Runs.unique (h : m.Runs o s r) (h' : m.Runs o s r') : r = r' := by
  induction h with
  | fails hstep =>
    cases h' with
    | fails hstep' => rw [hstep] at hstep'; cases hstep'; rfl
    | ends hstep' | goes hstep' _ => rw [hstep] at hstep'; cases hstep'
  | ends hstep =>
    cases h' with
    | ends hstep' => rw [hstep] at hstep'; cases hstep'; rfl
    | fails hstep' | goes hstep' _ => rw [hstep] at hstep'; cases hstep'
  | goes hstep _ ih =>
    cases h' with
    | goes hstep' hrest => rw [hstep] at hstep'; cases hstep'; exact ih hrest
    | fails hstep' | ends hstep' => rw [hstep] at hstep'; cases hstep'

/-! ## Steps, one by one -/

/-- While a block is open a step parses an instruction of it. -/
theorem Assembly.step_of_some (h : s.current = some b) :
    step m o s = (parseInstr o b >>= fun _ => pure false) s := by
  have hget : (get : Assemble Assembly) s = .ok s s := rfl
  simp only [step, bind, EStateM.bind, hget, h]

/-- Else it opens the next block of the innermost agenda, or goes back if there is none. -/
theorem Assembly.step_of_none (h : s.current = none) : step m o s =
    match takeNext (skipVisited s) with
    | (some b, t) => (openBlock m o b >>= fun _ => pure false) t
    | (none, t) => closeContext t := by
  have hget : (get : Assemble Assembly) s = .ok s s := rfl
  have hskips : (modify skipVisited : Assemble Unit) s = .ok () (skipVisited s) := rfl
  have htakes : ∀ t, (modifyGet takeNext : Assemble (Option BlockId)) t = .ok (takeNext t).1 (takeNext t).2 :=
    fun _ => rfl
  simp only [step, bind, EStateM.bind, hget, h, hskips, htakes]
  obtain ⟨b, t⟩ := takeNext (skipVisited s)
  cases b <;> rfl

/-- Only the limit on blocks can keep a block from being opened, and else it does not matter. -/
theorem Assembly.openBlock_eq (m : Method) (o : Options) (b : BlockId) (s : Assembly) :
    openBlock m o b s =
      if o.blockLimit < s.parsedBlocks + 1 then
        .error (.bailout (.tooManyBlocks o.blockLimit))
          (({ s with
              graph := s.graph.modifyBlock b ({ · with visited := true })
              parsedBlocks := s.parsedBlocks + 1 } : Assembly).note (.givingUp m.name o.blockLimit))
      else openBlock m { o with blockLimit := s.parsedBlocks + 1 } b s := by
  by_cases hlt : o.blockLimit < s.parsedBlocks + 1
  · rw [if_pos hlt]
    unfold openBlock
    show (ite (o.blockLimit < s.parsedBlocks + 1) _ _ : Assemble Unit) _ = _
    rw [if_pos hlt]
    rfl
  · rw [if_neg hlt]
    unfold openBlock
    show (ite (o.blockLimit < s.parsedBlocks + 1) _ _ : Assemble Unit) _ =
      (ite (s.parsedBlocks + 1 < s.parsedBlocks + 1) _ _ : Assemble Unit) _
    rw [if_neg hlt, if_neg (Nat.lt_irrefl _)]

/-- **The counter of parsed blocks and the order of parsing agree** in every assembly on the way. They part only
where the limit refuses a block, which is counted and not put into the order. -/
theorem Method.Reaches.parsedBlocks_eq (h : m.Reaches pool o s) : s.parsedBlocks = s.graph.order.size := by
  obtain ⟨st, home, path, -, hinv⟩ := h.inv
  exact hinv.base.queue.counted

/-! ## The bound on steps -/

/-- A step that opens a block is within the limit. -/
theorem Inv.order_size_lt_limit (h : Inv st home path s) {done : Bool} (hstep : Assembly.step m o s = .ok done t)
    (hb : s.Opens b) : s.graph.order.size < o.blockLimit := by
  obtain ⟨c, outer, hchain⟩ := h.base.contexts.exists_cons
  obtain ⟨-, n, rest, hentries⟩ := (h.base.opens_iff hchain).1 hb
  rw [step_of_none hb.1, h.base.skipVisited_eq, takeNext_cons hchain hentries] at hstep
  obtain ⟨_, u, hopen, -⟩ := exists_of_bind_ok hstep
  rw [openBlock_eq] at hopen
  rw [← h.base.queue.counted]
  refine Nat.lt_of_succ_le (Nat.le_of_not_lt fun hlt => ?_)
  rw [if_pos hlt] at hopen
  cases hopen

theorem Inv.order_size_le_limit (h : Inv st home path s) (hle : s.graph.order.size ≤ o.blockLimit)
    {done : Bool} (hstep : Assembly.step m o s = .ok done t) : t.graph.order.size ≤ o.blockLimit := by
  cases h.moves.of_ok hstep with
  | proceeds _ _ horder | closes _ _ horder | calls _ _ _ horder | leaves _ _ _ _ _ horder =>
    rwa [horder]
  | opens hopens _ horder =>
    rw [horder, Array.size_push]
    exact h.order_size_lt_limit hstep hopens
  | ends => exact hle

/-- With so many steps as may be left a run is not cut short. -/
theorem Inv.runs : ∀ {fuel : Nat} {home : Homes} {path : List BlockId} {s : Assembly},
    Inv st home path s → s.stepsLeft o.blockLimit st.method.code.size ≤ fuel →
      m.Runs o s (Assembly.run m o fuel s)
  | 0, _, _, s, h, hfuel => absurd (h.stepsLeft_pos _ _) (Nat.not_lt.2 hfuel)
  | fuel + 1, _, _, s, h, hfuel => by
    unfold Assembly.run
    show m.Runs o s (EStateM.bind (Assembly.step m o) _ s)
    unfold EStateM.bind
    cases hstep : Assembly.step m o s with
    | error fault t => exact .fails hstep
    | ok done t =>
      cases done with
      | true => exact .ends hstep
      | false =>
        obtain ⟨home', path', hinv⟩ := h.step.of_ok hstep
        have hlt := h.stepsLeft_lt (fun b hb => h.order_size_lt_limit hstep hb) (h.moves.of_ok hstep)
        exact .goes hstep (hinv.runs (Nat.le_of_lt_succ (Nat.lt_of_lt_of_le hlt hfuel)))

/-- From the prepared assembly there is a run. -/
theorem exists_runs (h : prepare m pool o {} = .ok () s) : ∃ r, m.Runs o s r := by
  obtain ⟨st, home, rfl, hinv, -⟩ := prepare_spec.of_ok h
  exact ⟨_, hinv.runs (hinv.stepsLeft_le _)⟩

theorem build_of_prepare_error {fault : Fault} (h : prepare m pool o {} = .error fault s) :
    build m pool o = .error fault := by
  have hassemble : (assemble m pool o).run {} = .error fault s := by
    unfold assemble
    simp only [EStateM.run, bind, EStateM.bind, h]
  rw [build, hassemble]

/-- What is built is what comes out of a run from the prepared assembly. -/
theorem build_eq_of_runs (hprepare : prepare m pool o {} = .ok () s) (hruns : m.Runs o s r) :
    build m pool o = graphOf r := by
  obtain ⟨st, home, rfl, hinv, -⟩ := prepare_spec.of_ok hprepare
  have hrun : Assembly.run st.method o (stepBound st.method o) s = r :=
    (hinv.runs (Nat.le_succ_of_le (hinv.stepsLeft_le _))).unique hruns
  have hyields : Yields (assemble st.method pool o) {} (fun _ t => ∃ u, r = .ok () u ∧ t.graph = u.graph)
      (fun fault _ => ∃ u, r = .error fault u) := by
    unfold assemble
    rw [yields_bind, Yields, hprepare]
    show Yields (Assembly.run st.method o (stepBound st.method o) >>= fun _ => conclude st.method) s _ _
    rw [yields_bind, Yields, hrun]
    cases r with
    | error fault u => exact ⟨u, rfl⟩
    | ok _ u =>
      have hdone := hinv.run.of_ok hrun
      exact hdone.conclude_spec.mono (fun _ t ht => ⟨u, rfl, ht⟩) fun _ _ hb => hb
  cases hbuild : build st.method pool o with
  | ok g =>
    obtain ⟨t, rfl, u, rfl, hgraph⟩ := exists_of_build_ok hyields hbuild
    rw [hgraph]; rfl
  | error fault =>
    obtain ⟨t, u, rfl⟩ := exists_of_build_error hyields hbuild
    rfl

/-- What is built is also what comes out of a run from an assembly on the way. -/
theorem Method.Reaches.build_eq (h : m.Reaches pool o s) (hruns : m.Runs o s r) :
    build m pool o = graphOf r := by
  induction h with
  | prepared hprepare => exact build_eq_of_runs hprepare hruns
  | @step s t done hreach hstep ih =>
    cases done with
    | false => exact ih (.goes hstep hruns)
    | true =>
      obtain ⟨st, home, path, -, hinv⟩ := hreach.inv
      exact ih ((hinv.moves.of_ok hstep).eq_of_done ▸ hruns)

end BlockGraph
