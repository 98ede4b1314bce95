import BlockGraph.Proofs.Runs

/-!
# The limit on blocks

The limit on blocks is looked at when a block is opened, and nowhere else. So under two limits a run takes
the same steps, until the smaller one is exceeded (`Inv.runs_limit`): then the run ends there, with as many
blocks in the order of parsing as the smaller limit allows, whatever the greater one still lets
through. Main statement: `build_limit`.
-/

namespace BlockGraph

open Assembly

variable {m : Method} {pool : ConstantPool} {o : Options} {st : Setting} {home : Homes}
  {path : List BlockId} {s t : Assembly} {b : BlockId} {g : Graph} {limit limit' : Nat}
  {r r' : EStateM.Result Fault Assembly Unit}

/-! ## Steps under two limits -/

/-- Taking a block off an agenda does not count it. -/
theorem Assembly.parsedBlocks_takeNext (s : Assembly) :
    (takeNext (skipVisited s)).2.parsedBlocks = s.parsedBlocks := by
  unfold takeNext skipVisited modifyInnermost
  cases hchain : s.chain <;> simp [hchain]

/-- A step goes the same way under both limits, unless it opens a block that the smaller one does not
allow. -/
theorem Assembly.step_limit (hle : limit ≤ limit') :
    step m { o with blockLimit := limit } s = step m { o with blockLimit := limit' } s ∨
      limit ≤ s.parsedBlocks ∧ (∃ b, s.Opens b) ∧
        ∃ t, step m { o with blockLimit := limit } s = .error (.bailout (.tooManyBlocks limit)) t := by
  cases hcurrent : s.current with
  | some b =>
    left
    rw [step_of_some hcurrent, step_of_some hcurrent]
    rfl
  | none =>
    have hparsed := parsedBlocks_takeNext s
    have hopens : ∀ b, (takeNext (skipVisited s)).1 = some b → s.Opens b := fun b hb => ⟨hcurrent, hb⟩
    rw [step_of_none hcurrent, step_of_none hcurrent]
    generalize takeNext (skipVisited s) = taken at hparsed hopens
    obtain ⟨next, u⟩ := taken
    cases next with
    | none => exact .inl rfl
    | some b =>
      simp only at hparsed ⊢
      have hopen := openBlock_eq m { o with blockLimit := limit } b u
      have hopen' := openBlock_eq m { o with blockLimit := limit' } b u
      by_cases hlt : limit < u.parsedBlocks + 1
      · refine .inr ⟨hparsed ▸ Nat.le_of_lt_succ hlt, ⟨b, hopens b rfl⟩, ?_⟩
        rw [if_pos hlt] at hopen
        simp only [bind, EStateM.bind, hopen]
        exact ⟨_, rfl⟩
      · left
        rw [if_neg hlt] at hopen
        rw [if_neg fun h => hlt (Nat.lt_of_le_of_lt hle h)] at hopen'
        simp only [bind, EStateM.bind, hopen, hopen']

/-! ## Runs under two limits -/

theorem Assembly.Moves.order_size_le {done : Bool} (h : s.Moves done t) :
    s.graph.order.size ≤ t.graph.order.size := by
  rcases h.order_cases with horder | ⟨b, horder⟩
  · rw [horder]
  · rw [horder, Array.size_push]; exact Nat.le_succ _

/-- The block that is opened is a new one in the order of parsing. -/
theorem Inv.order_size_lt (h : Inv st home path s) (hb : s.Opens b) {done : Bool} (hmoves : s.Moves done t) :
    s.graph.order.size < t.graph.order.size := by
  rcases hmoves.order_cases with horder | ⟨d, horder⟩
  · have hmem := h.base.mem_order_of_opens hmoves hb
    rw [horder, h.base.queue.mem_order, (h.base.new_of_opens hb).2.2] at hmem
    cases hmem
  · rw [horder, Array.size_push]; exact Nat.lt_succ_self _

theorem Inv.runs_order_size_le (h : Inv st home path s) (hruns : m.Runs o s (.ok () t)) :
    s.graph.order.size ≤ t.graph.order.size := by
  generalize hr : (EStateM.Result.ok () t : EStateM.Result Fault Assembly Unit) = r at hruns
  induction hruns generalizing home path with
  | fails => cases hr
  | ends hstep => cases hr; exact (h.moves.of_ok hstep).order_size_le
  | goes hstep _ ih =>
    obtain ⟨home', path', hinv⟩ := h.step.of_ok hstep
    exact Nat.le_trans (h.moves.of_ok hstep).order_size_le (ih hinv hr)

/-- A run never has more blocks in the order of parsing than the limit allows. -/
theorem Inv.runs_order_size_le_limit (h : Inv st home path s) (hle : s.graph.order.size ≤ o.blockLimit)
    (hruns : m.Runs o s (.ok () t)) : t.graph.order.size ≤ o.blockLimit := by
  generalize hr : (EStateM.Result.ok () t : EStateM.Result Fault Assembly Unit) = r at hruns
  induction hruns generalizing home path with
  | fails => cases hr
  | ends hstep => cases hr; exact h.order_size_le_limit hle hstep
  | goes hstep _ ih =>
    obtain ⟨home', path', hinv⟩ := h.step.of_ok hstep
    exact ih hinv (h.order_size_le_limit hle hstep) hr

/-- A run comes out the same under both limits, or the smaller one ends it and under the greater one more
blocks are parsed than the smaller one allows. -/
theorem Inv.runs_limit (h : Inv st home path s) (hle : limit ≤ limit')
    (hruns : m.Runs { o with blockLimit := limit } s r)
    (hruns' : m.Runs { o with blockLimit := limit' } s r') :
    r = r' ∨ (∃ t, r = .error (.bailout (.tooManyBlocks limit)) t) ∧
      ∀ t, r' = .ok () t → limit < t.graph.order.size := by
  induction hruns' generalizing home path r with
  | @fails s u fault hstep' =>
    rcases step_limit (m := m) (o := o) (s := s) hle with hstep | ⟨-, -, v, hstep⟩
    · exact .inl (hruns.unique (.fails (hstep.trans hstep')))
    · exact .inr ⟨⟨v, hruns.unique (.fails hstep)⟩, nofun⟩
  | @ends s u hstep' =>
    rcases step_limit (m := m) (o := o) (s := s) hle with hstep | ⟨hfull, ⟨b, hopens⟩, v, hstep⟩
    · exact .inl (hruns.unique (.ends (hstep.trans hstep')))
    · refine .inr ⟨⟨v, hruns.unique (.fails hstep)⟩, fun t ht => ?_⟩
      cases ht
      rw [h.base.queue.counted] at hfull
      exact Nat.lt_of_le_of_lt hfull (h.order_size_lt hopens (h.moves.of_ok hstep'))
  | @goes s u r' hstep' hrest' ih =>
    obtain ⟨home', path', hinv⟩ := h.step.of_ok hstep'
    rcases step_limit (m := m) (o := o) (s := s) hle with hstep | ⟨hfull, ⟨b, hopens⟩, v, hstep⟩
    · cases hruns with
      | fails hstep'' | ends hstep'' => rw [hstep, hstep'] at hstep''; cases hstep''
      | goes hstep'' hrest =>
        rw [hstep, hstep'] at hstep''
        cases hstep''
        exact ih hinv hrest
    · refine .inr ⟨⟨v, hruns.unique (.fails hstep)⟩, fun t ht => ?_⟩
      subst ht
      rw [h.base.queue.counted] at hfull
      exact Nat.lt_of_le_of_lt hfull (Nat.lt_of_lt_of_le (h.order_size_lt hopens (h.moves.of_ok hstep'))
        (hinv.runs_order_size_le hrest'))

/-! ## Graphs under two limits -/

/-- Building a graph comes out the same under both limits, or the smaller one keeps it from being finished, and
under the greater one more blocks are parsed than the smaller one allows. -/
theorem build_eq_or_of_le (m : Method) (pool : ConstantPool) (o : Options) (hle : limit ≤ limit') :
    build m pool { o with blockLimit := limit } = build m pool { o with blockLimit := limit' } ∨
      build m pool { o with blockLimit := limit } = .error (.bailout (.tooManyBlocks limit)) ∧
        ∀ g, build m pool { o with blockLimit := limit' } = .ok g → limit < g.order.size := by
  cases hprepare : prepare m pool o {} with
  | error fault s =>
    have herror : ∀ n, build m pool { o with blockLimit := n } = .error fault := fun n =>
      build_of_prepare_error hprepare
    exact .inl ((herror limit).trans (herror limit').symm)
  | ok _ s =>
    obtain ⟨st, home, -, hinv, -⟩ := prepare_spec.of_ok hprepare
    obtain ⟨r, hruns⟩ := exists_runs (o := { o with blockLimit := limit }) hprepare
    obtain ⟨r', hruns'⟩ := exists_runs (o := { o with blockLimit := limit' }) hprepare
    rw [build_eq_of_runs (o := { o with blockLimit := limit }) hprepare hruns,
      build_eq_of_runs (o := { o with blockLimit := limit' }) hprepare hruns']
    rcases hinv.runs_limit hle hruns hruns' with rfl | ⟨⟨t, rfl⟩, hmore⟩
    · exact .inl rfl
    · refine .inr ⟨rfl, fun g hg => ?_⟩
      cases r' with
      | ok _ u => cases hg; exact hmore u rfl
      | error fault u => cases hg

theorem order_size_le_of_build (h : build m pool o = .ok g) : g.order.size ≤ o.blockLimit := by
  cases hprepare : prepare m pool o {} with
  | error fault s => rw [build_of_prepare_error hprepare] at h; cases h
  | ok _ s =>
    obtain ⟨st, home, -, hinv, -, -, horder⟩ := prepare_spec.of_ok hprepare
    obtain ⟨r, hruns⟩ := exists_runs hprepare
    rw [build_eq_of_runs hprepare hruns] at h
    cases r with
    | ok _ t =>
      cases h
      exact hinv.runs_order_size_le_limit (by rw [horder]; exact Nat.zero_le _) hruns
    | error fault t => cases h

/-- A fault that is not about the limit comes out under every greater limit as well. -/
theorem build_error_mono (hle : limit ≤ limit') {fault : Fault} (hfault : ¬ fault.IsLimit)
    (h : build m pool { o with blockLimit := limit } = .error fault) :
    build m pool { o with blockLimit := limit' } = .error fault := by
  rcases build_eq_or_of_le m pool o hle with heq | ⟨hlimit, -⟩
  · exact heq ▸ h
  · rw [hlimit] at h
    cases h
    exact absurd ⟨limit, rfl⟩ hfault

/-- A graph comes out under every limit that allows as many blocks as it has. -/
theorem build_of_order_size_le (hsize : g.order.size ≤ limit')
    (h : build m pool { o with blockLimit := limit } = .ok g) :
    build m pool { o with blockLimit := limit' } = .ok g := by
  rcases Nat.le_total limit limit' with hle | hle
  · rcases build_eq_or_of_le m pool o hle with heq | ⟨hlimit, -⟩
    · exact heq ▸ h
    · rw [hlimit] at h; cases h
  · rcases build_eq_or_of_le m pool o hle with heq | ⟨-, hmore⟩
    · exact heq.trans h
    · exact absurd (hmore g h) (Nat.not_lt.2 hsize)

/-- **The limit on blocks only cuts a run short.** A graph has no more blocks in the order of parsing than the
limit allows, it is the same under every limit that allows them, and every other limit is exceeded. A method
that is refused for another reason is refused for it from some limit on, and for its size under the
limits below. -/
theorem build_limit (m : Method) (pool : ConstantPool) (o : Options) :
    (∀ limit g, build m pool { o with blockLimit := limit } = .ok g →
      g.order.size ≤ limit ∧
      (∀ limit', g.order.size ≤ limit' → build m pool { o with blockLimit := limit' } = .ok g) ∧
      ∀ limit', limit' < g.order.size →
        build m pool { o with blockLimit := limit' } = .error (.bailout (.tooManyBlocks limit'))) ∧
    (∀ limit fault, build m pool { o with blockLimit := limit } = .error fault →
      (∀ n, fault ≠ .bailout (.tooManyBlocks n)) →
      (∀ limit', limit ≤ limit' → build m pool { o with blockLimit := limit' } = .error fault) ∧
      ∃ threshold, threshold ≤ limit ∧ ∀ limit',
        (limit' < threshold →
          build m pool { o with blockLimit := limit' } = .error (.bailout (.tooManyBlocks limit'))) ∧
        (threshold ≤ limit' → build m pool { o with blockLimit := limit' } = .error fault)) ∧
    ∀ limit, (Bailout.tooManyBlocks limit).message = s!"too many blocks (limit is {limit})" := by
  refine ⟨fun limit g h => ?_, fun limit fault h hfault => ?_, fun _ => rfl⟩
  · have hsize := order_size_le_of_build h
    refine ⟨hsize, fun limit' hle => build_of_order_size_le hle h, fun limit' hlt => ?_⟩
    rcases build_eq_or_of_le m pool o (Nat.le_of_lt (Nat.lt_of_lt_of_le hlt hsize)) with heq | ⟨hlimit, -⟩
    · exact absurd (order_size_le_of_build (heq.trans h)) (Nat.not_le.2 hlt)
    · exact hlimit
  · have hother : ¬ fault.IsLimit := fun ⟨n, hn⟩ => hfault n hn
    have hexists : ∃ n, build m pool { o with blockLimit := n } = .error fault := ⟨limit, h⟩
    classical
    refine ⟨fun limit' hle => build_error_mono hle hother h, Nat.find hexists, Nat.find_min' hexists h,
      fun limit' => ⟨fun hlt => ?_, fun hle => build_error_mono hle hother (Nat.find_spec hexists)⟩⟩
    rcases build_eq_or_of_le m pool o (Nat.le_of_lt hlt) with heq | ⟨hlimit, -⟩
    · exact absurd (heq.trans (Nat.find_spec hexists)) (Nat.find_min hexists hlt)
    · exact hlimit

/-- The method that calls its subroutine twice needs five blocks. -/
theorem callTwice_limit : ∃ g, build callTwice {} {} = .ok g ∧ g.order.size = 5 ∧
    build callTwice {} { blockLimit := 5 } = .ok g ∧
    build callTwice {} { blockLimit := 4 } = .error (.bailout (.tooManyBlocks 4)) := by
  obtain ⟨g, hbuild, hgraph⟩ := exists_build_of_any callTwice {} {} (fun g => g.order.size = 5)
    (by decide +kernel)
  have hsize := of_decide_eq_true hgraph
  obtain ⟨-, hgreater, hsmaller⟩ := (build_limit callTwice {} {}).1 10000 g hbuild
  exact ⟨g, hbuild, hsize, hgreater 5 (by rw [hsize]), hsmaller 4 (by rw [hsize]; decide)⟩

end BlockGraph
