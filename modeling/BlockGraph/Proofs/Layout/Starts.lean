import BlockGraph.Layout
import BlockGraph.Proofs.Bytecode.Decoding

/-!
# Instructions and starts of a surveyed method

A survey is only made of a method whose targets and handlers fit its code. So every target, every
handler and the instruction after every end of a block is a start (`target_mem_starts`,
`handler_mem_starts`, `next_mem_starts`), and every start is an instruction
(`exists_insn_of_mem_starts`). `Follows` says of some instructions that they stand one after the
other, `Stretch` that they may stand so in one block.
-/

namespace BlockGraph
namespace Survey

variable {code : Array UInt8} {handlers : List Handler} {v : Survey} {i k : Insn} {bci t : Nat}

/-! ## What the checks have checked -/

theorem checkTargets_ok_iff {isInsn : Nat → Bool} : ∀ {l : List Insn}, checkTargets isInsn l = .ok () ↔
    ∀ i ∈ l, ∀ t ∈ i.targets, isInsn t = true
  | [] => by simp [checkTargets]
  | i :: rest => by
    unfold checkTargets
    rw [List.forall_mem_cons, ← List.all_eq_true]
    by_cases hall : i.targets.all isInsn = true
    · simp only [hall, if_true, checkTargets_ok_iff, true_and]
    · simp [hall]

theorem checkHandlers_ok_iff {size : Nat} {isInsn : Nat → Bool} : ∀ {l : List Handler},
    checkHandlers size isInsn l = .ok () ↔ ∀ x ∈ l, ∀ bci, x.entryIndex? = some bci →
      x.first < x.limit ∧ x.limit ≤ size ∧ bci < size ∧ isInsn bci = true
  | [] => by simp [checkHandlers]
  | x :: rest => by
    unfold checkHandlers
    simp only [List.forall_mem_cons]
    cases hentry : x.entryIndex? with
    | none => simpa using checkHandlers_ok_iff
    | some bci =>
      by_cases hfits : x.first < x.limit ∧ x.limit ≤ size ∧ bci < size ∧ isInsn bci = true
      · simp only [hfits, if_true, checkHandlers_ok_iff, Option.some.injEq, forall_eq', and_self, true_and]
      · simp [hfits]

theorem ofMethod_ok (h : ofMethod code handlers = .ok v) :
    Insn.sweep code = .ok v.insns ∧ v.size = code.size ∧
      v.handlerEntries = handlers.filterMap (·.entryIndex?) ∧
      checkTargets (Marks.ofList code.size (v.insns.map Insn.bci)).has v.insns = .ok () ∧
      checkHandlers code.size (Marks.ofList code.size (v.insns.map Insn.bci)).has handlers = .ok () := by
  simp only [ofMethod, bind, Except.bind, pure, Except.pure, throw, throwThe, MonadExceptOf.throw] at h
  split at h
  · cases h
  · cases hs : Insn.sweep code with
    | error fault => rw [hs] at h; cases h
    | ok insns =>
      rw [hs] at h
      simp only at h
      split at h
      · cases h
      · rename_i hc
        split at h
        · cases h
        · rename_i hh
          cases h
          exact ⟨rfl, rfl, rfl, hc, hh⟩

section
variable (h : ofMethod code handlers = .ok v)
include h

theorem sweep_eq : Insn.sweep code = .ok v.insns := (ofMethod_ok h).1

theorem size_eq : v.size = code.size := (ofMethod_ok h).2.1

theorem read_of_mem (hi : i ∈ v.insns) : Insn.read code i.bci = .ok i :=
  Insn.read_of_mem_sweep (sweep_eq h) hi

theorem bci_lt_next (hi : i ∈ v.insns) : i.bci < i.next ∧ i.next ≤ code.size :=
  (Insn.bounds_of_read (read_of_mem h hi)).2

theorem bci_lt (hi : i ∈ v.insns) : i.bci < code.size := by
  have := bci_lt_next h hi; omega

theorem exists_insn_of_target (hi : i ∈ v.insns) (ht : t ∈ i.targets) : ∃ k ∈ v.insns, k.bci = t := by
  have hmark := checkTargets_ok_iff.1 (ofMethod_ok h).2.2.2.1 i hi t ht
  exact List.mem_map.1 (Marks.has_ofList.1 hmark).2

theorem exists_insn_of_handler {x : Handler} (hx : x ∈ handlers) (hb : x.entryIndex? = some bci) :
    ∃ k ∈ v.insns, k.bci = bci := by
  have hmark := (checkHandlers_ok_iff.1 (ofMethod_ok h).2.2.2.2 x hx bci hb).2.2.2
  exact List.mem_map.1 (Marks.has_ofList.1 hmark).2

/-- After an instruction that does not end the code comes another one. -/
theorem exists_insn_of_next (hi : i ∈ v.insns) (hlt : i.next < code.size) :
    ∃ k ∈ v.insns, k.bci = i.next := Insn.exists_next_of_mem_sweep (sweep_eq h) hi hlt

theorem next_lt (hi : i ∈ v.insns) (hf : i.fallsThrough = true) : i.next < code.size :=
  Insn.next_lt_of_read (read_of_mem h hi) hf

/-! ## Starts -/

theorem mem_starts : bci ∈ v.starts ↔ bci < code.size ∧ bci ∈ v.startIndices := by
  rw [← size_eq h, starts, List.mem_filter, List.mem_range, Marks.has_ofList]
  exact ⟨fun hb => hb.2, fun hb => ⟨hb.1, hb⟩⟩

theorem zero_mem_starts : 0 ∈ v.starts := by
  obtain ⟨i, hi, hbci⟩ := Insn.exists_first_of_sweep (sweep_eq h)
  exact (mem_starts h).2 ⟨hbci ▸ bci_lt h hi, by simp [startIndices]⟩

theorem target_mem_starts (hi : i ∈ v.insns) (ht : t ∈ i.targets) : t ∈ v.starts := by
  obtain ⟨k, hk, rfl⟩ := exists_insn_of_target h hi ht
  refine (mem_starts h).2 ⟨bci_lt h hk, ?_⟩
  refine List.mem_append_left _ (List.mem_cons_of_mem _ (List.mem_flatMap.2 ⟨i, hi, ?_⟩))
  exact List.mem_append_left _ ht

theorem next_mem_starts (hi : i ∈ v.insns) (he : i.endsBlock = true) (hlt : i.next < code.size) :
    i.next ∈ v.starts := by
  refine (mem_starts h).2 ⟨hlt, ?_⟩
  refine List.mem_append_left _ (List.mem_cons_of_mem _ (List.mem_flatMap.2 ⟨i, hi, ?_⟩))
  exact List.mem_append_right _ (by simp [he, size_eq h, hlt])

theorem handler_mem_starts {x : Handler} (hx : x ∈ handlers) (hb : x.entryIndex? = some bci) :
    bci ∈ v.starts := by
  obtain ⟨k, hk, rfl⟩ := exists_insn_of_handler h hx hb
  refine (mem_starts h).2 ⟨bci_lt h hk, List.mem_append_right _ ?_⟩
  rw [(ofMethod_ok h).2.2.1]
  exact List.mem_filterMap.2 ⟨x, hx, hb⟩

/-- A block starts with an instruction. -/
theorem exists_insn_of_mem_starts (hb : bci ∈ v.starts) : ∃ i ∈ v.insns, i.bci = bci := by
  obtain ⟨hlt, hb⟩ := (mem_starts h).1 hb
  rcases List.mem_append.1 hb with hb | hb
  · rcases List.mem_cons.1 hb with rfl | hb
    · exact Insn.exists_first_of_sweep (sweep_eq h)
    · obtain ⟨i, hi, hb⟩ := List.mem_flatMap.1 hb
      rcases List.mem_append.1 hb with hb | hb
      · exact exists_insn_of_target h hi hb
      · split at hb
        · cases List.mem_singleton.1 hb; exact exists_insn_of_next h hi hlt
        · cases hb
  · rw [(ofMethod_ok h).2.2.1] at hb
    obtain ⟨x, hx, hb⟩ := List.mem_filterMap.1 hb
    exact exists_insn_of_handler h hx hb

end

/-! ## Stretches of instructions -/

/-- The listed instructions stand one after the other from index `bci` up to index `stop`. -/
def Follows (v : Survey) : Nat → List Insn → Nat → Prop
  | bci, [], stop => bci = stop
  | bci, i :: rest, stop => i ∈ v.insns ∧ i.bci = bci ∧ Follows v i.next rest stop

theorem follows_append {stop : Nat} (l₁ : List Insn) {l₂ : List Insn} :
    v.Follows bci (l₁ ++ l₂) stop ↔ ∃ m, v.Follows bci l₁ m ∧ v.Follows m l₂ stop := by
  induction l₁ generalizing bci with
  | nil => simp [Follows]
  | cons i l₁ ih =>
    simp only [List.cons_append, Follows, ih]
    constructor
    · rintro ⟨hi, hb, m, h₁, h₂⟩; exact ⟨m, ⟨hi, hb, h₁⟩, h₂⟩
    · rintro ⟨m, ⟨hi, hb, h₁⟩, h₂⟩; exact ⟨hi, hb, m, h₁, h₂⟩

theorem mem_insns_of_follows {stop : Nat} : ∀ {l : List Insn} {bci : Nat}, v.Follows bci l stop →
    ∀ i ∈ l, i ∈ v.insns
  | [], _, _, _, hi => by cases hi
  | k :: rest, _, h, i, hi => by
    rcases List.mem_cons.1 hi with rfl | hi
    · exact h.1
    · exact mem_insns_of_follows h.2.2 i hi

/-- The instructions `before` stand in front of `i` and go on to it without an end of a block, from
index `bci` on. -/
structure Stretch (v : Survey) (bci : Nat) (before : List Insn) (i : Insn) : Prop where
  follows : v.Follows bci before i.bci
  mem : i ∈ v.insns
  inside : ∀ k ∈ before, k.flow = .next ∧ k.next ∉ v.starts

theorem Stretch.first (hi : i ∈ v.insns) : v.Stretch i.bci [] i :=
  ⟨rfl, hi, by simp⟩

theorem Stretch.eq_of_nil (h : v.Stretch bci [] i) : bci = i.bci := h.follows

theorem Stretch.snoc {before : List Insn} (h : v.Stretch bci before i) (hk : k ∈ v.insns)
    (hnext : k.bci = i.next) (hf : i.flow = .next) (hs : i.next ∉ v.starts) :
    v.Stretch bci (before ++ [i]) k := by
  refine ⟨(follows_append before).2 ⟨i.bci, h.follows, h.mem, rfl, hnext.symm⟩, hk, fun j hj => ?_⟩
  rcases List.mem_append.1 hj with hj | hj
  · exact h.inside j hj
  · cases List.mem_singleton.1 hj; exact ⟨hf, hs⟩

/-- The first instruction of a stretch is where the stretch starts. -/
theorem Stretch.eq_nil_of_start {before : List Insn} (h : v.Stretch bci before i)
    (hs : i.bci ∈ v.starts) : before = [] ∧ i.bci = bci := by
  rcases List.eq_nil_or_concat before with rfl | ⟨l, k, rfl⟩
  · exact ⟨rfl, h.follows.symm⟩
  · rw [List.concat_eq_append] at h
    obtain ⟨m, -, hk⟩ := (follows_append l).1 h.follows
    have hnext : k.next = i.bci := hk.2.2
    exact absurd (hnext ▸ hs) (h.inside k (by simp)).2

theorem Stretch.mem_insns {before : List Insn} (h : v.Stretch bci before i) :
    ∀ k ∈ before ++ [i], k ∈ v.insns := by
  intro k hk
  rcases List.mem_append.1 hk with hk | hk
  · exact mem_insns_of_follows h.follows k hk
  · cases List.mem_singleton.1 hk; exact h.mem

theorem Stretch.tail {before : List Insn} (h : v.Stretch bci (k :: before) i) :
    v.Stretch k.next before i :=
  ⟨h.follows.2.2, h.mem, fun j hj => h.inside j (List.mem_cons_of_mem _ hj)⟩

theorem Stretch.exists_first {before : List Insn} (h : v.Stretch bci before i) :
    ∃ k, (before ++ [i])[0]? = some k ∧ k.bci = bci := by
  cases before with
  | nil => exact ⟨i, rfl, h.follows.symm⟩
  | cons k rest => exact ⟨k, rfl, h.follows.2.1⟩

/-- An instruction of a stretch is the last one, or it goes on to the instruction behind it. -/
theorem Stretch.last_or_next {before : List Insn} {n : Nat} (h : v.Stretch bci before i)
    (hk : (before ++ [i])[n]? = some k) : n + 1 = (before ++ [i]).length ∧ k = i ∨
      k.flow = .next ∧ ∃ k', (before ++ [i])[n + 1]? = some k' ∧ k'.bci = k.next := by
  induction before generalizing bci n with
  | nil =>
    cases n with
    | zero => cases hk; exact .inl ⟨rfl, rfl⟩
    | succ n => cases hk
  | cons j rest ih =>
    cases n with
    | zero =>
      cases hk
      exact .inr ⟨(h.inside _ List.mem_cons_self).1, h.tail.exists_first⟩
    | succ n =>
      refine (ih h.tail hk).imp_left ?_
      rintro ⟨hn, hi⟩
      exact ⟨by simpa using hn, hi⟩

end Survey
end BlockGraph
