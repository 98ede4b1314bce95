import BlockGraph.Proofs.Layout.Placing

/-!
# Segments of the sweep

The sweep lists the instructions of the code one after the other, so those between two indices stand
together in it. A stretch that ends where the next block starts, or with the code, holds just the
instructions between its start and the next one (`Stretch.between_eq`, `Stretch.after_eq`).
-/

namespace BlockGraph

/-- The instructions of a list that start between two indices. -/
def Insn.between (l : List Insn) (first limit : Nat) : List Insn :=
  l.filter fun i => first ≤ i.bci ∧ i.bci < limit

/-- The least start above an index, or the size of the code. -/
def Start.after (starts : List Start) (size bci : Nat) : Nat :=
  ((starts.map Start.bci).filter (bci < ·)).min?.getD size

namespace Survey

variable {code : Array UInt8} {handlers : List Handler} {v : Survey} {i k : Insn} {bci stop : Nat}
  {l before : List Insn}

theorem follows_sweepFrom : ∀ {bci : Nat} {l : List Insn}, Insn.sweepFrom code bci = .ok l →
    (∀ i ∈ l, i ∈ v.insns) → v.Follows bci l code.size := by
  intro bci
  fun_induction Insn.sweepFrom code bci with
  | case1 bci fault hread => intro l hl; cases hl
  | case2 bci i hread hlt ih =>
    intro l hl hmem
    cases hrest : Insn.sweepFrom code i.next with
    | error fault => rw [hrest] at hl; cases hl
    | ok rest =>
      rw [hrest] at hl; cases hl
      exact ⟨hmem i List.mem_cons_self, Insn.bci_of_read hread,
        ih hrest fun k hk => hmem k (List.mem_cons_of_mem _ hk)⟩
  | case3 bci i hread hge =>
    intro l hl hmem
    cases hl
    have hnext := (Insn.bounds_of_read hread).2.2
    exact ⟨hmem i (List.mem_singleton_self i), Insn.bci_of_read hread,
      show i.next = code.size by omega⟩

section
variable (h : ofMethod code handlers = .ok v)
include h

/-- The sweep lists the instructions of the code one after the other. -/
theorem follows_insns : v.Follows 0 v.insns code.size :=
  follows_sweepFrom (sweep_eq h) fun _ hi => hi

/-- Instructions that stand one after the other lie between the ends. -/
theorem bounds_of_follows : ∀ {l : List Insn} {bci : Nat}, v.Follows bci l stop →
    bci ≤ stop ∧ ∀ i ∈ l, bci ≤ i.bci ∧ i.bci < stop
  | [], bci, hl => ⟨Nat.le_of_eq hl, by simp⟩
  | k :: rest, bci, hl => by
    obtain ⟨hk, rfl, hrest⟩ := hl
    obtain ⟨hlt, -⟩ := bci_lt_next h hk
    obtain ⟨hle, hbounds⟩ := bounds_of_follows hrest
    refine ⟨by omega, fun i hi => ?_⟩
    rcases List.mem_cons.1 hi with rfl | hi
    · exact ⟨Nat.le_refl _, by omega⟩
    · have := hbounds i hi
      exact ⟨by omega, this.2⟩

/-- Of two rows of instructions from the same index, the one that does not end with the code comes first
in the other one. -/
theorem append_of_follows : ∀ {l post : List Insn} {bci : Nat}, v.Follows bci l stop →
    v.Follows bci post code.size → ∃ rest, post = l ++ rest ∧ v.Follows stop rest code.size
  | [], post, bci, hl, hpost => ⟨post, rfl, show v.Follows stop post _ from hl ▸ hpost⟩
  | k :: l, post, bci, hl, hpost => by
    obtain ⟨hk, rfl, hl⟩ := hl
    cases post with
    | nil => exact absurd (bci_lt h hk) (by rw [show k.bci = code.size from hpost]; exact Nat.lt_irrefl _)
    | cons j post =>
      obtain ⟨hj, hbci, hpost⟩ := hpost
      have hread := read_of_mem h hj
      rw [hbci, read_of_mem h hk] at hread
      cases hread
      obtain ⟨rest, rfl, hrest⟩ := append_of_follows hl hpost
      exact ⟨rest, rfl, hrest⟩

/-- The instructions of the sweep between the ends of a row are those of the row. -/
theorem between_of_follows (hl : v.Follows k.bci l stop) (hk : k ∈ v.insns) :
    Insn.between v.insns k.bci stop = l := by
  obtain ⟨pre, post, hsplit⟩ := List.append_of_mem hk
  have hall := follows_insns h
  rw [hsplit] at hall
  obtain ⟨middle, hpre, hpost⟩ := (follows_append pre).1 hall
  obtain rfl : k.bci = middle := hpost.2.1
  obtain ⟨rest, hrest, hstop⟩ := append_of_follows h hl hpost
  unfold Insn.between
  rw [hsplit, hrest, List.filter_append, List.filter_append]
  have hnone : pre.filter (fun i => decide (k.bci ≤ i.bci ∧ i.bci < stop)) = [] := by
    refine List.filter_eq_nil_iff.2 fun i hi => ?_
    have := (bounds_of_follows h hpre).2 i hi
    simp; omega
  have hmore : rest.filter (fun i => decide (k.bci ≤ i.bci ∧ i.bci < stop)) = [] := by
    refine List.filter_eq_nil_iff.2 fun i hi => ?_
    have := (bounds_of_follows h hstop).2 i hi
    simp; omega
  have hsame : l.filter (fun i => decide (k.bci ≤ i.bci ∧ i.bci < stop)) = l := by
    refine List.filter_eq_self.2 fun i hi => ?_
    have := (bounds_of_follows h hl).2 i hi
    simp; omega
  rw [hnone, hmore, hsame, List.nil_append, List.append_nil]

end

/-! ## Stretches -/

theorem Stretch.follows_next (hs : v.Stretch bci before i) : v.Follows bci (before ++ [i]) i.next :=
  (follows_append before).2 ⟨i.bci, hs.follows, hs.mem, rfl, rfl⟩

/-- In a stretch only the first instruction may start a block. -/
theorem Stretch.eq_of_mem_starts : ∀ {before : List Insn} {bci : Nat}, v.Stretch bci before i →
    ∀ k ∈ before ++ [i], k.bci ∈ v.starts → k.bci = bci
  | [], bci, hs, k, hk, _ => by
    cases List.mem_singleton.1 hk
    exact hs.follows.symm
  | j :: before, bci, hs, k, hk, hstart => by
    rcases List.mem_cons.1 hk with rfl | hk
    · exact hs.follows.2.1
    · rw [hs.tail.eq_of_mem_starts k hk hstart] at hstart
      exact absurd hstart (hs.inside j List.mem_cons_self).2

section
variable (h : ofMethod code handlers = .ok v) (hs : v.Stretch bci before i)
include h hs

theorem Stretch.between_eq : Insn.between v.insns bci i.next = before ++ [i] := by
  obtain ⟨k, hk, rfl⟩ := hs.exists_first
  exact between_of_follows h hs.follows_next (hs.mem_insns k (List.mem_of_getElem? hk))

/-- No block starts inside a stretch. -/
theorem Stretch.next_le {t : Nat} (ht : t ∈ v.starts) (hlt : bci < t) : i.next ≤ t := by
  obtain ⟨k, hk, rfl⟩ := exists_insn_of_mem_starts h ht
  refine Nat.le_of_not_lt fun hinside => ?_
  have hbetween : k ∈ Insn.between v.insns bci i.next :=
    List.mem_filter.2 ⟨hk, by simp; omega⟩
  rw [hs.between_eq h] at hbetween
  have := hs.eq_of_mem_starts k hbetween ht
  omega

/-- A stretch that ends where a block may start ends at the next start. -/
theorem Stretch.after_eq (hend : i.next ∈ v.starts ∨ i.next = code.size) :
    Start.after v.layout code.size bci = i.next := by
  obtain ⟨k, hk, rfl⟩ := hs.exists_first
  have hlt : k.bci < i.next :=
    ((bounds_of_follows h hs.follows_next).2 k (List.mem_of_getElem? hk)).2
  unfold Start.after
  rw [map_bci_layout]
  by_cases hmem : i.next ∈ v.starts
  · have hmin : (v.starts.filter (k.bci < ·)).min? = some i.next := by
      refine List.min?_eq_some_iff.2 ⟨List.mem_filter.2 ⟨hmem, by simpa using hlt⟩, fun t ht => ?_⟩
      obtain ⟨ht, hgt⟩ := List.mem_filter.1 ht
      exact hs.next_le h ht (by simpa using hgt)
    rw [hmin]; rfl
  · have hnone : v.starts.filter (k.bci < ·) = [] := by
      refine List.filter_eq_nil_iff.2 fun t ht hgt => ?_
      have hle := hs.next_le h ht (by simpa using hgt)
      have hsize := ((mem_starts h).1 ht).1
      rw [hend.resolve_left hmem] at hle
      omega
    rw [hnone]
    exact (hend.resolve_left hmem).symm

end

end Survey
end BlockGraph
