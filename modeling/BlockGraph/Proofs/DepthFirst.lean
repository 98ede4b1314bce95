import BlockGraph.Proofs.Layout.Flow

/-!
# Depth-first numbers

The starts of a layout are numbered in the order in which a recursive depth-first search meets them,
and those that it does not meet come after them by increasing index. Main statement:
`numbers_preorder`.
-/

namespace BlockGraph

/-! ## Numbers from an order -/

/-- The places of the elements in a list without repetitions are all its places. -/
theorem map_idxOf_perm_range {order l : List Nat} (hperm : l.Perm order) (hnodup : order.Nodup) :
    (l.map order.idxOf).Perm (List.range order.length) := by
  have hself : order.map order.idxOf = List.range order.length := by
    apply List.ext_getElem
    · simp
    · intro k _ _
      simp [hnodup.idxOf_getElem]
  rw [← hself]
  exact hperm.map _

/-- What was met, and then the rest in its own order, is an order of the whole. -/
theorem append_filter_perm {met l : List Nat} (hmet : met.Nodup) (hl : l.Nodup) (hsub : ∀ a ∈ met, a ∈ l) :
    (met ++ l.filter (· ∉ met)).Nodup ∧ l.Perm (met ++ l.filter (· ∉ met)) := by
  have hnodup : (met ++ l.filter (· ∉ met)).Nodup := by
    apply List.Nodup.append hmet (hl.filter _)
    intro a ha hrest
    simp [ha] at hrest
  refine ⟨hnodup, (List.perm_ext_iff_of_nodup hl hnodup).2 fun a => ?_⟩
  by_cases ha : a ∈ met
  · simp [ha, hsub a ha]
  · simp [ha]

namespace Start

variable {flagsAt : Nat → BlockFlags} {numbering : Numbering} {size free : Nat} {met : List Nat} {s : Start}

/-- A start that was met has its place among those that were met, another one its place among the others
of the list, counted from `free` on. -/
theorem of_mem_ofNumbering (hn : numbering.Lists size met) :
    ∀ {l : List Nat} {free : Nat}, l.Nodup → s ∈ ofNumbering flagsAt numbering free l →
      s.reached = decide (s.bci ∈ met) ∧ s.number =
        if s.bci ∈ met then met.idxOf s.bci else free + (l.filter (· ∉ met)).idxOf s.bci := by
  intro l
  induction l with
  | nil => intro free _ hs; cases hs
  | cons bci rest ih =>
    intro free hnodup hs
    rw [List.nodup_cons] at hnodup
    unfold ofNumbering at hs
    rw [hn.get_eq] at hs
    by_cases hmet : bci ∈ met
    · simp only [if_pos hmet] at hs
      rcases List.mem_cons.1 hs with rfl | hs
      · simp [hmet]
      · simpa [List.filter_cons, hmet] using ih hnodup.2 hs
    · simp only [if_neg hmet] at hs
      rcases List.mem_cons.1 hs with rfl | hs
      · simp [hmet]
      · obtain ⟨hreached, hnumber⟩ := ih hnodup.2 hs
        have hmem : s.bci ∈ rest := by
          have hbci : s.bci ∈ (ofNumbering flagsAt numbering (free + 1) rest).map Start.bci :=
            List.mem_map_of_mem hs
          rwa [map_bci_ofNumbering] at hbci
        have hne : bci ≠ s.bci := fun he => hnodup.1 (he ▸ hmem)
        refine ⟨hreached, hnumber.trans ?_⟩
        simp only [List.filter_cons, hmet, not_false_eq_true, decide_true, if_true,
          List.idxOf_cons_ne _ hne]
        split
        · rfl
        · omega

end Start

/-! ## The numbers of a layout -/

/-- The starts of a method are numbered in the order of the recursive depth-first search that has met
`met`, from the beginning and then from each handler, and those that it does not meet come last. -/
structure Start.DepthFirst (starts : List Start) (next : Nat → List Nat) (roots met : List Nat) : Prop where
  /-- The search has one result. -/
  preorder : ∀ l, Preorder next roots [] l ↔ l = met
  ascending : (starts.map bci).Pairwise (· < ·)
  number : ∀ s ∈ starts, s.number = (met ++ (starts.map bci).filter (· ∉ met)).idxOf s.bci
  reached : ∀ s ∈ starts, s.reached = true ↔ ∃ root ∈ roots, Preorder.Leads next root s.bci
  permutation : (starts.map Start.number).Perm (List.range starts.length)
  beginning : ∃ s ∈ starts, s.bci = 0 ∧ s.number = 0
  reached_lt : ∀ s ∈ starts, ∀ t ∈ starts, s.reached = true → t.reached = false → s.number < t.number

/-- Whatever is numbered in the order of a search from the beginning is numbered depth-first. -/
theorem Start.DepthFirst.of_preorder {starts : List Start} {next : Nat → List Nat} {roots met : List Nat}
    (hpre : Preorder next (0 :: roots) [] met) (hascending : (starts.map bci).Pairwise (· < ·))
    (hmet : ∀ a ∈ met, a ∈ starts.map bci) (hreached : ∀ s ∈ starts, s.reached = decide (s.bci ∈ met))
    (hnumber : ∀ s ∈ starts, s.number = (met ++ (starts.map bci).filter (· ∉ met)).idxOf s.bci) :
    DepthFirst starts next (0 :: roots) met := by
  have hzero : 0 ∈ met := hpre.mem_of_mem_nodes List.mem_cons_self
  have hfirst : met.idxOf 0 = 0 := by
    cases hpre with
    | again hmem => cases hmem
    | meet _ hdown hrest =>
      have hprefix := hdown.isPrefix.trans hrest.isPrefix
      rw [← hprefix.idxOf_eq_of_mem (by simp)]
      rfl
  obtain ⟨hnodup, hperm⟩ := append_filter_perm (hpre.nodup List.nodup_nil) (hascending.imp Nat.ne_of_lt) hmet
  refine ⟨fun l => ⟨fun hl => hl.unique hpre, ?_⟩, hascending, hnumber, fun s hs => ?_, ?_, ?_, ?_⟩
  · rintro rfl
    exact hpre
  · rw [hreached s hs, decide_eq_true_iff]
    exact hpre.mem_iff
  · have hmap : starts.map Start.number =
        (starts.map bci).map (met ++ (starts.map bci).filter (· ∉ met)).idxOf := by
      rw [List.map_map]
      exact List.map_congr_left hnumber
    rw [hmap]
    apply (map_idxOf_perm_range hperm hnodup).trans
    rw [← hperm.length_eq, List.length_map]
  · obtain ⟨s, hs, hbci⟩ := List.mem_map.1 (hmet 0 hzero)
    refine ⟨s, hs, hbci, ?_⟩
    rw [hnumber s hs, hbci, List.idxOf_append_of_mem hzero, hfirst]
  · intro s hs t ht hsr htr
    rw [hreached s hs, decide_eq_true_iff] at hsr
    rw [hreached t ht, decide_eq_false_iff_not] at htr
    rw [hnumber s hs, hnumber t ht, List.idxOf_append_of_mem hsr, List.idxOf_append_of_notMem htr]
    have := List.idxOf_lt_length_of_mem hsr
    omega

/-- There are as many numbers as starts. -/
theorem Survey.number_lt {code : Array UInt8} {handlers : List Handler} {v : Survey}
    (h : Survey.ofMethod code handlers = .ok v) {s : Start} (hs : s ∈ v.layout) :
    s.number < v.layout.length := by
  obtain ⟨met, hpre, hlists, hmet⟩ := Survey.exists_preorder h
  have hmem : s.bci ∈ v.starts := Survey.map_bci_layout ▸ List.mem_map_of_mem hs
  obtain ⟨-, hperm⟩ := append_filter_perm (hpre.nodup List.nodup_nil) Survey.nodup_starts hmet
  have hlength : v.layout.length = met.length + (v.starts.filter (· ∉ met)).length := by
    rw [← List.length_append, ← hperm.length_eq, ← Survey.map_bci_layout, List.length_map]
  rw [(Start.of_mem_ofNumbering hlists Survey.nodup_starts hs).2, hlength, hlists.count_eq]
  split
  · rename_i hfound
    exact Nat.lt_add_right _ (List.idxOf_lt_length_of_mem hfound)
  · rename_i hnew
    refine Nat.add_lt_add_left (List.idxOf_lt_length_of_mem ?_) _
    simp [hmem, hnew]

/-- What the search meets from the beginning, before it turns to the handlers, has the lowest numbers. -/
theorem Survey.exists_reached {code : Array UInt8} {handlers : List Handler} {v : Survey}
    (h : Survey.ofMethod code handlers = .ok v) :
    ∃ reached, Preorder (Start.successors v.layout v.insns code.size) [0] [] reached ∧
      ∀ s ∈ v.layout, ∀ k, k < reached.length → (s.number = k ↔ reached[k]? = some s.bci) := by
  obtain ⟨met, hpre, hlists, -⟩ := Survey.exists_preorder h
  have hnodup := hpre.nodup List.nodup_nil
  obtain ⟨reached, hreached, hrest⟩ := Preorder.split (l := [0]) hpre
  refine ⟨reached, hreached, fun s hs k hk => ?_⟩
  have hlt : k < met.length := Nat.lt_of_lt_of_le hk hrest.isPrefix.length_le
  have hplace : reached[k]? = met[k]? := by
    obtain ⟨more, rfl⟩ := hrest.isPrefix
    rw [List.getElem?_append_left hk]
  rw [(Start.of_mem_ofNumbering hlists Survey.nodup_starts hs).2, hlists.count_eq, hplace,
    List.getElem?_eq_getElem hlt, Option.some.injEq]
  split
  · rename_i hfound
    constructor
    · rintro rfl
      exact List.getElem_idxOf hlt
    · intro hbci
      rw [← hbci, hnodup.idxOf_getElem]
  · rename_i hnew
    constructor
    · intro hnumber
      omega
    · intro hbci
      exact absurd (hbci ▸ List.getElem_mem hlt) hnew

/-- **Depth-first numbers are a recursive pre-order.** The starts of a layout are numbered in the order
in which the recursive search over its blocks meets them, which goes on from a block to the targets of
its instructions and to the next start that control can fall into, by increasing index, and the block of
each start has its number. -/
theorem numbers_preorder {code : Array UInt8} {handlers : List Handler} {starts : List Start}
    (h : layout code handlers = .ok starts) :
    ∃ insns met, Insn.sweep code = .ok insns ∧
      Start.DepthFirst starts (Start.successors starts insns code.size)
        (0 :: handlers.filterMap (·.entryIndex?)) met ∧
      ∀ (g : Graph), ∀ s ∈ starts, ∃ b, (g.place (.blank code.size) starts).2.get s.bci = some b ∧
        ((g.place (.blank code.size) starts).1.block b).number = s.number := by
  obtain ⟨v, hsurvey, rfl⟩ := Survey.exists_of_layout h
  obtain ⟨met, hpre, hlists, hmet⟩ := Survey.exists_preorder hsurvey
  rw [(Survey.ofMethod_ok hsurvey).2.2.1] at hpre
  have hstart : ∀ s ∈ v.layout, s.reached = decide (s.bci ∈ met) ∧
      s.number = (met ++ (v.layout.map Start.bci).filter (· ∉ met)).idxOf s.bci := by
    intro s hs
    obtain ⟨hreached, hnumber⟩ := Start.of_mem_ofNumbering hlists Survey.nodup_starts hs
    refine ⟨hreached, hnumber.trans ?_⟩
    rw [Survey.map_bci_layout, List.idxOf_append, hlists.count_eq, Nat.add_comm]
  refine ⟨v.insns, met, Survey.sweep_eq hsurvey, ?_, ?_⟩
  · apply Start.DepthFirst.of_preorder hpre
    · rw [Survey.map_bci_layout]
      exact Survey.starts_sorted
    · rwa [Survey.map_bci_layout]
    · exact fun s hs => (hstart s hs).1
    · exact fun s hs => (hstart s hs).2
  · intro g s hs
    obtain ⟨k, hk⟩ := List.mem_iff_getElem?.1 hs
    refine ⟨g.blocks.size + k, Survey.get_place_layout hsurvey g hk, ?_⟩
    rw [Graph.block_place hk]
    rfl

/-- A branch with a `return` on each of its ways, a `return` that nothing leads to, and a handler. -/
def deadReturn : Method where
  name := "dead"
  code := #[0x99, 0, 4, 0xb1, 0xb1, 0xb1, 0xbf]
  handlers := [{ first := 0, limit := 3, target := .code 6, catchType := 0 }]

/-- The handler is met before the `return` that nothing leads to, which has the lower index. -/
theorem deadReturn_numbers : ∃ starts, layout deadReturn.code deadReturn.handlers = .ok starts ∧
    starts.map (fun s => (s.bci, s.number, s.reached)) =
      [(0, 0, true), (3, 1, true), (4, 2, true), (5, 4, false), (6, 3, true)] ∧
    ∃ insns met, Insn.sweep deadReturn.code = .ok insns ∧
      Start.DepthFirst starts (Start.successors starts insns deadReturn.code.size)
        (0 :: deadReturn.handlers.filterMap (·.entryIndex?)) met ∧
      ∀ (g : Graph), ∀ s ∈ starts, ∃ b,
        (g.place (.blank deadReturn.code.size) starts).2.get s.bci = some b ∧
        ((g.place (.blank deadReturn.code.size) starts).1.block b).number = s.number := by
  have hvalue : (layout deadReturn.code deadReturn.handlers).toOption.map
      (List.map fun s => (s.bci, s.number, s.reached)) =
        some [(0, 0, true), (3, 1, true), (4, 2, true), (5, 4, false), (6, 3, true)] := by decide +kernel
  cases hlayout : layout deadReturn.code deadReturn.handlers with
  | error fault => rw [hlayout] at hvalue; cases hvalue
  | ok starts =>
    rw [hlayout] at hvalue
    exact ⟨starts, rfl, Option.some.inj hvalue, numbers_preorder hlayout⟩

end BlockGraph
