import BlockGraph.Proofs.Bytecode.Operands
import BlockGraph.Proofs.Layout.Flow

/-!
# Which methods are laid out

A method is laid out just when its code and its exception table are well-formed: instructions tile the
code, their targets and the handlers start at instructions, and control cannot run past the end. The
layout then has just the starts that the instructions and handlers ask for, with the flags that they
ask for. Main statement: `layout_exact`.
-/

namespace BlockGraph

/-! ## Well-formed methods -/

/-- Instructions decoded one after the other, from an index to the end of the code. -/
def Cursor.Tile (code : Array UInt8) : Nat → List Cursor → Prop
  | bci, [] => bci = code.size
  | bci, c :: rest => Cursor.moveTo bci (.ofCode code) = .ok c.opcode c ∧ Tile code c.next rest

/-- The instructions of `cs` tile the code, and everything that refers to an instruction refers to one of
them. -/
structure WellFormed (code : Array UInt8) (handlers : List Handler) (cs : List Cursor) : Prop where
  nonempty : code ≠ #[]
  tile : Cursor.Tile code 0 cs
  /-- A target lies in the code, where an instruction starts. -/
  target : ∀ c ∈ cs, ∀ offset ∈ c.offsets, ∃ d ∈ cs, (d.position : Int) = c.position + offset
  /-- Control cannot fall off the end. -/
  last : ∀ c, cs.getLast? = some c → c.opcode.flow ∈ [.goto, .switch, .leave, .throw, .ret]
  /-- A handler with code protects some of the code, and starts at an instruction. -/
  handler : ∀ x ∈ handlers, ∀ bci, x.entryIndex? = some bci →
    x.first < x.limit ∧ x.limit ≤ code.size ∧ ∃ d ∈ cs, d.position = bci

/-! ## The sweep -/

namespace Insn

variable {code : Array UInt8} {bci : Nat} {i : Insn} {l : List Insn}

/-- Instructions that were read one after the other, from an index to the end of the code. -/
def Row (code : Array UInt8) : Nat → List Insn → Prop
  | bci, [] => bci = code.size
  | bci, i :: rest => read code bci = .ok i ∧ Row code i.next rest

theorem row_of_sweepFrom : ∀ {bci : Nat} {l : List Insn}, sweepFrom code bci = .ok l →
    l ≠ [] ∧ Row code bci l := by
  intro bci
  fun_induction sweepFrom code bci with
  | case1 bci fault h => intro l hl; cases hl
  | case2 bci i h hlt ih =>
    intro l hl
    cases hrest : sweepFrom code i.next with
    | error fault => rw [hrest] at hl; cases hl
    | ok rest =>
      rw [hrest] at hl
      cases hl
      exact ⟨List.cons_ne_nil _ _, h, (ih hrest).2⟩
  | case3 bci i h hge =>
    intro l hl
    cases hl
    have hle := (bounds_of_read h).2.2
    exact ⟨List.cons_ne_nil _ _, h, show i.next = code.size by omega⟩

theorem sweepFrom_of_row : ∀ {l : List Insn} {bci : Nat}, l ≠ [] → Row code bci l →
    sweepFrom code bci = .ok l := by
  intro l
  induction l with
  | nil => intro bci hne _; exact absurd rfl hne
  | cons i rest ih =>
    intro bci _ hrow
    obtain ⟨hread, hrest⟩ := hrow
    unfold sweepFrom
    split
    · rename_i fault hfault
      rw [hread] at hfault
      cases hfault
    · rename_i k hk
      rw [hread] at hk
      cases hk
      cases rest with
      | nil => rw [if_neg (by rw [show i.next = code.size from hrest]; exact Nat.lt_irrefl _)]
      | cons k rest =>
        have hbounds := bounds_of_read hrest.1
        rw [if_pos (by omega), ih (List.cons_ne_nil _ _) hrest]
        rfl

theorem tile_of_row : ∀ {l : List Insn} {bci : Nat}, Row code bci l →
    Cursor.Tile code bci (l.map (cursor code))
  | [], _, h => h
  | _ :: _, _, h => ⟨(read_ok_iff.1 h.1).1, tile_of_row h.2⟩

theorem next_of_getLast : ∀ {l : List Insn} {bci : Nat}, Row code bci l → l.getLast? = some i →
    i.next = code.size
  | [], _, _, hlast => by cases hlast
  | [k], _, h, hlast => by cases hlast; exact h.2
  | _ :: k :: rest, _, h, hlast => next_of_getLast (l := k :: rest) h.2 (by simpa using hlast)

end Insn

namespace Cursor

variable {code : Array UInt8} {bci : Nat} {c : Cursor} {cs : List Cursor}

/-- The instruction that a cursor sits on. -/
def insn (c : Cursor) : Insn where
  bci := c.position
  next := c.next
  opcode := c.opcode
  wide := c.wide
  targets := c.targets.toOption.getD []

theorem moveTo_of_mem_tile : ∀ {cs : List Cursor} {bci : Nat}, Tile code bci cs → c ∈ cs →
    moveTo c.position (.ofCode code) = .ok c.opcode c
  | [], _, _, hc => by cases hc
  | d :: rest, bci, h, hc => by
    rcases List.mem_cons.1 hc with rfl | hc
    · have hbci := (moveTo_progress h.1).2.1
      rw [hbci]
      exact h.1
    · exact moveTo_of_mem_tile h.2 hc

theorem Tile.unique : ∀ {cs cs' : List Cursor} {bci : Nat}, Tile code bci cs → Tile code bci cs' → cs = cs'
  | [], [], _, _, _ => rfl
  | [], _ :: _, _, h, h' => by
    have hbounds := moveTo_progress h'.1
    rw [show _ = code.size from h] at hbounds
    exact absurd hbounds.2.2.2.1 (Nat.not_lt.2 hbounds.2.2.2.2)
  | _ :: _, [], _, h, h' => by
    have hbounds := moveTo_progress h.1
    rw [show _ = code.size from h'] at hbounds
    exact absurd hbounds.2.2.2.1 (Nat.not_lt.2 hbounds.2.2.2.2)
  | c :: cs, c' :: cs', _, h, h' => by
    have hsame := h.1.symm.trans h'.1
    simp only [EStateM.Result.ok.injEq] at hsame
    obtain ⟨-, rfl⟩ := hsame
    rw [Tile.unique h.2 h'.2]

/-- Instructions whose targets lie in the code, and from which control stays in it, have been read. -/
theorem row_of_tile : ∀ {cs : List Cursor} {bci : Nat}, Tile code bci cs →
    (∀ c ∈ cs, ∃ ts, c.targets = .ok ts) →
    (∀ c, cs.getLast? = some c → c.opcode.flow.fallsThrough = false) → Insn.Row code bci (cs.map insn) := by
  intro cs
  induction cs with
  | nil => intro bci h _ _; exact h
  | cons c rest ih =>
    intro bci h htargets hlast
    obtain ⟨hmove, hrest⟩ := h
    obtain ⟨hcode, hposition, -, -, -⟩ := moveTo_progress hmove
    have hsame : c.insn.cursor code = c := by
      obtain ⟨_, _, _, _, _⟩ := c
      cases hcode
      rfl
    obtain ⟨ts, hts⟩ := htargets c List.mem_cons_self
    refine ⟨Insn.read_ok_iff.2 ⟨?_, hposition, ?_, fun hfalls => ?_⟩,
      ih hrest (fun d hd => htargets d (List.mem_cons_of_mem _ hd)) fun d hd => hlast d ?_⟩
    · rw [hsame]
      exact hmove
    · rw [hsame]
      simp [insn, hts, Except.toOption]
    · cases rest with
      | nil =>
        have hnot := hlast c rfl
        rw [show c.opcode.flow.fallsThrough = true from hfalls] at hnot
        cases hnot
      | cons d rest =>
        have hbounds := moveTo_progress hrest.1
        exact Nat.lt_of_lt_of_le hbounds.2.2.2.1 hbounds.2.2.2.2
    · cases rest with
      | nil => cases hd
      | cons e rest => simpa using hd

end Cursor

/-! ## The checks -/

namespace Survey

variable {code : Array UInt8} {handlers : List Handler}

theorem exists_ofMethod {insns : List Insn} (hcode : code ≠ #[]) (hsweep : Insn.sweep code = .ok insns)
    (htargets : checkTargets (Marks.ofList code.size (insns.map Insn.bci)).has insns = .ok ())
    (hhandlers : checkHandlers code.size (Marks.ofList code.size (insns.map Insn.bci)).has handlers = .ok ()) :
    ∃ v, ofMethod code handlers = .ok v := by
  have hempty : code.isEmpty = false := by simpa using hcode
  simp [ofMethod, hempty, hsweep, htargets, hhandlers, bind, Except.bind, pure, Except.pure]

end Survey

/-! ## Acceptance -/

section
variable {code : Array UInt8} {handlers : List Handler} {v : Survey} {cs : List Cursor}

theorem Survey.fits (h : Survey.ofMethod code handlers = .ok v) {i : Insn} (hi : i ∈ v.insns) :
    (i.cursor code).Fits :=
  Cursor.fits_of_moveTo (Insn.read_ok_iff.1 (Survey.read_of_mem h hi)).1

theorem WellFormed.of_ofMethod (h : Survey.ofMethod code handlers = .ok v) :
    WellFormed code handlers (v.insns.map (Insn.cursor code)) := by
  obtain ⟨hne, hrow⟩ := Insn.row_of_sweepFrom (Survey.sweep_eq h)
  constructor
  · rintro rfl
    obtain ⟨i, hi, -⟩ := Insn.exists_first_of_sweep (Survey.sweep_eq h)
    have := Survey.bci_lt h hi
    simp at this
  · exact Insn.tile_of_row hrow
  · simp only [List.forall_mem_map]
    intro i hi offset ho
    obtain ⟨t, ht, hoffset⟩ := Cursor.exists_mem_targets (Survey.fits h hi)
      (Insn.targets_of_read (Survey.read_of_mem h hi)) offset ho
    obtain ⟨k, hk, rfl⟩ := Survey.exists_insn_of_target h hi ht
    exact ⟨_, List.mem_map_of_mem hk, hoffset⟩
  · intro c hc
    rw [List.getLast?_map] at hc
    obtain ⟨i, hi, rfl⟩ := Option.map_eq_some_iff.1 hc
    have hnot : i.fallsThrough = false := by
      by_contra hfalls
      have hlt := Survey.next_lt h (List.mem_of_getLast? hi) (by simpa using hfalls)
      rw [Insn.next_of_getLast hrow hi] at hlt
      exact Nat.lt_irrefl _ hlt
    have hflow : i.opcode.flow.fallsThrough = false := hnot
    change i.opcode.flow ∈ _
    cases hf : i.opcode.flow <;> simp_all [Opcode.Flow.fallsThrough]
  · intro x hx bci hentry
    obtain ⟨hrange, hlimit, -⟩ := Survey.checkHandlers_ok_iff.1 (Survey.ofMethod_ok h).2.2.2.2 x hx bci hentry
    obtain ⟨k, hk, hbci⟩ := Survey.exists_insn_of_handler h hx hentry
    exact ⟨hrange, hlimit, _, List.mem_map_of_mem hk, hbci⟩

theorem WellFormed.exists_ofMethod (h : WellFormed code handlers cs) :
    ∃ v, Survey.ofMethod code handlers = .ok v := by
  have hmove : ∀ c ∈ cs, Cursor.moveTo c.position (.ofCode code) = .ok c.opcode c := fun c hc =>
    Cursor.moveTo_of_mem_tile h.tile hc
  have hlt : ∀ c ∈ cs, c.code = code ∧ c.position < code.size := by
    intro c hc
    obtain ⟨hcode, -, -, hnext, hle⟩ := Cursor.moveTo_progress (hmove c hc)
    exact ⟨hcode, Nat.lt_of_lt_of_le hnext hle⟩
  have htargets : ∀ c ∈ cs, ∃ ts, c.targets = .ok ts := by
    intro c hc
    apply Cursor.exists_targets (Cursor.fits_of_moveTo (hmove c hc))
    intro offset ho
    obtain ⟨d, hd, hoffset⟩ := h.target c hc offset ho
    exact ⟨d.position, hoffset, by rw [(hlt c hc).1]; exact (hlt d hd).2⟩
  have hmark : ∀ d ∈ cs, (Marks.ofList code.size ((cs.map Cursor.insn).map Insn.bci)).has d.position = true := by
    intro d hd
    rw [Marks.has_ofList, List.map_map]
    exact ⟨(hlt d hd).2, List.mem_map.2 ⟨d, hd, rfl⟩⟩
  have hne : cs ≠ [] := by
    rintro rfl
    have hsize : 0 = code.size := h.tile
    exact h.nonempty (Array.eq_empty_of_size_eq_zero hsize.symm)
  have hrow := Cursor.row_of_tile h.tile htargets fun c hc => by
    have hflow := h.last c hc
    cases hf : c.opcode.flow <;> simp_all [Opcode.Flow.fallsThrough]
  apply Survey.exists_ofMethod h.nonempty (Insn.sweepFrom_of_row (by simpa using hne) hrow)
  · apply Survey.checkTargets_ok_iff.2
    simp only [List.forall_mem_map]
    intro c hc t ht
    obtain ⟨ts, hts⟩ := htargets c hc
    have hmem : t ∈ ts := by simpa [Cursor.insn, hts, Except.toOption] using ht
    obtain ⟨offset, ho, hoffset⟩ := (Cursor.mem_targets_iff (Cursor.fits_of_moveTo (hmove c hc)) hts).1 hmem
    obtain ⟨d, hd, hd'⟩ := h.target c hc offset ho
    obtain rfl : d.position = t := by omega
    exact hmark d hd
  · apply Survey.checkHandlers_ok_iff.2
    intro x hx bci hentry
    obtain ⟨hrange, hlimit, d, hd, rfl⟩ := h.handler x hx bci hentry
    exact ⟨hrange, hlimit, (hlt d hd).2, hmark d hd⟩

end

/-! ## Starts and flags -/

/-- A layout has the starts that the instructions of `cs` and the handlers ask for, with their flags, and no
others. -/
structure Start.Exact (handlers : List Handler) (cs : List Cursor) (starts : List Start) : Prop where
  ascending : (starts.map bci).Pairwise (· < ·)
  mem_iff : ∀ t, t ∈ starts.map bci ↔ t = 0 ∨ (∃ c ∈ cs, c.Names t) ∨
    (∃ x ∈ handlers, x.entryIndex? = some t) ∨
    ∃ c ∈ cs, (c.opcode.flow ∈ [.branch, .jsr, .switch] ∨ c.opcode.flow.fallsThrough = false) ∧
      c.next = t ∧ ∃ d ∈ cs, d.position = t
  standardEntry : ∀ s ∈ starts, s.flags.standardEntry = true ↔ s.bci = 0
  exceptionEntry : ∀ s ∈ starts, s.flags.exceptionEntry = true ↔ ∃ x ∈ handlers, x.entryIndex? = some s.bci
  subroutineEntry : ∀ s ∈ starts,
    s.flags.subroutineEntry = true ↔ ∃ c ∈ cs, c.opcode.flow = .jsr ∧ c.Names s.bci
  /-- A backward target is the target of an instruction at the same or a higher index. -/
  backwardTarget : ∀ s ∈ starts, s.flags.backwardTarget = true ↔ ∃ c ∈ cs, c.Names s.bci ∧ s.bci ≤ c.position
  loopHeader : ∀ s ∈ starts, s.flags.loopHeader = true ↔ ∃ c ∈ cs, c.Names s.bci ∧ s.bci ≤ c.position
  defaultHandler : ∀ s ∈ starts, s.flags.defaultHandler = false

section
variable {code : Array UInt8} {handlers : List Handler} {v : Survey} {t : Nat}

theorem Survey.names_iff (h : Survey.ofMethod code handlers = .ok v) {i : Insn} (hi : i ∈ v.insns) :
    (i.cursor code).Names t ↔ t ∈ i.targets :=
  (Cursor.mem_targets_iff (fits h hi) (Insn.targets_of_read (read_of_mem h hi))).symm

theorem Survey.handlerEntries_iff (h : Survey.ofMethod code handlers = .ok v) :
    t ∈ v.handlerEntries ↔ ∃ x ∈ handlers, x.entryIndex? = some t := by
  rw [(ofMethod_ok h).2.2.1, List.mem_filterMap]

theorem Opcode.Flow.endsBlock_iff (f : Opcode.Flow) :
    f.endsBlock = true ↔ f ∈ [.branch, .jsr, .switch] ∨ f.fallsThrough = false := by
  cases f <;> simp [endsBlock, fallsThrough]

theorem Survey.mem_starts_iff (h : Survey.ofMethod code handlers = .ok v) :
    t ∈ v.starts ↔ t = 0 ∨ (∃ i ∈ v.insns, t ∈ i.targets) ∨ (∃ x ∈ handlers, x.entryIndex? = some t) ∨
      ∃ i ∈ v.insns, i.endsBlock = true ∧ i.next = t ∧ ∃ k ∈ v.insns, k.bci = t := by
  constructor
  · intro ht
    obtain ⟨hlt, ht⟩ := (mem_starts h).1 ht
    simp only [startIndices, List.mem_append, List.mem_cons, List.mem_flatMap, handlerEntries_iff h] at ht
    rcases ht with (rfl | ⟨i, hi, ht | ht⟩) | hentry
    · exact .inl rfl
    · exact .inr (.inl ⟨i, hi, ht⟩)
    · split at ht
      · rename_i hends
        have hends := (Bool.and_eq_true_iff.1 hends).1
        obtain rfl := List.mem_singleton.1 ht
        exact .inr (.inr (.inr ⟨i, hi, hends, rfl, exists_insn_of_next h hi hlt⟩))
      · cases ht
    · exact .inr (.inr (.inl hentry))
  · rintro (rfl | ⟨i, hi, ht⟩ | ⟨x, hx, hentry⟩ | ⟨i, hi, hends, rfl, k, hk, hbci⟩)
    · exact zero_mem_starts h
    · exact target_mem_starts h hi ht
    · exact handler_mem_starts h hx hentry
    · apply next_mem_starts h hi hends
      rw [← hbci]
      exact bci_lt h hk

theorem Survey.exact_layout (h : Survey.ofMethod code handlers = .ok v) :
    Start.Exact handlers (v.insns.map (Insn.cursor code)) v.layout := by
  have hmem : ∀ {s : Start}, s ∈ v.layout → s.bci < v.size := by
    intro s hs
    rw [size_eq h]
    exact bci_lt_of_mem_layout h hs
  have hflags : ∀ {s : Start}, s ∈ v.layout → s.flags = v.entryMarks.flagsAt s.bci := fun hs =>
    Start.flags_of_mem_ofNumbering hs
  have hbackward : ∀ {s : Start}, s ∈ v.layout → ((v.entryMarks.backward.has s.bci = true ↔
      ∃ c ∈ v.insns.map (Insn.cursor code), c.Names s.bci ∧ s.bci ≤ c.position)) := by
    intro s hs
    simp only [entryMarks, Marks.has_ofList, hmem hs, true_and, backwardTargets, List.mem_flatMap,
      List.mem_filter, decide_eq_true_eq, List.mem_map, exists_exists_and_eq_and]
    constructor
    · rintro ⟨i, hi, ht, hle⟩
      exact ⟨i, hi, (names_iff h hi).2 ht, hle⟩
    · rintro ⟨i, hi, ht, hle⟩
      exact ⟨i, hi, (names_iff h hi).1 ht, hle⟩
  constructor
  · rw [map_bci_layout]
    exact starts_sorted
  · intro t
    rw [map_bci_layout, mem_starts_iff h]
    simp only [List.mem_map, exists_exists_and_eq_and, ← Opcode.Flow.endsBlock_iff]
    have hnames : (∃ i ∈ v.insns, t ∈ i.targets) ↔ ∃ i ∈ v.insns, (i.cursor code).Names t :=
      exists_congr fun i => and_congr_right fun hi => (names_iff h hi).symm
    rw [hnames]
    rfl
  · intro s hs
    rw [hflags hs]
    simp [EntryMarks.flagsAt]
  · intro s hs
    rw [hflags hs]
    simp only [EntryMarks.flagsAt, entryMarks, Marks.has_ofList, hmem hs, true_and, handlerEntries_iff h]
  · intro s hs
    rw [hflags hs]
    simp only [EntryMarks.flagsAt, entryMarks, Marks.has_ofList, hmem hs, true_and, subroutineEntries,
      List.mem_flatMap, List.mem_map, exists_exists_and_eq_and]
    constructor
    · rintro ⟨i, hi, ht⟩
      split at ht
      · rename_i hf
        exact ⟨i, hi, hf, (names_iff h hi).2 ht⟩
      · cases ht
    · rintro ⟨i, hi, hf, ht⟩
      refine ⟨i, hi, ?_⟩
      rw [if_pos (show i.flow = .jsr from hf)]
      exact (names_iff h hi).1 ht
  · intro s hs
    rw [hflags hs]
    exact hbackward hs
  · intro s hs
    rw [hflags hs]
    exact hbackward hs
  · intro s hs
    exact defaultHandler_of_mem_layout hs

end

/-- **What is laid out, and how.** A method has a layout just when it is well-formed, and then the layout has
just the starts and flags that the instructions and handlers ask for. In every graph the blocks of the
starts get the next indices by increasing index in the code, and the graph is left alone otherwise. -/
theorem layout_exact (code : Array UInt8) (handlers : List Handler) :
    ((∃ starts, layout code handlers = .ok starts) ↔ ∃ cs, WellFormed code handlers cs) ∧
    (∀ starts cs, layout code handlers = .ok starts → WellFormed code handlers cs →
      Start.Exact handlers cs starts) ∧
    ∀ starts (g : Graph), layout code handlers = .ok starts →
      (g.place (.blank code.size) starts).1 = { g with blocks := g.blocks ++ (starts.map Start.block).toArray } ∧
      (∀ k s, starts[k]? = some s → (g.place (.blank code.size) starts).2.get s.bci = some (g.blocks.size + k)) ∧
      ∀ t, t ∉ starts.map Start.bci → (g.place (.blank code.size) starts).2.get t = none := by
  refine ⟨⟨?_, ?_⟩, ?_, ?_⟩
  · rintro ⟨starts, h⟩
    obtain ⟨v, hsurvey, -⟩ := Survey.exists_of_layout h
    exact ⟨_, .of_ofMethod hsurvey⟩
  · rintro ⟨cs, hwell⟩
    obtain ⟨v, hsurvey⟩ := hwell.exists_ofMethod
    exact ⟨v.layout, by rw [layout, hsurvey]; rfl⟩
  · intro starts cs h hwell
    obtain ⟨v, hsurvey, rfl⟩ := Survey.exists_of_layout h
    obtain rfl := hwell.tile.unique (WellFormed.of_ofMethod hsurvey).tile
    exact Survey.exact_layout hsurvey
  · intro starts g h
    obtain ⟨v, hsurvey, rfl⟩ := Survey.exists_of_layout h
    refine ⟨Graph.place_fst _, fun k s hk => Survey.get_place_layout hsurvey g hk, fun t ht => ?_⟩
    rw [Graph.get_place_of_not_mem _ ht, BlockTable.get_blank]

/-- A call, the instruction that it comes back to, and its subroutine, which begins at index 4. -/
def callOnce : Method where
  name := "once"
  code := #[0xa8, 0, 4, 0xb1, 0x4c, 0xa9, 1]

theorem callOnce_layout : ∃ starts cs, layout callOnce.code callOnce.handlers = .ok starts ∧
    starts.map (fun s => (s.bci, s.flags.bits)) = [(0, 1), (3, 0), (4, 4)] ∧
    WellFormed callOnce.code callOnce.handlers cs ∧ Start.Exact callOnce.handlers cs starts := by
  have hvalue : (layout callOnce.code callOnce.handlers).toOption.map
      (List.map fun s => (s.bci, s.flags.bits)) = some [(0, 1), (3, 0), (4, 4)] := by decide +kernel
  obtain ⟨hok, hexact, -⟩ := layout_exact callOnce.code callOnce.handlers
  cases hlayout : layout callOnce.code callOnce.handlers with
  | error fault => rw [hlayout] at hvalue; cases hvalue
  | ok starts =>
    obtain ⟨cs, hwell⟩ := hok.1 ⟨starts, hlayout⟩
    rw [hlayout] at hvalue
    exact ⟨starts, cs, rfl, Option.some.inj hvalue, hwell, hexact starts cs hlayout hwell⟩

end BlockGraph
