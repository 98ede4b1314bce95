import BlockGraph.Proofs.Bytecode.Roundtrip

/-!
# Reading the whole code

A cursor that starts at the first instruction and moves on until the code is used up gets through just
when the code is one instruction after the other, each written as the format has it. It then stops at
each of them, and there is no other way to take the code apart. Main statement: `walk_written`.
-/

namespace BlockGraph

variable {code : Array UInt8} {bci : Nat} {w : Written} {ws : List Written} {c d e : Cursor} {l : List Cursor}

/-! ## Walking through the code -/

namespace Cursor

theorem advance_some_iff {op : Opcode} :
    advance c = .ok (some op) d ↔ c.next < c.code.size ∧ moveTo c.next c = .ok op d := by
  unfold advance
  split
  · rename_i hlt
    simp only [Functor.map, EStateM.map]
    cases moveTo c.next c with
    | error fault d' => simp
    | ok op' d' => simp [hlt]
  · rename_i hge
    simp [hge]

theorem advance_none_iff : advance c = .ok none d ↔ c.code.size ≤ c.next ∧ d = { c with position := c.next } := by
  unfold advance
  split
  · rename_i hlt
    simp only [Functor.map, EStateM.map]
    cases moveTo c.next c with
    | error fault d' => simp; omega
    | ok op' d' => simp; omega
  · rename_i hge
    simp [Nat.not_lt.1 hge, eq_comm]

/-- Moves on until the code is used up: the cursors on the way, and the one at the end. -/
def walkOn (c : Cursor) : EStateM.Result Fault Cursor (List Cursor) :=
  match _h : advance c with
  | .error fault d => .error fault d
  | .ok none d => .ok [] d
  | .ok (some _) d =>
    match walkOn d with
    | .error fault e => .error fault e
    | .ok rest e => .ok (d :: rest) e
termination_by c.code.size - c.next
decreasing_by
  obtain ⟨hlt, hmove⟩ := advance_some_iff.1 _h
  obtain ⟨hcode, -, -, hnext, -⟩ := moveTo_progress hmove
  rw [hcode]
  omega

/-- Moves to the first instruction, and on until the code is used up. -/
def walk (c : Cursor) : EStateM.Result Fault Cursor (List Cursor) :=
  match moveTo 0 c with
  | .error fault d => .error fault d
  | .ok _ d =>
    match walkOn d with
    | .error fault e => .error fault e
    | .ok rest e => .ok (d :: rest) e

end Cursor

/-! ## One instruction after the other -/

/-- Instructions with the indices that they get when the first of them is written at `bci`. -/
def placed (bci : Nat) : List Written → List (Nat × Written)
  | [] => []
  | w :: ws => (bci, w) :: placed (bci + w.bytes.length) ws

/-- The code from an index on is one instruction after the other. -/
structure WrittenFrom (code : Array UInt8) (bci : Nat) (ws : List Written) : Prop where
  bytes : code.toList.drop bci = ws.flatMap Written.bytes
  fits : ∀ p ∈ placed bci ws, p.2.Fits p.1

theorem writtenFrom_nil (h : code.size ≤ bci) : WrittenFrom code bci [] :=
  ⟨List.drop_eq_nil_of_le (by rwa [code.length_toList]), fun _ h => nomatch h⟩

theorem writtenFrom_cons : WrittenFrom code bci (w :: ws) ↔
    w.Fits bci ∧ BytesAt code bci w.bytes ∧ WrittenFrom code (bci + w.bytes.length) ws := by
  constructor
  · rintro ⟨hbytes, hfits⟩
    rw [List.flatMap_cons] at hbytes
    refine ⟨hfits _ List.mem_cons_self, ⟨_, hbytes.symm⟩, ?_, fun p hp => hfits p (List.mem_cons_of_mem _ hp)⟩
    rw [← List.drop_drop, hbytes, List.drop_left]
  · rintro ⟨hw, ⟨rest, hrest⟩, hbytes, hfits⟩
    refine ⟨?_, fun p hp => ?_⟩
    · rw [← List.drop_drop, ← hrest, List.drop_left] at hbytes
      rw [List.flatMap_cons, ← hrest, hbytes]
    · rcases List.mem_cons.1 hp with rfl | hp
      · exact hw
      · exact hfits p hp

theorem WrittenFrom.length_le : ∀ {ws : List Written} {bci : Nat}, WrittenFrom code bci ws →
    ws.length ≤ code.size - bci := by
  intro ws
  induction ws with
  | nil => intro bci _; exact Nat.zero_le _
  | cons w ws ih =>
    intro bci h
    obtain ⟨-, hbytes, hrest⟩ := writtenFrom_cons.1 h
    have hle := hbytes.le Written.bytes_ne_nil
    have hpos := List.length_pos_iff.2 (Written.bytes_ne_nil (w := w))
    have hws := ih hrest
    rw [List.length_cons]
    omega

/-- Every instruction of the row is written where it is placed. -/
theorem WrittenFrom.shows : ∀ {ws : List Written} {bci : Nat}, WrittenFrom code bci ws →
    ∀ p ∈ placed bci ws, (p.2.cursor code p.1).Shows p.2 := by
  intro ws
  induction ws with
  | nil => intro bci _ p hp; cases hp
  | cons w ws ih =>
    intro bci h p hp
    obtain ⟨hfits, hbytes, hrest⟩ := writtenFrom_cons.1 h
    rcases List.mem_cons.1 hp with rfl | hp
    · exact Cursor.shows_cursor hfits hbytes
    · exact ih hrest p hp

/-- The cursors that the instructions of a row are seen with. -/
def seen (code : Array UInt8) (bci : Nat) (ws : List Written) : List Cursor :=
  (placed bci ws).map fun p => p.2.cursor code p.1

theorem seen_cons : seen code bci (w :: ws) = w.cursor code bci :: seen code (bci + w.bytes.length) ws := rfl

/-- Reading back what a row is seen with gives the row. -/
theorem WrittenFrom.eq_map_seen (h : WrittenFrom code bci ws) : ws = (seen code bci ws).map Cursor.written := by
  induction ws generalizing bci with
  | nil => rfl
  | cons w ws ih =>
    have hw := (h.shows _ List.mem_cons_self).written_eq
    rw [seen_cons, List.map_cons, hw, ← ih (writtenFrom_cons.1 h).2.2]

namespace Cursor

theorem Shows.moveTo_eq (h : (w.cursor code bci).Shows w) (hd : d.code = code) :
    moveTo bci d = .ok w.opcode (w.cursor code bci) :=
  moveTo_ok_iff_shows.2 ⟨w, h, hd.symm, rfl, rfl⟩

/-- A row of instructions is walked through, up to the end of the code. -/
theorem walkOn_of_written : ∀ {ws : List Written} {c : Cursor}, WrittenFrom c.code c.next ws →
    c.next ≤ c.code.size → ∃ e, walkOn c = .ok (seen c.code c.next ws) e ∧ e.next = c.code.size := by
  intro ws
  induction ws with
  | nil =>
    intro c h hle
    have hend : c.code.size ≤ c.next := by simpa using h.bytes
    rw [walkOn, advance_none_iff.2 ⟨hend, rfl⟩]
    exact ⟨_, rfl, Nat.le_antisymm hle hend⟩
  | cons w ws ih =>
    intro c h hle
    obtain ⟨hfits, hbytes, hrest⟩ := writtenFrom_cons.1 h
    have hshows := shows_cursor hfits hbytes
    have hsize := hbytes.le Written.bytes_ne_nil
    have hpos := List.length_pos_iff.2 (Written.bytes_ne_nil (w := w))
    obtain ⟨e, hwalk, hnext⟩ := ih (c := w.cursor c.code c.next) hrest hsize
    rw [walkOn, advance_some_iff.2 ⟨by omega, hshows.moveTo_eq rfl⟩]
    simp only [hwalk]
    exact ⟨e, rfl, hnext⟩

/-- What is walked through is a row of instructions. -/
theorem exists_written_of_walkOn (h : walkOn c = .ok l e) : ∃ ws, WrittenFrom c.code c.next ws := by
  induction l generalizing c with
  | nil =>
    rw [walkOn] at h
    split at h
    · cases h
    · rename_i d hnone
      exact ⟨[], writtenFrom_nil (advance_none_iff.1 hnone).1⟩
    · split at h <;> cases h
  | cons d l ih =>
    rw [walkOn] at h
    split at h
    · cases h
    · cases h
    · rename_i op d' hsome
      split at h
      · cases h
      · rename_i rest e' hrest
        obtain ⟨w, hshows, hcode, hposition, -⟩ := moveTo_ok_iff_shows.1 (advance_some_iff.1 hsome).2
        cases h
        obtain ⟨ws, hws⟩ := ih hrest
        rw [hshows.next, hcode, hposition] at hws
        exact ⟨w :: ws, writtenFrom_cons.2 ⟨hposition ▸ hshows.fits, hcode ▸ hposition ▸ hshows.bytes, hws⟩⟩

theorem walk_of_written (hne : c.code ≠ #[]) (h : WrittenFrom c.code 0 ws) :
    ∃ e, walk c = .ok (seen c.code 0 ws) e ∧ e.next = c.code.size := by
  cases ws with
  | nil =>
    have hend : c.code.size ≤ 0 := by simpa using h.bytes
    exact absurd (Array.eq_empty_of_size_eq_zero (Nat.le_zero.1 hend)) hne
  | cons w ws =>
    obtain ⟨hfits, hbytes, hrest⟩ := writtenFrom_cons.1 h
    have hshows := shows_cursor hfits hbytes
    obtain ⟨e, hwalk, hnext⟩ :=
      walkOn_of_written (c := w.cursor c.code 0) hrest (hbytes.le Written.bytes_ne_nil)
    rw [walk, hshows.moveTo_eq rfl]
    simp only [hwalk]
    exact ⟨e, rfl, hnext⟩

theorem exists_written_of_walk (h : walk c = .ok l e) : ∃ ws, WrittenFrom c.code 0 ws := by
  unfold walk at h
  split at h
  · cases h
  · rename_i op d hmove
    split at h
    · cases h
    · rename_i rest e' hrest
      obtain ⟨w, hshows, hcode, hposition, -⟩ := moveTo_ok_iff_shows.1 hmove
      obtain ⟨ws, hws⟩ := exists_written_of_walkOn hrest
      rw [hshows.next, hcode, hposition] at hws
      exact ⟨w :: ws, writtenFrom_cons.2 ⟨hposition ▸ hshows.fits, hcode ▸ hposition ▸ hshows.bytes, hws⟩⟩

/-- **The cursor accepts just the format, and undoes it.** Code can be walked through if and only if it is a
row of instructions as the format has them. That row is the only one. The walk stops at each of its
instructions, of which there are no more than bytes of code, and ends where the code ends. From anywhere a
cursor can also move to any of them, and there it answers what the instruction was written with: its local,
its target, or its table of targets, if these lie in the code. -/
theorem walk_written (c : Cursor) (hne : c.code ≠ #[]) :
    ((∃ l e, walk c = .ok l e) ↔ ∃ ws, WrittenFrom c.code 0 ws) ∧
      ∀ ws, WrittenFrom c.code 0 ws →
        (∀ ws', WrittenFrom c.code 0 ws' → ws' = ws) ∧
        (∃ e, walk c = .ok ((placed 0 ws).map fun p => p.2.cursor c.code p.1) e ∧ e.next = c.code.size) ∧
        ws.length ≤ c.code.size ∧
        ∀ bci w, (bci, w) ∈ placed 0 ws →
          (∀ d : Cursor, d.code = c.code → moveTo bci d = .ok w.opcode (w.cursor c.code bci)) ∧
          (∀ slot, w.Uses slot → (w.cursor c.code bci).localSlot = .ok slot) ∧
          (∀ distance, w.Jumps distance →
            (w.cursor c.code bci).branchTarget = Written.reach c.code bci distance) ∧
          (∀ distance distances, w.distances? = some (distance, distances) →
            (w.cursor c.code bci).jumpTable = do
              let fallback ← Written.reach c.code bci distance
              return (fallback, ← distances.mapM (Written.reach c.code bci))) := by
  refine ⟨⟨fun ⟨l, e, h⟩ => exists_written_of_walk h, fun ⟨ws, h⟩ => ?_⟩, fun ws h => ⟨fun ws' h' => ?_,
    walk_of_written hne h, h.length_le, fun bci w hp => ?_⟩⟩
  · obtain ⟨e, hwalk, -⟩ := walk_of_written hne h
    exact ⟨_, e, hwalk⟩
  · -- The walk is one and the same, and a row is read back from what it is seen with.
    obtain ⟨e, hwalk, -⟩ := walk_of_written hne h
    obtain ⟨e', hwalk', -⟩ := walk_of_written hne h'
    rw [hwalk] at hwalk'
    rw [h'.eq_map_seen, h.eq_map_seen, (EStateM.Result.ok.inj hwalk').1]
  · have hshows := h.shows _ hp
    exact ⟨fun d hd => hshows.moveTo_eq hd, fun slot => hshows.localSlot_eq,
      fun distance => hshows.branchTarget_eq, fun distance distances => hshows.jumpTable_eq⟩

/-- Code with a widened store, a jump back to it and a switch over one case. -/
def switching : Array UInt8 :=
  #[0xc4, 0x3a, 0x01, 0x02, 0xa7, 0xff, 0xfc, 0xab, 0, 0, 0, 13, 0, 0, 0, 1, 0, 0, 0, 9, 0xff, 0xff, 0xff, 0xfd]

/-- What `switching` says. -/
def switchingRow : List Written :=
  [.wideLocal 0x3a 258, .plain 0xa7 [0xff, 0xfc], .lookup [] 13 [(9, -3)]]

theorem walk_written_switching : switching ≠ #[] ∧ WrittenFrom switching 0 switchingRow ∧
    ∃ e, walk (.ofCode switching) = .ok (seen switching 0 switchingRow) e ∧ e.next = 24 := by
  have hrow : WrittenFrom switching 0 switchingRow := ⟨by decide +kernel, by decide +kernel⟩
  exact ⟨by decide, hrow, ((walk_written (.ofCode switching) (by decide)).2 _ hrow).2.1⟩

end Cursor

end BlockGraph
