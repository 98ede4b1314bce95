import Mathlib.Data.List.MinMax
import Mathlib.Data.Prod.Lex
import BlockGraph.Agenda

/-!
# Agendas are stable queues

An agenda does not say when its blocks came, yet of two blocks with equal numbers it lets the one go
first that came first. A queue of tickets keeps the times (`Tickets`): it takes out the ticket with the
least number, and of those the earliest. An agenda serves the tickets of such a queue in order
(`Agenda.Serves`), and what either operation does to both is told by `Agenda.Serves.insert` and
`Agenda.Serves.pop`. Main statement: `agenda_stable`.
-/

namespace BlockGraph

/-- A block in a queue, with its number and the time when it came. -/
structure Ticket where
  number : Nat
  time : Nat
  block : BlockId
deriving DecidableEq, Repr

namespace Ticket

/-- Tickets are ordered by their numbers, and those with equal numbers by their times. -/
def key (x : Ticket) : Nat ×ₗ Nat := toLex (x.number, x.time)

/-- What an agenda keeps of a ticket. -/
def entry (x : Ticket) : BlockId × Nat := (x.block, x.number)

/-- The ticket that goes first. -/
def first? (l : List Ticket) : Option Ticket := l.argmin key

theorem key_lt_iff {x y : Ticket} :
    x.key < y.key ↔ x.number < y.number ∨ x.number = y.number ∧ x.time < y.time :=
  Prod.Lex.toLex_lt_toLex

/-- A ticket that goes before all others goes first. -/
theorem first?_eq {x : Ticket} {l : List Ticket} (hx : x ∈ l) (hlt : ∀ y ∈ l, y ≠ x → x.key < y.key) :
    first? l = some x := by
  cases hfirst : first? l with
  | none => rw [List.argmin_eq_none.1 hfirst] at hx; cases hx
  | some y =>
    obtain ⟨hy, hle, -⟩ := List.argmin_eq_some_iff.1 hfirst
    by_contra hne
    exact absurd (hlt y hy fun he => hne (congrArg some he)) (not_lt.2 (hle x hx))

end Ticket

/-- Tickets that wait, in any order, and the time of the next one to come. -/
structure Tickets where
  waiting : List Ticket := []
  clock : Nat := 0
deriving DecidableEq, Repr

namespace Tickets

def insert (q : Tickets) (b : BlockId) (number : Nat) : Tickets :=
  { waiting := { number := number, time := q.clock, block := b } :: q.waiting, clock := q.clock + 1 }

/-- The block of the ticket that goes first, and the queue without that ticket. -/
def pop (q : Tickets) : Option BlockId × Tickets :=
  match Ticket.first? q.waiting with
  | none => (none, q)
  | some x => (some x.block, { q with waiting := q.waiting.erase x })

end Tickets

/-! ## One operation -/

namespace Agenda

variable {a : Agenda} {l : List Ticket} {x : Ticket}

/-- The entries of an agenda are those of some tickets, in the order in which these go. -/
def Serves (a : Agenda) (q : List Ticket) : Prop :=
  ∃ l : List Ticket, l.Perm q ∧ l.Pairwise (·.key < ·.key) ∧ a.entries = l.map Ticket.entry

theorem Serves.nil : Serves {} [] := ⟨[], .refl _, .nil, rfl⟩

theorem Serves.congr {q q' : List Ticket} (h : a.Serves q) (hq : q.Perm q') : a.Serves q' := by
  obtain ⟨l, hperm, hsorted, hentries⟩ := h
  exact ⟨l, hperm.trans hq, hsorted, hentries⟩

theorem Serves.perm {q : List Ticket} (h : a.Serves q) : a.entries.Perm (q.map Ticket.entry) := by
  obtain ⟨l, hperm, -, hentries⟩ := h
  rw [hentries]
  exact hperm.map _

theorem Serves.nodup {q : List Ticket} (h : a.Serves q) : q.Nodup := by
  obtain ⟨l, hperm, hsorted, -⟩ := h
  have hnodup : l.Nodup := hsorted.imp fun hlt => ne_of_apply_ne Ticket.key hlt.ne
  exact hperm.nodup_iff.1 hnodup

/-- A ticket that comes later than all others is put behind those with the same number. By induction on the
tickets before it, which the agenda passes over one by one. -/
theorem insertEntry_map : ∀ {l : List Ticket}, l.Pairwise (·.key < ·.key) → (∀ y ∈ l, y.time < x.time) →
    ∃ l' : List Ticket, insertEntry x.block x.number (l.map Ticket.entry) = l'.map Ticket.entry ∧
      l'.Perm (x :: l) ∧ l'.Pairwise (·.key < ·.key)
  | [], _, _ => ⟨[x], rfl, .refl _, by simp⟩
  | y :: l, hsorted, hearly => by
    obtain ⟨hy, hl⟩ := List.pairwise_cons.1 hsorted
    have htime := hearly y List.mem_cons_self
    unfold insertEntry
    simp only [List.map_cons]
    by_cases hlt : x.number < y.number
    · have hxy : x.key < y.key := Ticket.key_lt_iff.2 (.inl hlt)
      refine ⟨x :: y :: l, if_pos hlt, .refl _, List.pairwise_cons.2 ⟨fun z hz => ?_, hsorted⟩⟩
      rcases List.mem_cons.1 hz with rfl | hz
      · exact hxy
      · exact hxy.trans (hy z hz)
    · have hyx : y.key < x.key := by
        rw [Ticket.key_lt_iff]
        omega
      obtain ⟨l', hinsert, hperm, hsorted'⟩ :=
        insertEntry_map hl fun z hz => hearly z (List.mem_cons_of_mem _ hz)
      refine ⟨y :: l', ?_, ?_, List.pairwise_cons.2 ⟨fun z hz => ?_, hsorted'⟩⟩
      · rw [List.map_cons, ← hinsert]
        exact if_neg hlt
      · exact (hperm.cons y).trans (.swap ..)
      · rcases List.mem_cons.1 (hperm.mem_iff.1 hz) with rfl | hz
        · exact hyx
        · exact hy z hz

theorem Serves.insert {q : List Ticket} (h : a.Serves q) (hx : ∀ y ∈ q, y.time < x.time) :
    (a.insert x.block x.number).Serves (x :: q) := by
  obtain ⟨l, hperm, hsorted, hentries⟩ := h
  obtain ⟨l', hinsert, hperm', hsorted'⟩ :=
    insertEntry_map (x := x) hsorted fun y hy => hx y (hperm.mem_iff.1 hy)
  refine ⟨l', hperm'.trans (hperm.cons x), hsorted', ?_⟩
  rw [← hinsert, ← hentries]
  rfl

/-- The block of the first ticket is taken off, and the other tickets are still served. -/
theorem Serves.pop {q : List Ticket} (h : a.Serves q) :
    a.pop.1 = (Ticket.first? q).map (·.block) ∧
      a.pop.2.Serves ((Ticket.first? q).elim q fun x => q.erase x) := by
  obtain ⟨l, hperm, hsorted, hentries⟩ := h
  unfold Agenda.pop
  cases l with
  | nil =>
    cases hperm.symm.eq_nil
    rw [hentries]
    exact ⟨rfl, [], .refl _, .nil, hentries⟩
  | cons x l =>
    obtain ⟨hx, hl⟩ := List.pairwise_cons.1 hsorted
    have hfirst : Ticket.first? q = some x := by
      refine Ticket.first?_eq (hperm.mem_iff.1 List.mem_cons_self) fun y hy hne => ?_
      exact hx y ((List.mem_cons.1 (hperm.mem_iff.2 hy)).resolve_left hne)
    rw [hfirst, hentries]
    refine ⟨rfl, l, ?_, hl, rfl⟩
    have herase := hperm.erase x
    rwa [List.erase_cons_head] at herase

theorem Serves.sorted {q : List Ticket} (h : a.Serves q) : a.entries.Pairwise (·.2 ≤ ·.2) := by
  obtain ⟨l, -, hsorted, hentries⟩ := h
  rw [hentries, List.pairwise_map]
  refine hsorted.imp fun {x y} hlt => ?_
  have := Ticket.key_lt_iff.1 hlt
  show x.number ≤ y.number
  omega

end Agenda

/-! ## Any number of operations -/

/-- An operation on a queue. -/
inductive QueueOp where
  | insert (b : BlockId) (number : Nat)
  | pop
deriving DecidableEq, Repr

namespace QueueOp

/-- The answers of some operations on a queue, one for each `pop`, and the queue after them. -/
def run {α : Type} (insert : α → BlockId → Nat → α) (pop : α → Option BlockId × α) :
    List QueueOp → α → List (Option BlockId) × α
  | [], q => ([], q)
  | .insert b number :: rest, q => run insert pop rest (insert q b number)
  | .pop :: rest, q =>
    let (answer, q) := pop q
    let (answers, q) := run insert pop rest q
    (answer :: answers, q)

/-- The blocks that some operations insert. -/
def inserted (ops : List QueueOp) : List BlockId :=
  ops.filterMap fun
    | .insert b _ => some b
    | .pop => none

end QueueOp

/-- An agenda serves the tickets of a queue, all of which have come before now. -/
structure Agenda.Follows (a : Agenda) (q : Tickets) : Prop where
  serves : a.Serves q.waiting
  early : ∀ x ∈ q.waiting, x.time < q.clock

namespace Agenda.Follows

variable {a : Agenda} {q : Tickets}

theorem nil : Follows {} {} := ⟨.nil, by simp⟩

theorem insert (h : a.Follows q) (b : BlockId) (number : Nat) :
    (a.insert b number).Follows (q.insert b number) := by
  refine ⟨h.serves.insert (x := ⟨number, q.clock, b⟩) h.early, fun x hx => ?_⟩
  rcases List.mem_cons.1 hx with rfl | hx
  · exact Nat.lt_succ_self q.clock
  · exact Nat.lt_succ_of_lt (h.early x hx)

theorem pop (h : a.Follows q) : a.pop.1 = q.pop.1 ∧ a.pop.2.Follows q.pop.2 := by
  obtain ⟨hanswer, hserves⟩ := h.serves.pop
  unfold Tickets.pop
  cases hfirst : Ticket.first? q.waiting with
  | none =>
    rw [hfirst] at hanswer hserves
    exact ⟨hanswer, hserves, h.early⟩
  | some x =>
    rw [hfirst] at hanswer hserves
    exact ⟨hanswer, hserves, fun y hy => h.early y (List.mem_of_mem_erase hy)⟩

theorem run : ∀ (ops : List QueueOp) {a : Agenda} {q : Tickets}, a.Follows q →
    (QueueOp.run Agenda.insert Agenda.pop ops a).1 = (QueueOp.run Tickets.insert Tickets.pop ops q).1 ∧
      (QueueOp.run Agenda.insert Agenda.pop ops a).2.Follows
        (QueueOp.run Tickets.insert Tickets.pop ops q).2
  | [], _, _, h => ⟨rfl, h⟩
  | .insert b number :: ops, _, _, h => run ops (h.insert b number)
  | .pop :: ops, _, _, h => by
    obtain ⟨hanswer, hnext⟩ := h.pop
    obtain ⟨hanswers, hlast⟩ := run ops hnext
    refine ⟨?_, hlast⟩
    simp only [QueueOp.run, hanswer, hanswers]

end Agenda.Follows

/-- The block that is taken off an agenda was on it, and the others stay. -/
theorem Agenda.pop_perm (a : Agenda) :
    (a.entries.map Prod.fst).Perm (a.pop.1.toList ++ a.pop.2.entries.map Prod.fst) := by
  unfold Agenda.pop
  split
  · rename_i hentries
    simp [hentries]
  · rename_i hentries
    simp [hentries]

/-- What has been inserted has been taken off or is still there, in as many copies. -/
theorem Agenda.run_perm : ∀ (ops : List QueueOp) (a : Agenda),
    (QueueOp.inserted ops ++ a.entries.map Prod.fst).Perm
      ((QueueOp.run Agenda.insert Agenda.pop ops a).1.reduceOption ++
        (QueueOp.run Agenda.insert Agenda.pop ops a).2.entries.map Prod.fst)
  | [], _ => .refl _
  | .insert b number :: ops, a => by
    have hinsert := (Agenda.insertEntry_perm b number a.entries).map Prod.fst
    refine .trans ?_ (run_perm ops (a.insert b number))
    exact List.perm_middle.symm.trans (hinsert.symm.append_left (QueueOp.inserted ops))
  | .pop :: ops, a => by
    have hrest := run_perm ops a.pop.2
    have hpop := a.pop_perm.append_left (QueueOp.inserted ops)
    simp only [QueueOp.run]
    refine hpop.trans ?_
    cases a.pop.1 with
    | none => exact hrest
    | some b => exact List.perm_middle.trans (hrest.cons b)

/-- **An agenda is a stable queue.** Whatever is inserted into an empty agenda and taken off it, in any
order, the answers are those of the queue that takes out the ticket with the least number, the earliest one
among equals. After it, the numbers fall from the last entry of the agenda to the first, its entries are
those of the tickets that wait, all that was inserted has been taken off or is still there, and nothing is
left to be taken off just when as many blocks have been taken off as were inserted. -/
theorem agenda_stable (ops : List QueueOp) : ∃ answers a q,
    QueueOp.run Agenda.insert Agenda.pop ops {} = (answers, a) ∧
    QueueOp.run Tickets.insert Tickets.pop ops {} = (answers, q) ∧
    a.entries.reverse.Pairwise (fun x y => y.2 ≤ x.2) ∧
    a.entries.Perm (q.waiting.map Ticket.entry) ∧
    (QueueOp.inserted ops).Perm (answers.reduceOption ++ a.entries.map Prod.fst) ∧
    (a.pop.1 = none ↔ (QueueOp.inserted ops).length = answers.reduceOption.length) ∧
    a.size = q.waiting.length ∧ a.isEmpty = q.waiting.isEmpty := by
  obtain ⟨hanswers, hfollows⟩ := Agenda.Follows.run ops .nil
  have hperm := Agenda.run_perm ops {}
  generalize QueueOp.run Agenda.insert Agenda.pop ops {} = r at hanswers hfollows hperm ⊢
  obtain ⟨answers, a⟩ := r
  have hentries := hfollows.serves.perm
  have hlength : a.entries.length = (QueueOp.run Tickets.insert Tickets.pop ops {}).2.waiting.length := by
    rw [hentries.length_eq, List.length_map]
  simp only [List.map_nil, List.append_nil] at hperm
  refine ⟨answers, a, _, rfl, Prod.ext hanswers.symm rfl, ?_, hentries, hperm, ?_, hlength, ?_⟩
  · rw [List.pairwise_reverse]
    exact hfollows.serves.sorted
  · have hcount := hperm.length_eq
    rw [List.length_append, List.length_map] at hcount
    have hnone : a.pop.1 = none ↔ a.entries.length = 0 := by
      unfold Agenda.pop
      cases a.entries <;> simp
    rw [hnone]
    omega
  · unfold Agenda.isEmpty
    rw [Bool.eq_iff_iff, List.isEmpty_iff_length_eq_zero, List.isEmpty_iff_length_eq_zero, hlength]

end BlockGraph
