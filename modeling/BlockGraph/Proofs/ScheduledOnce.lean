import Mathlib.Data.List.Nodup
import BlockGraph.Proofs.Sessions
import BlockGraph.Proofs.Tickets

/-!
# Blocks are scheduled once

Every context has an agenda of its own, but a block says for all of them that it has been scheduled. The
history of a session tells which tickets a context has in line (`Session.pending`). In every session the
agenda of a context serves just these, and no two records of a history schedule the same block
(`Session.Accounts`). Main statement: `scheduled_once`.
-/

namespace BlockGraph

/-! ## Histories -/

namespace Record

def scheduledBlock? : Record → Option BlockId
  | .scheduled _ b _ => some b
  | _ => none

def removedBlock? : Record → Option BlockId
  | .removed _ b => some b
  | _ => none

/-- The ticket of a block that a context schedules at a time. -/
def ticket? (name time : Nat) : Record → Option Ticket
  | .scheduled m b number => if m = name then some { number := number, time := time, block := b } else none
  | _ => none

theorem ticket?_eq_some_iff {name time : Nat} {r : Record} {x : Ticket} :
    r.ticket? name time = some x ↔ r = .scheduled name x.block x.number ∧ time = x.time := by
  obtain ⟨n, t, b⟩ := x
  cases r with
  | found | removed => simp [ticket?]
  | scheduled m c number =>
    simp only [ticket?, Option.ite_none_right_eq_some, Option.some_inj, Ticket.mk.injEq,
      Record.scheduled.injEq]
    tauto

end Record

namespace Session

/-- The tickets of all blocks that a context has scheduled. Time is the length of the history. -/
def tickets (name : Nat) (history : List Record) : List Ticket :=
  history.zipIdx.filterMap fun (r, time) => r.ticket? name time

/-- The tickets of the blocks that a context has scheduled and not removed. -/
def pending (name : Nat) (history : List Record) : List Ticket :=
  (tickets name history).filter fun x => .removed name x.block ∉ history

section
variable {name time number : Nat} {b : BlockId} {history : List Record} {r : Record} {x : Ticket}

theorem mem_scheduledBlocks : b ∈ history.filterMap Record.scheduledBlock? ↔
    ∃ name number, .scheduled name b number ∈ history := by
  rw [List.mem_filterMap]
  constructor
  · rintro ⟨_ | ⟨name, c, number⟩ | _, hr, hb⟩ <;> cases hb
    exact ⟨name, number, hr⟩
  · rintro ⟨name, number, hr⟩
    exact ⟨_, hr, rfl⟩

theorem mem_removedBlocks : b ∈ history.filterMap Record.removedBlock? ↔
    ∃ name, .removed name b ∈ history := by
  rw [List.mem_filterMap]
  constructor
  · rintro ⟨_ | _ | ⟨name, c⟩, hr, hb⟩ <;> cases hb
    exact ⟨name, hr⟩
  · rintro ⟨name, hr⟩
    exact ⟨_, hr, rfl⟩

theorem mem_tickets : x ∈ tickets name history ↔
    history[x.time]? = some (.scheduled name x.block x.number) := by
  unfold tickets
  rw [List.mem_filterMap]
  constructor
  · rintro ⟨⟨r, time⟩, hr, hx⟩
    obtain ⟨rfl, rfl⟩ := Record.ticket?_eq_some_iff.1 hx
    exact List.mem_zipIdx_iff_getElem?.1 hr
  · intro hr
    exact ⟨(_, x.time), List.mem_zipIdx_iff_getElem?.2 hr, Record.ticket?_eq_some_iff.2 ⟨rfl, rfl⟩⟩

theorem mem_pending : x ∈ pending name history ↔
    history[x.time]? = some (.scheduled name x.block x.number) ∧ .removed name x.block ∉ history := by
  unfold pending
  rw [List.mem_filter, mem_tickets, decide_eq_true_iff]

theorem time_lt_of_mem_pending (h : x ∈ pending name history) : x.time < history.length :=
  (List.getElem?_eq_some_iff.1 (mem_pending.1 h).1).1

/-- What a context schedules waits until the context removes it. -/
theorem exists_pending (h : .scheduled name b number ∈ history) (hnot : .removed name b ∉ history) :
    ∃ x ∈ pending name history, x.block = b := by
  obtain ⟨time, htime⟩ := List.mem_iff_getElem?.1 h
  exact ⟨⟨number, time, b⟩, mem_pending.2 ⟨htime, hnot⟩, rfl⟩

theorem removed_of_pending_nil (hnil : pending name history = []) (h : .scheduled name b number ∈ history) :
    .removed name b ∈ history := by
  by_contra hnot
  obtain ⟨x, hx, -⟩ := exists_pending h hnot
  rw [hnil] at hx
  cases hx

theorem tickets_append : tickets name (history ++ [r]) =
    tickets name history ++ (r.ticket? name history.length).toList := by
  unfold tickets
  rw [List.zipIdx_append, List.filterMap_append, Nat.zero_add]
  cases hticket : r.ticket? name history.length <;> simp [hticket]

/-- A record of another context, or of a block that was found, changes nothing. -/
theorem pending_append_of_ne (hticket : r.ticket? name history.length = none)
    (hremoved : ∀ b, r ≠ .removed name b) : pending name (history ++ [r]) = pending name history := by
  unfold pending
  rw [tickets_append, hticket, Option.toList_none, List.append_nil]
  refine List.filter_congr fun x _ => ?_
  simp [(hremoved x.block).symm]

theorem pending_scheduled (hnot : .removed name b ∉ history) :
    pending name (history ++ [.scheduled name b number]) =
      pending name history ++ [⟨number, history.length, b⟩] := by
  unfold pending
  rw [tickets_append, List.filter_append]
  congr 1
  · exact List.filter_congr fun x _ => by simp
  · simp [Record.ticket?, hnot]

theorem pending_removed : pending name (history ++ [.removed name b]) =
    (pending name history).filter (·.block ≠ b) := by
  unfold pending
  rw [tickets_append, List.filter_filter]
  simp only [Record.ticket?, Option.toList_none, List.append_nil]
  refine List.filter_congr fun x _ => ?_
  simp [and_comm]

end

section
variable {s : Session} {level name : Nat} {b : BlockId} {c : Context} {x : Request}

/-- A request to schedule a block that is refused leaves everything as it is. -/
theorem ask_of_refused (hc : s.chain[level]? = some c) (hb : b < s.graph.blocks.size)
    (hrefused : s.Refuses c b) :
    s.ask level (.schedule b) = s := by
  unfold Session.ask
  cases s.names[level]? with
  | none => rfl
  | some name =>
    rw [answer_schedule hc hb, if_pos hrefused]
    simp [record?]

theorem ask_takeNext_of_none (hc : s.chain[level]? = some c) (hnone : c.agenda.pop.1 = none) :
    s.ask level .takeNext = s := by
  have hsame : c.agenda.pop.2 = c.agenda := by
    unfold Agenda.pop at hnone ⊢
    split <;> simp_all
  unfold Session.ask
  cases s.names[level]? with
  | none => rfl
  | some name =>
    have hset : s.chain.set level c = s.chain := by
      obtain ⟨hlt, rfl⟩ := List.getElem?_eq_some_iff.1 hc
      exact List.set_getElem_self hlt
    rw [answer_takeNext hc, hsame, hnone]
    simp [record?, hset]

theorem exists_found_of_record? (hschedule : ∀ b, x ≠ .schedule b) (hnext : x ≠ .takeNext)
    {answer : Option BlockId} {r : Record} (hr : r ∈ s.record? level name x answer) :
    ∃ m bci b, r = .found m bci b := by
  cases x with
  | schedule b => exact absurd rfl (hschedule b)
  | takeNext => exact absurd rfl hnext
  | locate bci =>
    cases answer with
    | none => cases hr
    | some b =>
      rw [record?, Option.mem_def, Option.ite_none_right_eq_some] at hr
      exact ⟨name, bci, b, (Option.some_inj.1 hr.2).symm⟩
  | _ => cases answer <;> cases hr

end

/-! ## What holds in every session -/

/-- What is scheduled has to be a block of the graph. -/
def Op.valid (s : Session) : Op → Bool
  | .ask _ (.schedule b) => b < s.graph.blocks.size
  | _ => true

/-- The history accounts for the agendas. -/
structure Accounts (s : Session) : Prop where
  named : s.Named
  serves : ∀ (level name : Nat) (a : Agenda), s.names[level]? = some name → (s.chain.map (·.agenda))[level]? = some a →
    a.Serves (pending name s.history)
  /-- A context that has not come yet has not scheduled anything. -/
  known : ∀ name b number, .scheduled name b number ∈ s.history → name < s.fresh
  queued : ∀ name b number, .scheduled name b number ∈ s.history → (s.graph.block b).queued = true
  scheduledOnce : (s.history.filterMap Record.scheduledBlock?).Nodup
  removedOnce : (s.history.filterMap Record.removedBlock?).Nodup
  /-- What a context removes it has scheduled before. -/
  earlier : ∀ pre name b, pre ++ [.removed name b] <+: s.history → ∃ number, .scheduled name b number ∈ pre

namespace Accounts

variable {s : Session} {level name : Nat} {b : BlockId} {c : Context}

theorem ofAssembly {t : Assembly} (hempty : ∀ c ∈ t.chain, c.agenda = {}) : (ofAssembly t).Accounts where
  named := .ofAssembly t
  serves level name a _ ha := by
    obtain ⟨c, hc, rfl⟩ := List.mem_map.1 (List.mem_of_getElem? ha)
    rw [hempty c hc]
    exact .nil
  known _ _ _ h := by cases h
  queued _ _ _ h := by cases h
  scheduledOnce := .nil
  removedOnce := .nil
  earlier pre name b h := absurd h.length_le (by simp [Session.ofAssembly])

theorem push (h : s.Accounts) (hc : c.agenda = {}) : (s.push c).Accounts where
  named := h.named.push c
  serves level name a hname ha := by
    cases level with
    | zero =>
      cases hname
      cases ha
      have hnone : pending s.fresh s.history = [] := by
        refine List.eq_nil_iff_forall_not_mem.2 fun x hx => ?_
        have hmem := List.mem_of_getElem? (mem_pending.1 hx).1
        exact Nat.lt_irrefl _ (h.known _ _ _ hmem)
      show c.agenda.Serves (pending s.fresh s.history)
      rw [hnone, hc]
      exact .nil
    | succ level => exact h.serves level name a hname ha
  known name b number hmem := Nat.lt_succ_of_lt (h.known name b number hmem)
  queued := h.queued
  scheduledOnce := h.scheduledOnce
  removedOnce := h.removedOnce
  earlier := h.earlier

theorem pop (h : s.Accounts) : s.pop.Accounts where
  named := h.named.pop
  serves level name a hname ha := by
    refine h.serves (level + 1) name a ?_ ?_
    · rw [← List.getElem?_tail]
      exact hname
    · rw [← List.getElem?_tail, ← List.map_tail]
      exact ha
  known := h.known
  queued := h.queued
  scheduledOnce := h.scheduledOnce
  removedOnce := h.removedOnce
  earlier := h.earlier

/-- Each context still serves what it has in line, when the agenda of one of them changes with it. -/
theorem serves_set (h : s.Accounts) (hname : s.names[level]? = some name) {history : List Record}
    {a : Agenda} (ha : a.Serves (pending name history))
    (hne : ∀ m, m ≠ name → pending m history = pending m s.history) (level' m : Nat) (a' : Agenda)
    (hm : s.names[level']? = some m) (ha' : ((s.chain.map (·.agenda)).set level a)[level']? = some a') :
    a'.Serves (pending m history) := by
  by_cases heq : level = level'
  · subst heq
    cases hname.symm.trans hm
    obtain ⟨hlt, -⟩ := List.getElem?_eq_some_iff.1 ha'
    rw [List.length_set] at hlt
    rw [List.getElem?_set_self hlt] at ha'
    cases ha'
    exact ha
  · rw [List.getElem?_set_ne heq] at ha'
    have hmn : m ≠ name := fun he => heq (h.named.level_eq hname (he ▸ hm))
    rw [hne m hmn]
    exact h.serves level' m a' hm ha'

/-- The last record of a history says that a context has removed a block only if the context has scheduled
it before. -/
theorem earlier_append (h : s.Accounts) {r : Record}
    (hr : ∀ name b, r = .removed name b → ∃ number, .scheduled name b number ∈ s.history) (pre : List Record)
    (name : Nat) (b : BlockId) (hpre : pre ++ [.removed name b] <+: s.history ++ [r]) :
    ∃ number, .scheduled name b number ∈ pre := by
  rcases List.prefix_concat_iff.1 hpre with heq | hpre
  · obtain ⟨rfl, hlast⟩ := List.append_inj' heq rfl
    exact hr name b (List.cons.inj hlast).1.symm
  · exact h.earlier pre name b hpre

/-- Finding a block changes nothing here. -/
theorem spare (h : s.Accounts) {t : Assembly} (hkeeps : s.toAssembly.KeepsAgendas t) {r : Option Record}
    (hr : ∀ x ∈ r, ∃ m bci b, x = .found m bci b) :
    Accounts { s with toAssembly := t, history := s.history ++ r.toList } := by
  have hnamed : Named { s with toAssembly := t, history := s.history ++ r.toList } :=
    h.named.replace (by simpa using congrArg List.length hkeeps.agendas) _
  cases r with
  | none =>
    simp only [Option.toList_none, List.append_nil] at hnamed ⊢
    refine { h with named := hnamed, serves := ?_, queued := fun m b number hmem => ?_ }
    · show ∀ (level m : Nat) (a : Agenda), _ → (t.chain.map (·.agenda))[level]? = some a → _
      rw [hkeeps.agendas]
      exact h.serves
    · exact (hkeeps.queued b).trans (h.queued m b number hmem)
  | some r =>
    obtain ⟨m, bci, b, rfl⟩ := hr r rfl
    have hmem : ∀ {m' b' number}, Record.scheduled m' b' number ∈ s.history ++ [.found m bci b] →
        .scheduled m' b' number ∈ s.history := by simp
    refine ⟨hnamed, ?_, fun _ _ _ h' => h.known _ _ _ (hmem h'), fun _ b' _ h' => ?_, ?_, ?_, ?_⟩
    · show ∀ (level m' : Nat) (a : Agenda), _ → (t.chain.map (·.agenda))[level]? = some a →
        a.Serves (pending m' (s.history ++ [.found m bci b]))
      intro level m' a hm' ha
      rw [hkeeps.agendas] at ha
      rw [pending_append_of_ne rfl (by simp)]
      exact h.serves level m' a hm' ha
    · exact (hkeeps.queued b').trans (h.queued _ _ _ (hmem h'))
    · show (List.filterMap _ (_ ++ [_])).Nodup
      rw [List.filterMap_append]
      exact (List.append_nil _).symm ▸ h.scheduledOnce
    · show (List.filterMap _ (_ ++ [_])).Nodup
      rw [List.filterMap_append]
      exact (List.append_nil _).symm ▸ h.removedOnce
    · exact h.earlier_append (by simp)

theorem scheduled_of_removed (h : s.Accounts) (hb : .removed name b ∈ s.history) :
    ∃ number, .scheduled name b number ∈ s.history := by
  obtain ⟨pre, post, heq⟩ := List.append_of_mem hb
  obtain ⟨number, hmem⟩ := h.earlier pre name b ⟨post, by rw [heq, List.append_assoc]; rfl⟩
  exact ⟨number, heq ▸ List.mem_append_left _ hmem⟩

/-- Two records that schedule a block are one. -/
theorem time_eq (h : s.Accounts) {i j m n k : Nat} (hi : s.history[i]? = some (.scheduled name b n))
    (hj : s.history[j]? = some (.scheduled m b k)) : i = j := by
  obtain ⟨hlti, hi⟩ := List.getElem?_eq_some_iff.1 hi
  obtain ⟨hltj, hj⟩ := List.getElem?_eq_some_iff.1 hj
  have hdiff := List.pairwise_iff_getElem.1 (List.pairwise_filterMap.1 h.scheduledOnce)
  rcases Nat.lt_trichotomy i j with hlt | heq | hlt
  · exact absurd rfl (hdiff i j hlti hltj hlt b (by rw [hi]; rfl) b (by rw [hj]; rfl))
  · exact heq
  · exact absurd rfl (hdiff j i hltj hlti hlt b (by rw [hj]; rfl) b (by rw [hi]; rfl))

theorem scheduled_unique (h : s.Accounts) {m n k : Nat} (hn : .scheduled name b n ∈ s.history)
    (hk : .scheduled m b k ∈ s.history) : m = name ∧ k = n := by
  obtain ⟨i, hi⟩ := List.mem_iff_getElem?.1 hn
  obtain ⟨j, hj⟩ := List.mem_iff_getElem?.1 hk
  cases h.time_eq hi hj
  cases hi.symm.trans hj
  exact ⟨rfl, rfl⟩

/-- A block that has not been on an agenda is put on one. -/
theorem scheduled (h : s.Accounts) (hname : s.names[level]? = some name)
    (hb : b < s.graph.blocks.size) (hnew : (s.graph.block b).queued = false)
    (hc : s.chain[level]? = some c) {log : Array Event} :
    Accounts { s with
      graph := s.graph.modifyBlock b ({ · with queued := true })
      log := log
      chain := s.chain.set level { c with agenda := c.agenda.insert b (s.graph.block b).number }
      history := s.history ++ [.scheduled name b (s.graph.block b).number] } := by
  have hunscheduled : ∀ m number, .scheduled m b number ∉ s.history := fun m number hmem => by
    simp [h.queued m b number hmem] at hnew
  have hunremoved : ∀ m, .removed m b ∉ s.history := fun m hmem => by
    obtain ⟨number, hmem⟩ := h.scheduled_of_removed hmem
    exact hunscheduled m number hmem
  have hlast : ∀ {m b' number}, .scheduled m b' number ∈ s.history ++
      [Record.scheduled name b (s.graph.block b).number] →
      .scheduled m b' number ∈ s.history ∨ m = name ∧ b' = b := fun hmem => by
    rcases List.mem_append.1 hmem with hmem | hmem
    · exact .inl hmem
    · cases List.mem_singleton.1 hmem
      exact .inr ⟨rfl, rfl⟩
  refine ⟨h.named.replace (by simp) _, ?_, ?_, ?_, ?_, ?_, ?_⟩
  · intro level' m a hm ha
    have hserves := h.serves level name c.agenda hname (by simp [hc])
    rw [List.map_set] at ha
    refine h.serves_set hname ?_ (fun m hm => ?_) level' m a hm ha
    · rw [pending_scheduled (hunremoved name)]
      refine (hserves.insert (x := ⟨(s.graph.block b).number, s.history.length, b⟩) fun y hy =>
        time_lt_of_mem_pending hy).congr ?_
      exact (List.perm_append_singleton ..).symm
    · exact pending_append_of_ne (if_neg fun he => hm he.symm) fun _ h => nomatch h
  · intro m b' number hmem
    rcases hlast hmem with hmem | ⟨rfl, rfl⟩
    · exact h.known m b' number hmem
    · exact h.named.known m (List.mem_of_getElem? hname)
  · intro m b' number hmem
    show ((s.graph.modifyBlock b _).block b').queued = true
    by_cases heq : b' = b
    · rw [heq, Graph.block_modifyBlock_self hb]
    · rw [Graph.block_modifyBlock_ne heq]
      exact h.queued m b' number ((hlast hmem).resolve_right fun ⟨_, he⟩ => heq he)
  · show (List.filterMap _ (_ ++ [_])).Nodup
    rw [List.filterMap_append]
    refine List.nodup_append.2 ⟨h.scheduledOnce, List.nodup_singleton b, fun b' hb' y hy => ?_⟩
    cases List.mem_singleton.1 hy
    obtain ⟨m, number, hmem⟩ := mem_scheduledBlocks.1 hb'
    exact fun he => hunscheduled m number (he ▸ hmem)
  · show (List.filterMap _ (_ ++ [_])).Nodup
    rw [List.filterMap_append]
    exact (List.append_nil _).symm ▸ h.removedOnce
  · exact h.earlier_append (by simp)

/-- Among the tickets that wait there is one for each block. -/
theorem ticket_eq (h : s.Accounts) {x y : Ticket} (hx : x ∈ pending name s.history)
    (hy : y ∈ pending name s.history) (hblock : y.block = x.block) : y = x := by
  obtain ⟨hx, -⟩ := mem_pending.1 hx
  obtain ⟨hy, -⟩ := mem_pending.1 hy
  rw [hblock] at hy
  have htime : y.time = x.time := h.time_eq hy hx
  rw [htime] at hy
  have hnumber : y.number = x.number := by simpa using hy.symm.trans hx
  cases x
  cases y
  cases htime
  cases hnumber
  cases hblock
  rfl

/-- A context has all tickets in line but the one whose block it has removed last. -/
theorem pending_erase (h : s.Accounts) {x : Ticket} (hx : x ∈ pending name s.history)
    (hnodup : (pending name s.history).Nodup) :
    (pending name s.history).erase x = pending name (s.history ++ [.removed name x.block]) := by
  rw [pending_removed, hnodup.erase_eq_filter]
  refine List.filter_congr fun y hy => ?_
  have hblock : y.block = x.block ↔ y = x := ⟨h.ticket_eq hx hy, congrArg _⟩
  rw [Bool.eq_iff_iff]
  simp [hblock]

/-- The block that goes first is taken off an agenda. -/
theorem removed (h : s.Accounts) (hname : s.names[level]? = some name) (hc : s.chain[level]? = some c)
    (hb : c.agenda.pop.1 = some b) :
    Accounts { s with
      chain := s.chain.set level { c with agenda := c.agenda.pop.2 }
      history := s.history ++ [.removed name b] } := by
  have hserves := h.serves level name c.agenda hname (by simp [hc])
  obtain ⟨hfirst, hrest⟩ := hserves.pop
  obtain ⟨x, hx, rfl⟩ := Option.map_eq_some_iff.1 (hfirst.symm.trans hb)
  rw [hx, Option.elim_some] at hrest
  have hmem := List.argmin_mem hx
  obtain ⟨hscheduled, hunremoved⟩ := mem_pending.1 hmem
  have hscheduled := List.mem_of_getElem? hscheduled
  refine ⟨h.named.replace (by simp) _, ?_, ?_, ?_, ?_, ?_, ?_⟩
  · intro level' m a hm ha
    rw [List.map_set] at ha
    refine h.serves_set hname ?_ (fun m hm => ?_) level' m a hm ha
    · exact h.pending_erase hmem hserves.nodup ▸ hrest
    · refine pending_append_of_ne rfl fun b he => hm ?_
      cases he
      rfl
  · exact fun m b' number hmem => h.known m b' number (by simpa using hmem)
  · exact fun m b' number hmem => h.queued m b' number (by simpa using hmem)
  · show (List.filterMap _ (_ ++ [_])).Nodup
    rw [List.filterMap_append]
    exact (List.append_nil _).symm ▸ h.scheduledOnce
  · show (List.filterMap _ (_ ++ [_])).Nodup
    rw [List.filterMap_append]
    refine List.nodup_append.2 ⟨h.removedOnce, List.nodup_singleton x.block, fun b' hb' y hy => ?_⟩
    cases List.mem_singleton.1 hy
    rintro rfl
    obtain ⟨m, hremoved⟩ := mem_removedBlocks.1 hb'
    obtain ⟨number, hscheduled'⟩ := h.scheduled_of_removed hremoved
    obtain ⟨rfl, -⟩ := h.scheduled_unique hscheduled hscheduled'
    exact hunremoved hremoved
  · refine h.earlier_append fun m b' he => ?_
    cases he
    exact ⟨x.number, hscheduled⟩

theorem ask (h : s.Accounts) {x : Request} (hvalid : (Op.ask level x).valid s) :
    (s.ask level x).Accounts := by
  cases hname : s.names[level]? with
  | none =>
    unfold Session.ask
    rwa [hname]
  | some name =>
    obtain ⟨c, hc⟩ := h.named.context hname
    by_cases hnext : x = .takeNext
    · subst hnext
      cases hb : c.agenda.pop.1 with
      | none => rwa [ask_takeNext_of_none hc hb]
      | some b =>
        rw [ask_eq hname, answer_takeNext hc, hb]
        exact h.removed hname hc hb
    by_cases hschedule : ∃ b, x = .schedule b
    · obtain ⟨b, rfl⟩ := hschedule
      have hb := of_decide_eq_true hvalid
      by_cases hrefused : s.Refuses c b
      · rwa [ask_of_refused hc hb hrefused]
      · have hnew : (s.graph.block b).queued = false := by simpa using fun hq => hrefused (.inl hq)
        rw [ask_eq hname, answer_schedule hc hb, if_neg hrefused]
        exact h.scheduled hname hb hnew hc
    · rw [ask_eq hname]
      refine h.spare (answer_keeps_agendas (fun b hb => hschedule ⟨b, hb⟩) hnext) fun r hr => ?_
      exact exists_found_of_record? (fun b hb => hschedule ⟨b, hb⟩) hnext hr

theorem perform (h : s.Accounts) {op : Op} (hvalid : op.valid s) : (s.perform op).Accounts := by
  cases op with
  | push => exact h.push rfl
  | pop => exact h.pop
  | ask => exact h.ask hvalid

theorem of_reaches {t : Session} (h : s.Accounts) (hreaches : s.Reaches (fun s op => op.valid s) t) :
    t.Accounts := by
  induction hreaches with
  | refl => exact h
  | step _ hvalid ih => exact ih.perform hvalid

end Accounts
/-! ## Draining an agenda -/

/-- Removes a number of blocks from the agenda of a context. -/
def drain (s : Session) (level : Nat) : Nat → Session
  | 0 => s
  | n + 1 => (s.ask level .takeNext).drain level n

namespace Accounts

variable {s : Session} {level name : Nat} {x : Ticket}

theorem serves_self (h : s.Accounts) (hname : s.names[level]? = some name) : ∃ c,
    s.chain[level]? = some c ∧ c.agenda.Serves (pending name s.history) := by
  obtain ⟨c, hc⟩ := h.named.context hname
  exact ⟨c, hc, h.serves level name c.agenda hname (by simp [hc])⟩

theorem answer_takeNext (h : s.Accounts) (hname : s.names[level]? = some name) :
    (s.answer level .takeNext).1 = (Ticket.first? (pending name s.history)).map (·.block) := by
  obtain ⟨c, hc, hserves⟩ := h.serves_self hname
  rw [Session.answer_takeNext hc]
  exact hserves.pop.1

/-- A context that is asked as often as it has tickets in line has none left. By induction on their number:
each time the ticket that goes first is taken out. -/
theorem pending_drain : ∀ {n : Nat} {s : Session}, s.Accounts → s.names[level]? = some name →
    (pending name s.history).length = n →
    (s.drain level n).Accounts ∧ (s.drain level n).names = s.names ∧
      s.history <+: (s.drain level n).history ∧ pending name (s.drain level n).history = []
  | 0, s, h, _, hn => ⟨h, rfl, List.prefix_rfl, List.eq_nil_of_length_eq_zero hn⟩
  | n + 1, s, h, hname, hn => by
    obtain ⟨c, hc, hserves⟩ := h.serves_self hname
    obtain ⟨x, hx⟩ : ∃ x, Ticket.first? (pending name s.history) = some x := by
      refine Option.ne_none_iff_exists'.1 fun hnone => ?_
      rw [List.argmin_eq_none.1 hnone] at hn
      cases hn
    have hmem := List.argmin_mem hx
    have hanswer : (s.answer level .takeNext).1 = some x.block := by
      rw [h.answer_takeNext hname, hx]
      rfl
    have hhistory : (s.ask level .takeNext).history = s.history ++ [.removed name x.block] := by
      rw [ask_eq hname, hanswer]
      rfl
    have hnames : (s.ask level .takeNext).names = s.names := by rw [ask_eq hname]
    have hlength : (pending name (s.ask level .takeNext).history).length = n := by
      rw [hhistory, ← h.pending_erase hmem hserves.nodup, List.length_erase_of_mem hmem, hn]
      rfl
    obtain ⟨hlast, hsame, hbegins, hnil⟩ := pending_drain (h.ask (x := .takeNext) rfl) (hnames ▸ hname) hlength
    exact ⟨hlast, hsame.trans hnames, (hhistory ▸ List.prefix_append ..).trans hbegins, hnil⟩

end Accounts

/-! ## The statement -/

/-- How the contexts of a session share the blocks. -/
structure SchedulesOnce (s : Session) : Prop where
  /-- No block is removed twice. -/
  once : (s.history.filterMap Record.removedBlock?).Nodup
  /-- A context removes a block that it has scheduled before, as the only one that ever did. -/
  own : ∀ pre name b, pre ++ [.removed name b] <+: s.history →
    (∃ number, .scheduled name b number ∈ pre) ∧
      ∀ m number, .scheduled m b number ∈ s.history → m = name
  /-- The block that a context removes next is the one with the least number of those that it has in line,
  the one that was scheduled first among equals. -/
  first : ∀ level name, s.names[level]? = some name →
    (s.answer level .takeNext).1 = (Ticket.first? (pending name s.history)).map (·.block)
  /-- With nothing left to remove, a context has removed all that it scheduled. -/
  last : ∀ level name, s.names[level]? = some name → (s.answer level .takeNext).1 = none →
    ∀ b number, .scheduled name b number ∈ s.history → .removed name b ∈ s.history
  /-- A context has nothing left after as many removals as it has blocks in line. -/
  drained : ∀ level name, s.names[level]? = some name →
    ((s.drain level (pending name s.history).length).answer level .takeNext).1 = none ∧
      ∀ b number, .scheduled name b number ∈ s.history →
        .removed name b ∈ (s.drain level (pending name s.history).length).history
  /-- What is on some agenda every context refuses. -/
  waiting : ∀ c ∈ s.chain, ∀ b number, (b, number) ∈ c.agenda.entries → ∀ d ∈ s.chain, s.Refuses d b
  /-- A request that is refused changes nothing. -/
  refused : ∀ level c b, s.chain[level]? = some c → b < s.graph.blocks.size → s.Refuses c b →
    s.ask level (.schedule b) = s
  /-- What a context does not refuse it schedules, also if another one has refused it. -/
  accepted : ∀ level name c b, s.names[level]? = some name → s.chain[level]? = some c →
    b < s.graph.blocks.size → ¬ s.Refuses c b →
    (s.ask level (.schedule b)).history = s.history ++ [.scheduled name b (s.graph.block b).number]

end Session

open Session

/-- **A block is scheduled at most once.** Start with contexts that have nothing on their agendas and ask
them for anything in any order, also while contexts come and go, but schedule only blocks of the graph. -/
theorem scheduled_once {t : Assembly} (hempty : ∀ c ∈ t.chain, c.agenda = {}) {s : Session}
    (hreaches : (ofAssembly t).Reaches (fun s op => op.valid s) s) : s.SchedulesOnce := by
  have h : s.Accounts := (Accounts.ofAssembly hempty).of_reaches hreaches
  refine ⟨h.removedOnce, fun pre name b hpre => ?_, fun level name => h.answer_takeNext, ?_, ?_, ?_,
    fun level c b hc hb => ask_of_refused hc hb, ?_⟩
  · obtain ⟨number, hnumber⟩ := h.earlier pre name b hpre
    have hmem := hpre.subset (List.mem_append_left _ hnumber)
    exact ⟨⟨number, hnumber⟩, fun m k hk => (h.scheduled_unique hmem hk).1⟩
  · intro level name hname hnone b number hb
    rw [h.answer_takeNext hname, Option.map_eq_none_iff] at hnone
    exact removed_of_pending_nil (List.argmin_eq_none.1 hnone) hb
  · intro level name hname
    obtain ⟨hlast, hnames, hbegins, hnil⟩ := Accounts.pending_drain h hname rfl
    refine ⟨?_, fun b number hb => removed_of_pending_nil hnil (hbegins.subset hb)⟩
    rw [hlast.answer_takeNext (hnames ▸ hname), hnil]
    rfl
  · intro c hc b number hb d _
    obtain ⟨level, hlevel⟩ := List.mem_iff_getElem?.1 hc
    obtain ⟨name, hname⟩ := h.named.called hlevel
    have hserves := h.serves level name c.agenda hname (by simp [hlevel])
    obtain ⟨x, hx, hxb⟩ := List.mem_map.1 (hserves.perm.mem_iff.1 hb)
    cases hxb
    exact .inl (h.queued _ _ _ (List.mem_of_getElem? (mem_pending.1 hx).1))
  · intro level name c b hname hc hb hnot
    rw [ask_eq hname, answer_schedule hc hb, if_neg hnot]
    rfl

/-- Three blocks with numbers 2, 0 and 1. -/
def threeBlocks : Assembly where
  graph := { blocks := #[{ site := .code 0, number := 2 }, { site := .code 1, number := 0 },
    { site := .code 2, number := 1 }] }

/-- The inner context refuses its continuation, which the outer one schedules, and leaves with a block in
line. -/
theorem threeBlocks_scheduled : ∃ s, (ofAssembly threeBlocks).Reaches (fun s op => op.valid s) s ∧
    s.history = [.scheduled 1 0 2, .scheduled 1 1 0, .scheduled 0 2 1, .removed 1 1, .removed 0 2] ∧
    s.SchedulesOnce := by
  have hany : (after (fun s op => op.valid s) [
      .push 0 (.blank 1) (.ofCode #[0xb1]) {} {}, .push 1 (.blank 1) (.ofCode #[0xb1]) {} {},
      .ask 0 (.setContinuation (some 2)), .ask 0 (.schedule 0), .ask 0 (.schedule 1), .ask 0 (.schedule 2),
      .ask 1 (.schedule 2), .ask 1 (.schedule 0), .ask 0 .takeNext, .pop, .ask 0 .takeNext, .ask 0 .takeNext]
      (ofAssembly threeBlocks)).any (fun s => decide (s.history =
        [.scheduled 1 0 2, .scheduled 1 1 0, .scheduled 0 2 1, .removed 1 1, .removed 0 2])) = true := by
    decide +kernel
  obtain ⟨s, hs, hhistory⟩ := (Option.any_eq_true _ _).1 hany
  have hreaches := Reaches.refl.after hs
  exact ⟨s, hreaches, of_decide_eq_true hhistory, scheduled_once (by decide) hreaches⟩

end BlockGraph
