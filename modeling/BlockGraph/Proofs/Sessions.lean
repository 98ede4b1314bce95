import BlockGraph.Proofs.Graph.Edits
import BlockGraph.Proofs.Outcome

/-!
# Sessions

In a session the contexts of a chain are asked for one thing after another, in any order: contexts are put
on the chain and taken off it, and each request goes to some context, which sees only those around it.
Contexts have names, and no name is given twice, so that the history of a session can tell
which context has found, scheduled or removed a block, also when it has left the chain. Most requests
leave the agendas alone (`Request.keeps_agendas`).
-/

namespace BlockGraph

open Assembly

/-! ## Requests -/

namespace Assembly

/-- Starts to parse a subroutine in the innermost context. -/
def enter (entry : Nat) : Assemble Unit := fun s =>
  match s.chain with
  | [] => .error .noContext s
  | c :: outer =>
    match c.enter entry with
    | .ok c => .ok () { s with chain := c :: outer }
    | .error fault => .error fault s

/-- Lets an action work on the context at a level, counted from the innermost one, as if that were the
innermost one. -/
def atLevel {α : Type} (level : Nat) (x : Assemble α) : Assemble α := fun s =>
  match x { s with chain := s.chain.drop level } with
  | .ok a t => .ok a { t with chain := s.chain.take level ++ t.chain }
  | .error fault t => .error fault { t with chain := s.chain.take level ++ t.chain }

end Assembly

/-- What a context can be asked for. -/
inductive Request where
  | locate (bci : Nat)
  | schedule (b : BlockId)
  | takeNext
  | enter (entry : Nat)
  | setContinuation (b : Option BlockId)
  | setContinuationFrame (f : Option Frame)
  | setResume (b : Option BlockId)
  | setReturnLocal (slot : Option Nat)
  | setUndo (undo : InlineUndo)
  | countReturn
  | setUpHandlers
  | addHandler (h : Handler)
  | moveTo (bci : Nat)
  | advance
deriving DecidableEq, Repr

namespace Request

/-- What is done when the innermost context is asked. The answer is the block that was found, put on the
agenda or taken off it. -/
def act : Request → Assemble (Option BlockId)
  | .locate bci => modifyGet (Assembly.locate bci)
  | .schedule b => modifyGet fun s =>
    let t := Assembly.schedule b s
    (if (s.graph.block b).queued || !(t.graph.block b).queued then none else some b, t)
  | .takeNext => modifyGet Assembly.takeNext
  | .enter entry => do Assembly.enter entry; return none
  | .setContinuation b => do modify (·.modifyInnermost ({ · with continuation := b })); return none
  | .setContinuationFrame f => do
    modify (·.modifyInnermost ({ · with continuationFrame := f })); return none
  | .setResume b => do modify (·.modifyInnermost ({ · with resume := b })); return none
  | .setReturnLocal slot => do modify (·.modifyInnermost ({ · with returnLocal := slot })); return none
  | .setUndo undo => do modify (·.modifyInnermost ({ · with undo := some undo })); return none
  | .countReturn => do modify Assembly.countReturn; return none
  | .setUpHandlers => do Assembly.setUpHandlers; return none
  | .addHandler h => do Assembly.addHandler h; return none
  | .moveTo bci => do let _ ← withCursor (Cursor.moveTo bci); return none
  | .advance => do let _ ← withCursor Cursor.advance; return none

end Request

/-! ## Sessions -/

/-- What a history tells of a context. -/
inductive Record where
  /-- In a subroutine a block was found. -/
  | found (name bci : Nat) (b : BlockId)
  /-- A block with this number was put on the agenda. -/
  | scheduled (name : Nat) (b : BlockId) (number : Nat)
  | removed (name : Nat) (b : BlockId)
deriving DecidableEq, Repr

/-- An assembly whose contexts have names. -/
structure Session extends Assembly where
  /-- The names of the contexts, innermost first. -/
  names : List Nat := []
  /-- The name of the next context. -/
  fresh : Nat := 0
  /-- What has been found, scheduled and removed, in order. -/
  history : List Record := []
deriving DecidableEq, Repr

namespace Session

/-- A session that starts with an assembly. -/
def ofAssembly (s : Assembly) : Session :=
  { s with names := (List.range s.chain.length).reverse, fresh := s.chain.length }

def push (s : Session) (c : Context) : Session :=
  { s with toAssembly := s.toAssembly.push c, names := s.fresh :: s.names, fresh := s.fresh + 1 }

def pop (s : Session) : Session :=
  { s with toAssembly := s.toAssembly.pop, names := s.names.tail }

/-- The answer to a request, none if it is refused, and the assembly after it. -/
def answer (s : Session) (level : Nat) (x : Request) : Option BlockId × Assembly :=
  match atLevel level x.act s.toAssembly with
  | .ok b t => (b, t)
  | .error _ t => (none, t)

/-- What the history tells of an answer of a context. -/
def record? (s : Session) (level name : Nat) : Request → Option BlockId → Option Record
  | .locate bci, some b =>
    if s.chain[level]?.any (·.isSubroutine) then some (.found name bci b) else none
  | .schedule _, some b => some (.scheduled name b (s.graph.block b).number)
  | .takeNext, some b => some (.removed name b)
  | _, _ => none

/-- Asks the context at a level; nothing is done if there is none. -/
def ask (s : Session) (level : Nat) (x : Request) : Session :=
  match s.names[level]? with
  | none => s
  | some name =>
    let (b, t) := s.answer level x
    { s with toAssembly := t, history := s.history ++ (s.record? level name x b).toList }

/-- What can be done in a session. A new context gets what it needs to parse a scope. -/
inductive Op where
  | push (scope : ScopeId) (table : BlockTable) (cursor : Cursor) (pool : ConstantPool) (o : Options)
  | pop
  | ask (level : Nat) (x : Request)
deriving DecidableEq, Repr

def perform (s : Session) : Op → Session
  | .push scope table cursor pool o => s.push (s.toAssembly.newContext scope table cursor pool o)
  | .pop => s.pop
  | .ask level x => s.ask level x

/-- The session after some operations, none if one of them is not allowed. -/
def after (allowed : Session → Op → Bool) : List Op → Session → Option Session
  | [], s => some s
  | op :: ops, s => if allowed s op then after allowed ops (s.perform op) else none

/-- The sessions that come of a session by operations that are allowed in it. -/
inductive Reaches (allowed : Session → Op → Bool) (s : Session) : Session → Prop where
  | refl : Reaches allowed s s
  | step {t : Session} {op : Op} : Reaches allowed s t → allowed t op → Reaches allowed s (t.perform op)

theorem Reaches.after {allowed : Session → Op → Bool} {s : Session} : ∀ {ops : List Op} {t u : Session},
    s.Reaches allowed t → after allowed ops t = some u → s.Reaches allowed u
  | [], t, u, h, hu => by
    cases hu
    exact h
  | op :: ops, t, u, h, hu => by
    obtain ⟨hallowed, hu⟩ := Option.ite_none_right_eq_some.1 hu
    exact (h.step hallowed).after hu

end Session

/-! ## Levels of a chain -/

section
variable {chain : List Context} {level : Nat} {c d : Context}

theorem drop_eq_cons (h : chain[level]? = some c) : chain.drop level = c :: chain.drop (level + 1) := by
  obtain ⟨hlt, rfl⟩ := List.getElem?_eq_some_iff.1 h
  exact List.drop_eq_getElem_cons hlt

theorem take_append_cons (h : chain[level]? = some c) :
    chain.take level ++ d :: chain.drop (level + 1) = chain.set level d := by
  obtain ⟨hlt, -⟩ := List.getElem?_eq_some_iff.1 h
  rw [List.set_eq_take_append_cons_drop, if_pos hlt]

end

/-! ## Agendas -/

/-- The agendas stay as they are, and no block becomes queued. -/
structure Assembly.KeepsAgendas (s t : Assembly) : Prop where
  agendas : t.chain.map (·.agenda) = s.chain.map (·.agenda)
  queued : ∀ b, (t.graph.block b).queued = (s.graph.block b).queued

namespace Assembly.KeepsAgendas

variable {s t u : Assembly}

theorem refl (s : Assembly) : s.KeepsAgendas s := ⟨rfl, fun _ => rfl⟩

theorem trans (h : s.KeepsAgendas t) (h' : t.KeepsAgendas u) : s.KeepsAgendas u :=
  ⟨h'.agendas.trans h.agendas, fun b => (h'.queued b).trans (h.queued b)⟩

end Assembly.KeepsAgendas

/-- A copy is not queued. -/
theorem Graph.queued_copyBlock (g : Graph) (original b : BlockId) :
    ((g.copyBlock original).2.block b).queued = (g.block b).queued := by
  unfold Graph.copyBlock
  rw [Graph.block_newBlock]
  split
  · rename_i hb
    rw [hb, Graph.block_of_size_le (Nat.le_refl _)]
    rfl
  · rfl

theorem Chain.locate_keeps_agendas (bci : Nat) : ∀ (chain : List Context) (d : Draft),
    (Chain.locate bci chain d).2.1.map (·.agenda) = chain.map (·.agenda) ∧
      ∀ b, ((Chain.locate bci chain d).2.2.graph.block b).queued = (d.graph.block b).queued
  | [], d => ⟨rfl, fun _ => rfl⟩
  | c :: outer, d => by
    obtain ⟨hagendas, hqueued⟩ := locate_keeps_agendas bci outer d
    rw [locate]
    cases hsub : c.subroutine with
    | none => exact ⟨rfl, fun _ => rfl⟩
    | some sub =>
      simp only
      cases hcopy : sub.copies.get bci with
      | some copy => exact ⟨rfl, fun _ => rfl⟩
      | none =>
        simp only
        generalize locate bci outer d = found at hagendas hqueued ⊢
        obtain ⟨original, outer', d'⟩ := found
        cases original with
        | none => exact ⟨congrArg (c.agenda :: ·) hagendas, hqueued⟩
        | some original =>
          refine ⟨congrArg (c.agenda :: ·) hagendas, fun b => ?_⟩
          exact (d'.graph.queued_copyBlock original b).trans (hqueued b)

namespace Assembly

theorem locate_keeps_agendas (bci : Nat) (s : Assembly) : s.KeepsAgendas (locate bci s).2 := by
  obtain ⟨hagendas, hqueued⟩ := Chain.locate_keeps_agendas bci s.chain s.toDraft
  exact ⟨hagendas, hqueued⟩

theorem countReturn_keeps_agendas (s : Assembly) : s.KeepsAgendas (countReturn s) := by
  refine ⟨?_, fun _ => rfl⟩
  show (Chain.countReturn s.chain).map (·.agenda) = _
  generalize s.chain = chain
  induction chain with
  | nil => rfl
  | cons c outer ih =>
    cases outer with
    | nil => rfl
    | cons d outer =>
      unfold Chain.countReturn
      split
      · exact congrArg (c.agenda :: ·) ih
      · rfl

/-! ## What requests keep -/

/-- A relation between what was and what is then that allows all that requests do to a chain, but for
changes to agendas and for counting returns. -/
structure Allows (R : Assembly → Assembly → Prop) : Prop where
  refl : ∀ s, R s s
  trans : ∀ {s t u}, R s t → R t u → R s u
  locate : ∀ bci s, R s (locate bci s).2
  /-- Something may happen to the innermost context. -/
  replace : ∀ {s : Assembly} {c d : Context} {outer : List Context}, s.chain = c :: outer →
    d.agenda = c.agenda → R s { s with chain := d :: outer }
  declare : ∀ (s : Assembly) scope h, R s { s with graph := s.graph.declareHandler scope h }

theorem keepsAgendas_allows : Allows KeepsAgendas where
  refl := .refl
  trans := .trans
  locate := locate_keeps_agendas
  replace hchain hagenda := ⟨by simp [hchain, hagenda], fun _ => rfl⟩
  declare _ _ _ := ⟨rfl, fun _ => rfl⟩

/-- The relation holds between the assemblies before and after the action, also where it fails. -/
def Keeps {α : Type} (R : Assembly → Assembly → Prop) (x : Assemble α) : Prop :=
  ∀ s, Yields x s (fun _ t => R s t) fun _ t => R s t

namespace Allows

variable {R : Assembly → Assembly → Prop} {α β : Type} {x : Assemble α} {f : α → Assemble β}

theorem modifyInnermost (hR : Allows R) {f : Context → Context} (hf : ∀ c, (f c).agenda = c.agenda)
    (s : Assembly) : R s (s.modifyInnermost f) := by
  unfold Assembly.modifyInnermost
  cases hchain : s.chain with
  | nil => exact hR.refl s
  | cons c outer => exact hR.replace hchain (hf c)

theorem bind (hR : Allows R) (hx : Keeps R x) (hf : ∀ a, Keeps R (f a)) : Keeps R (x >>= f) := fun s =>
  yields_bind.2 <| (hx s).mono (fun a t ht => (hf a t).mono (fun _ _ hu => hR.trans ht hu)
    fun _ _ hu => hR.trans ht hu) fun _ _ ht => ht

theorem pure (hR : Allows R) (a : α) : Keeps R (Pure.pure a : Assemble α) := fun s => hR.refl s

theorem throw (hR : Allows R) (fault : Fault) : Keeps R (MonadExcept.throw fault : Assemble α) :=
  fun s => hR.refl s

theorem get (hR : Allows R) : Keeps R (MonadState.get : Assemble Assembly) := fun s => hR.refl s

theorem innermost (hR : Allows R) : Keeps R Assembly.innermost := by
  intro s
  unfold Yields Assembly.innermost
  cases s.chain <;> exact hR.refl s

theorem withCursor (hR : Allows R) (act : EStateM Fault Cursor α) : Keeps R (withCursor act) := by
  intro s
  unfold Yields Assembly.withCursor
  cases hchain : s.chain with
  | nil => exact hR.refl s
  | cons c outer =>
    simp only
    cases act c.cursor <;> exact hR.replace hchain rfl

theorem enter (hR : Allows R) (entry : Nat) : Keeps R (enter entry) := by
  intro s
  unfold Yields Assembly.enter
  cases hchain : s.chain with
  | nil => exact hR.refl s
  | cons c outer =>
    unfold Context.enter
    by_cases hzero : entry = 0
    · simp only [hzero, if_true]
      exact hR.refl s
    · simp only [hzero, if_false]
      exact hR.replace hchain rfl

theorem copyHandlers (hR : Allows R) : ∀ l : List Handler, Keeps R (copyHandlers l)
  | [] => hR.pure []
  | x :: rest => by
    rw [Assembly.copyHandlers]
    cases x.entryIndex? with
    | some bci =>
      exact hR.bind (hR.locate bci) fun _ => hR.bind (hR.copyHandlers rest) fun _ => hR.pure _
    | none =>
      refine hR.bind hR.get fun s => ?_
      split
      · exact hR.bind (hR.copyHandlers rest) fun _ => hR.pure _
      · exact hR.throw _

theorem setUpHandlers (hR : Allows R) : Keeps R setUpHandlers := by
  have hset (hs : List Handler) := hR.modifyInnermost (f := fun c =>
    { c with subroutine := c.subroutine.map ({ · with handlers := some hs }) }) fun _ => rfl
  unfold Assembly.setUpHandlers
  refine hR.bind hR.innermost fun c => ?_
  split
  · exact hR.bind (hR.throw _) fun _ => hR.bind hR.get fun _ => hR.bind (hR.copyHandlers _) hset
  · exact hR.bind hR.get fun _ => hR.bind (hR.copyHandlers _) hset

theorem addHandler (hR : Allows R) (h : Handler) : Keeps R (addHandler h) := by
  intro s
  unfold Yields Assembly.addHandler
  cases hchain : s.chain with
  | nil => exact hR.refl s
  | cons c outer =>
    simp only
    cases hsub : c.subroutine with
    | none => exact hR.trans (hR.declare s c.scope h) (hR.replace hchain rfl)
    | some sub =>
      simp only
      cases sub.handlers with
      | none => exact hR.refl s
      | some hs => exact hR.replace hchain rfl

end Allows

end Assembly

/-- Only some requests change agendas or count returns. -/
theorem Request.keeps {R : Assembly → Assembly → Prop} (hR : Allows R) {x : Request}
    (hschedule : ∀ b, x ≠ .schedule b) (hnext : x ≠ .takeNext) (hcount : x ≠ .countReturn) :
    Keeps R x.act := by
  have hset : ∀ f : Context → Context, (∀ c, (f c).agenda = c.agenda) →
      Keeps R (do modify (·.modifyInnermost f); return none : Assemble (Option BlockId)) := fun f hf =>
    hR.bind (hR.modifyInnermost hf) fun _ => hR.pure none
  cases x with
  | locate bci => exact hR.locate bci
  | schedule b => exact absurd rfl (hschedule b)
  | takeNext => exact absurd rfl hnext
  | enter entry => exact hR.bind (hR.enter entry) fun _ => hR.pure none
  | setContinuation | setContinuationFrame | setResume | setReturnLocal | setUndo =>
    exact hset _ fun _ => rfl
  | countReturn => exact absurd rfl hcount
  | setUpHandlers => exact hR.bind hR.setUpHandlers fun _ => hR.pure none
  | addHandler h => exact hR.bind (hR.addHandler h) fun _ => hR.pure none
  | moveTo | advance => exact hR.bind (hR.withCursor _) fun _ => hR.pure none

/-- Only scheduling a block and taking one off an agenda change agendas. -/
theorem Request.keeps_agendas {x : Request} (hschedule : ∀ b, x ≠ .schedule b) (hnext : x ≠ .takeNext) :
    Keeps KeepsAgendas x.act := by
  by_cases hcount : x = .countReturn
  · subst hcount
    exact keepsAgendas_allows.bind (x := modify Assembly.countReturn) countReturn_keeps_agendas fun _ =>
      keepsAgendas_allows.pure none
  · exact Request.keeps keepsAgendas_allows hschedule hnext hcount

/-! ## Answers at a level -/

namespace Session

variable {s : Session} {level : Nat} {x : Request} {c : Context} {b : BlockId}

/-- What is known of an action is known of the answer. -/
theorem answer_of_yields {P : Option BlockId → Assembly → Prop}
    (h : Yields x.act { s.toAssembly with chain := s.chain.drop level }
      (fun b t => P b { t with chain := s.chain.take level ++ t.chain })
      fun _ t => P none { t with chain := s.chain.take level ++ t.chain }) :
    P (s.answer level x).1 (s.answer level x).2 := by
  unfold answer atLevel
  unfold Yields at h
  cases hact : x.act { s.toAssembly with chain := s.chain.drop level } <;> rw [hact] at h <;> exact h

theorem answer_keeps_agendas (hschedule : ∀ b, x ≠ .schedule b) (hnext : x ≠ .takeNext) :
    s.toAssembly.KeepsAgendas (s.answer level x).2 := by
  have hglue : ∀ t : Assembly, KeepsAgendas { s.toAssembly with chain := s.chain.drop level } t →
      s.toAssembly.KeepsAgendas { t with chain := s.chain.take level ++ t.chain } := by
    refine fun t ht => ⟨?_, ht.queued⟩
    show (s.chain.take level ++ t.chain).map (·.agenda) = _
    rw [List.map_append, ht.agendas, ← List.map_append, List.take_append_drop]
  refine answer_of_yields (P := fun _ t => s.toAssembly.KeepsAgendas t) ?_
  exact (Request.keeps_agendas hschedule hnext _).mono (fun _ => hglue) fun _ => hglue

/-- A context does not schedule what has been scheduled, and not the blocks where control goes on outside of
it. -/
def Refuses (s : Session) (c : Context) (b : BlockId) : Prop :=
  (s.graph.block b).queued = true ∨ c.continuation = some b ∨ c.resume = some b

instance : Decidable (s.Refuses c b) := inferInstanceAs (Decidable (_ ∨ _))

theorem answer_schedule (hc : s.chain[level]? = some c) (hb : b < s.graph.blocks.size) :
    s.answer level (.schedule b) =
      if s.Refuses c b then (none, s.toAssembly)
      else
        (some b, { s.toAssembly with
          graph := s.graph.modifyBlock b ({ · with queued := true })
          log := s.log.push (.scheduling b (s.graph.block b).number c.label)
          chain := s.chain.set level { c with agenda := c.agenda.insert b (s.graph.block b).number } }) := by
  have hact : ∀ t : Assembly, (Request.schedule b).act t =
      .ok (if (t.graph.block b).queued || !((Assembly.schedule b t).graph.block b).queued then none else some b)
        (Assembly.schedule b t) := fun _ => rfl
  unfold answer atLevel
  rw [hact]
  unfold Assembly.schedule
  simp only [drop_eq_cons hc]
  by_cases hrefused : s.Refuses c b
  · have htest : ((s.graph.block b).queued || c.continuation == some b || c.resume == some b) = true := by
      simpa [Refuses, or_assoc] using hrefused
    rw [if_pos hrefused]
    simp only [if_pos htest, ← drop_eq_cons hc, List.take_append_drop]
    cases (s.graph.block b).queued <;> rfl
  · have htest : ((s.graph.block b).queued || c.continuation == some b || c.resume == some b) = false := by
      simpa [Refuses, and_assoc] using hrefused
    have hnew : (s.graph.block b).queued = false := by simpa using fun h => hrefused (.inl h)
    rw [if_neg hrefused]
    simp only [htest, Bool.false_eq_true, if_false, take_append_cons hc]
    simp [hnew, Graph.block_modifyBlock_self hb]

theorem answer_takeNext (hc : s.chain[level]? = some c) : s.answer level .takeNext =
    (c.agenda.pop.1, { s.toAssembly with chain := s.chain.set level { c with agenda := c.agenda.pop.2 } }) := by
  have hact : ∀ t : Assembly, Request.takeNext.act t = .ok (takeNext t).1 (takeNext t).2 := fun _ => rfl
  unfold answer atLevel
  rw [hact]
  unfold takeNext
  simp only [drop_eq_cons hc, take_append_cons hc]

/-! ## Names -/

/-- Each context has a name. The names of younger contexts are larger, and the next name is larger still. -/
structure Named (s : Session) : Prop where
  length : s.names.length = s.chain.length
  sorted : s.names.Pairwise (· > ·)
  known : ∀ name ∈ s.names, name < s.fresh

namespace Named

theorem ofAssembly (t : Assembly) : (ofAssembly t).Named where
  length := by simp [Session.ofAssembly]
  sorted := List.pairwise_reverse.2 List.pairwise_lt_range
  known name hname := List.mem_range.1 (List.mem_reverse.1 hname)

theorem context (h : s.Named) {name : Nat} (hname : s.names[level]? = some name) : ∃ c, s.chain[level]? = some c := by
  obtain ⟨hlt, -⟩ := List.getElem?_eq_some_iff.1 hname
  exact ⟨_, List.getElem?_eq_getElem (h.length ▸ hlt)⟩

theorem called (h : s.Named) (hc : s.chain[level]? = some c) : ∃ name, s.names[level]? = some name := by
  obtain ⟨hlt, -⟩ := List.getElem?_eq_some_iff.1 hc
  exact ⟨_, List.getElem?_eq_getElem (h.length.symm ▸ hlt)⟩

theorem level_eq (h : s.Named) {level' name : Nat} (hname : s.names[level]? = some name)
    (hname' : s.names[level']? = some name) : level = level' := by
  have hnodup : s.names.Nodup := h.sorted.imp fun hgt => (Nat.ne_of_lt hgt).symm
  obtain ⟨hlt, -⟩ := List.getElem?_eq_some_iff.1 hname
  exact (List.getElem?_inj hlt hnodup).1 (hname.trans hname'.symm)

/-- What a context does leaves the names alone. -/
theorem replace (h : s.Named) {t : Assembly} (ht : t.chain.length = s.chain.length) (history : List Record) :
    Named { s with toAssembly := t, history := history } := ⟨h.length.trans ht.symm, h.sorted, h.known⟩

end Named

theorem ask_eq {name : Nat} (hname : s.names[level]? = some name) :
    s.ask level x = { s with
      toAssembly := (s.answer level x).2
      history := s.history ++ (s.record? level name x (s.answer level x).1).toList } := by
  unfold ask
  rw [hname]

theorem Named.push (h : s.Named) (c : Context) : (s.push c).Named := by
  refine ⟨congrArg (· + 1) h.length, List.pairwise_cons.2 ⟨h.known, h.sorted⟩, fun name hname => ?_⟩
  rcases List.mem_cons.1 hname with rfl | hname
  · exact Nat.lt_succ_self s.fresh
  · exact Nat.lt_succ_of_lt (h.known name hname)

theorem Named.pop (h : s.Named) : s.pop.Named := by
  refine ⟨?_, h.sorted.tail, fun name hname => h.known name (List.mem_of_mem_tail hname)⟩
  show s.names.tail.length = s.chain.tail.length
  rw [List.length_tail, List.length_tail, h.length]

end Session
end BlockGraph
