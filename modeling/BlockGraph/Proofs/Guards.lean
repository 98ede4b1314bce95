import BlockGraph.Proofs.Answers
import BlockGraph.Proofs.Assembly.Lasting

/-!
# Which contexts are guarded

Every context tells whether it or a context around it has handlers. What it tells is fixed when it is put on the
chain, from the context around it as that is then, and later changed only by the context that gets a handler.
It is right as long as contexts get handlers while they are innermost, and a context that shares its scope with
one around it only while it parses a subroutine. Main statement: `guarded_exact`.
-/

namespace BlockGraph

open Assembly

/-- Does the scope of the context declare handlers, or has its subroutine copies of any? -/
def Context.hasHandlers (g : Graph) (c : Context) : Bool :=
  !(g.declaredHandlers c.scope).isEmpty || (c.subroutine.bind (·.handlers)).any (!·.isEmpty)

theorem Context.hasHandlers_iff {g : Graph} {c : Context} : c.hasHandlers g = true ↔
    g.declaredHandlers c.scope ≠ [] ∨ ∃ sub hs, c.subroutine = some sub ∧ sub.handlers = some hs ∧ hs ≠ [] := by
  unfold hasHandlers
  cases hsub : c.subroutine with
  | none => simp
  | some sub => cases hhs : sub.handlers <;> simp [hhs]

/-! ## Chains -/

namespace Chain

variable {g g' : Graph} {c c' : Context} {chain chain' outer outer' : List Context}

/-- Each context is guarded just if it or one around it has handlers. -/
def Exact (g : Graph) : List Context → Prop
  | [] => True
  | c :: outer => c.guarded = (c :: outer).any (·.hasHandlers g) ∧ Exact g outer

/-- What a context tells, and whether it has handlers. -/
def guards (g : Graph) (chain : List Context) : List (Bool × Bool) :=
  chain.map fun c => (c.guarded, c.hasHandlers g)

theorem any_of_guards (h : guards g' chain' = guards g chain) :
    chain'.any (·.hasHandlers g') = chain.any (·.hasHandlers g) := by
  have hany := congrArg (List.any · Prod.snd) h
  simp only [guards, List.any_map] at hany
  exact hany

theorem Exact.congr : ∀ {chain chain' : List Context}, guards g' chain' = guards g chain → Exact g chain →
    Exact g' chain'
  | [], _, h, _ => by rw [List.map_eq_nil_iff.1 h]; trivial
  | c :: outer, _, h, hexact => by
    obtain ⟨c', outer', rfl, hsame, hrest⟩ := List.map_eq_cons_iff.1 h
    refine ⟨?_, congr hrest hexact.2⟩
    rw [any_of_guards h, ← hexact.1]
    exact congrArg Prod.fst hsame

/-- A context is as guarded as the one around it, or else it has handlers. -/
theorem Exact.cons (h : Exact g outer)
    (hc : c.guarded = (c.hasHandlers g || outer.head?.any (·.guarded))) : Exact g (c :: outer) := by
  refine ⟨?_, h⟩
  rw [hc, List.any_cons]
  cases outer with
  | nil => rfl
  | cons d outer => rw [List.head?_cons, Option.any_some, h.1]

theorem Exact.tail (h : Exact g chain) : Exact g chain.tail := by
  cases chain with
  | nil => trivial
  | cons c outer => exact h.2

theorem Exact.guarded_eq (h : Exact g chain) : ∀ {level : Nat} {c : Context}, chain[level]? = some c →
    c.guarded = (chain.drop level).any (·.hasHandlers g) := by
  induction chain with
  | nil => nofun
  | cons d outer ih =>
    intro level c hc
    cases level with
    | zero =>
      cases hc
      exact h.1
    | succ level => exact ih h.2 hc

end Chain

theorem Graph.declaredHandlers_declareHandler_ne {g : Graph} {scope other : ScopeId} {x : Handler}
    (h : other ≠ scope) : (g.declareHandler scope x).declaredHandlers other = g.declaredHandlers other := by
  unfold declaredHandlers declareHandler
  rw [Array.getElem?_modify, if_neg (Ne.symm h)]

theorem Graph.declaredHandlers_declareHandler_self {g : Graph} {scope : ScopeId} {x : Handler}
    (h : scope < g.scopes.size) :
    (g.declareHandler scope x).declaredHandlers scope = g.declaredHandlers scope ++ [x] := by
  unfold declaredHandlers declareHandler
  rw [Array.getElem?_modify, if_pos rfl, Array.getElem?_eq_getElem h]
  rfl

/-! ## What keeps handlers where they are -/

/-- The scope of the context, whether it is guarded, and the copies of handlers of its subroutine. -/
def Context.mark (c : Context) : ScopeId × Bool × Option (List Handler) :=
  (c.scope, c.guarded, c.subroutine.bind (·.handlers))

theorem Chain.guards_of_marks {g g' : Graph} {chain chain' : List Context}
    (hmarks : chain'.map Context.mark = chain.map Context.mark)
    (hdeclared : ∀ c ∈ chain, g'.declaredHandlers c.scope = g.declaredHandlers c.scope) :
    guards g' chain' = guards g chain := by
  have hguards : ∀ (g : Graph) (chain : List Context), guards g chain = (chain.map Context.mark).map fun m =>
      (m.2.1, !(g.declaredHandlers m.1).isEmpty || m.2.2.any (!·.isEmpty)) := fun g chain => by
    rw [List.map_map]
    rfl
  have hsame : guards g' chain = guards g chain := List.map_congr_left fun c hc => by
    rw [Context.hasHandlers, Context.hasHandlers, hdeclared c hc]
  rw [hguards g', hmarks, ← hguards, hsame]

namespace Assembly

variable {s t u : Assembly} {c : Context} {outer : List Context} {level : Nat} {x : Request}

/-- No scope and no context has got other handlers, and each context tells what it told. -/
structure KeepsMarks (s t : Assembly) : Prop where
  scopes : t.graph.scopes = s.graph.scopes
  marks : t.chain.map Context.mark = s.chain.map Context.mark

theorem KeepsMarks.refl (s : Assembly) : s.KeepsMarks s := ⟨rfl, rfl⟩

theorem KeepsMarks.trans (h : s.KeepsMarks t) (h' : t.KeepsMarks u) : s.KeepsMarks u :=
  ⟨h'.scopes.trans h.scopes, h'.marks.trans h.marks⟩

theorem KeepsHandlers.marks (h : s.KeepsHandlers t) : s.KeepsMarks t := by
  have hmark : ∀ chain : List Context, chain.map Context.mark =
      (chain.map Context.blocksAndHandlers).map fun (scope, _, guarded, sub) =>
        (scope, guarded, sub.bind (·.handlers)) := fun chain => by
    rw [List.map_map]
    rfl
  exact ⟨h.scopes, by rw [hmark, h.chain, ← hmark]⟩

theorem keepsMarks_locate (bci : Nat) (s : Assembly) : s.KeepsMarks (locate bci s).2 := by
  have hcopies := locate_onlyCopies bci s
  have hmark : Context.mark ∘ Context.withoutCopies = Context.mark := by
    funext c
    rw [Function.comp_apply, Context.mark, Context.mark, Context.withoutCopies, Option.bind_map]
    rfl
  have hmarks := congrArg (List.map Context.mark) hcopies.chain
  rw [List.map_map, List.map_map, hmark] at hmarks
  exact ⟨hcopies.graph.scopes_eq, hmarks⟩

theorem keepsMarks_locateEach : ∀ (bcis : List Nat) (s : Assembly), s.KeepsMarks (s.locateEach bcis)
  | [], s => .refl s
  | bci :: bcis, s => (keepsMarks_locate bci s).trans (keepsMarks_locateEach bcis (locate bci s).2)

theorem keepsMarks_enter (entry : Nat) : Keeps KeepsMarks (enter entry) := by
  intro s
  unfold Yields enter
  cases hchain : s.chain with
  | nil => exact .refl s
  | cons c outer =>
    unfold Context.enter
    by_cases hzero : entry = 0
    · simp only [hzero, if_true]
      exact .refl s
    · simp only [hzero, if_false]
      exact ⟨rfl, by rw [hchain]; rfl⟩

end Assembly

/-- The request is not about handlers. -/
def Request.givesNoHandlers : Request → Bool
  | .setUpHandlers | .addHandler _ => false
  | _ => true

theorem Request.keeps_marks {x : Request} (hx : x.givesNoHandlers) : Keeps KeepsMarks x.act := by
  intro s
  cases x with
  | locate bci => exact keepsMarks_locate bci s
  | enter entry => exact (keepsMarks_enter entry s).bind fun _ _ h => h
  | setUpHandlers | addHandler => cases hx
  | _ => exact (Request.keeps_handlers rfl s).mono (fun _ _ h => h.marks) fun _ _ h => h.marks

namespace Assembly

/-! ## Runs -/

/-- The assembly after the context at a level has been asked, even if it refused. -/
def ask (level : Nat) (x : Request) (s : Assembly) : Assembly := ((Session.ofAssembly s).answer level x).2

/-- What comes of a graph without contexts if handlers are declared in time: in a scope while no context of the
chain is for it, and else in the innermost context. That one shares its scope with no context around it, or it has
begun to parse a subroutine; it gets copies of the handlers of its scope once. -/
inductive Timely : Assembly → Prop
  | start (g : Graph) : Timely { graph := g }
  | newScope {s : Assembly} (scope : Scope) : Timely s →
      Timely { s with graph := (s.graph.newScope scope).2 }
  | declare {s : Assembly} {scope : ScopeId} (h : Handler) : Timely s → (∀ c ∈ s.chain, c.scope ≠ scope) →
      Timely { s with graph := s.graph.declareHandler scope h }
  | push {s : Assembly} {scope : ScopeId} (table : BlockTable) (cursor : Cursor) (pool : ConstantPool)
      (o : Options) : Timely s → scope < s.graph.scopes.size →
      Timely (s.push (s.newContext scope table cursor pool o))
  | pop {s : Assembly} : Timely s → Timely s.pop
  | addHandler {s : Assembly} {c : Context} {outer : List Context} (h : Handler) : Timely s →
      s.chain = c :: outer → (c.isSubroutine ∨ ∀ d ∈ outer, d.scope ≠ c.scope) →
      Timely (s.ask 0 (.addHandler h))
  | setUpHandlers {s : Assembly} {c : Context} {outer : List Context} : Timely s → s.chain = c :: outer →
      c.isSetUp = false → Timely (s.ask 0 .setUpHandlers)
  | ask {s : Assembly} {x : Request} (level : Nat) : Timely s → x.givesNoHandlers → Timely (s.ask level x)

/-- The contexts are for scopes of the graph, and what they tell is right. -/
structure WellGuarded (s : Assembly) : Prop where
  scopes : ∀ c ∈ s.chain, c.scope < s.graph.scopes.size
  exact : Chain.Exact s.graph s.chain

variable {s t : Assembly} {c : Context} {outer : List Context} {level : Nat} {x : Request}

namespace WellGuarded

theorem congr (h : s.WellGuarded) (hmarks : t.chain.map Context.mark = s.chain.map Context.mark)
    (hsize : s.graph.scopes.size ≤ t.graph.scopes.size)
    (hdeclared : ∀ c ∈ s.chain, t.graph.declaredHandlers c.scope = s.graph.declaredHandlers c.scope) :
    t.WellGuarded := by
  refine ⟨fun c hc => ?_, h.exact.congr (Chain.guards_of_marks hmarks hdeclared)⟩
  have hmem := List.mem_map_of_mem (f := Context.mark) hc
  rw [hmarks] at hmem
  obtain ⟨d, hd, heq⟩ := List.mem_map.1 hmem
  have hscope : d.scope = c.scope := congrArg Prod.fst heq
  exact Nat.lt_of_lt_of_le (hscope ▸ h.scopes d hd) hsize

theorem keepsMarks (h : s.WellGuarded) (ht : s.KeepsMarks t) : t.WellGuarded :=
  h.congr ht.marks (Nat.le_of_eq (congrArg Array.size ht.scopes.symm)) fun c _ => by
    rw [Graph.declaredHandlers, Graph.declaredHandlers, ht.scopes]

theorem newScope (h : s.WellGuarded) (scope : Scope) :
    WellGuarded { s with graph := (s.graph.newScope scope).2 } := by
  refine h.congr rfl ?_ fun c hc => ?_
  · show s.graph.scopes.size ≤ (s.graph.scopes.push scope).size
    rw [Array.size_push]
    exact Nat.le_succ _
  · show (s.graph.scopes.push scope)[c.scope]?.elim [] Scope.handlers = _
    rw [Array.getElem?_push, if_neg (Nat.ne_of_lt (h.scopes c hc))]
    rfl

theorem declare (h : s.WellGuarded) {scope : ScopeId} (hscope : ∀ c ∈ s.chain, c.scope ≠ scope) (x : Handler) :
    WellGuarded { s with graph := s.graph.declareHandler scope x } := by
  refine h.congr rfl ?_ fun c hc => Graph.declaredHandlers_declareHandler_ne (hscope c hc)
  show s.graph.scopes.size ≤ (s.graph.scopes.modify scope _).size
  rw [Array.size_modify]

theorem push (h : s.WellGuarded) {scope : ScopeId} (hscope : scope < s.graph.scopes.size) (table : BlockTable)
    (cursor : Cursor) (pool : ConstantPool) (o : Options) :
    (s.push (s.newContext scope table cursor pool o)).WellGuarded := by
  refine ⟨fun c hc => ?_, h.exact.cons ?_⟩
  · rcases List.mem_cons.1 hc with rfl | hc
    · exact hscope
    · exact h.scopes c hc
  · show (s.graph.scopes[scope]?.any Scope.declaresHandlers || _) =
      ((!(s.graph.scopes[scope]?.elim [] Scope.handlers).isEmpty || false) || _)
    cases s.graph.scopes[scope]? <;> simp [Scope.declaresHandlers]

theorem pop (h : s.WellGuarded) : s.pop.WellGuarded :=
  ⟨fun c hc => h.scopes c (List.mem_of_mem_tail hc), h.exact.tail⟩

/-- The innermost context has got a handler, and tells it. -/
theorem ofHead (h : s.WellGuarded) (hs : s.chain = c :: outer) {d : Context} (ht : t.chain = d :: outer)
    (hscope : d.scope = c.scope) (hsize : t.graph.scopes.size = s.graph.scopes.size)
    (hdeclared : ∀ c ∈ outer, t.graph.declaredHandlers c.scope = s.graph.declaredHandlers c.scope)
    (hguarded : d.guarded = true) (hhandlers : d.hasHandlers t.graph = true) : t.WellGuarded := by
  have hscopes := h.scopes
  have hexact := h.exact
  rw [hs] at hscopes hexact
  have hguards : Chain.guards t.graph outer = Chain.guards s.graph outer := Chain.guards_of_marks rfl hdeclared
  refine ⟨fun x hx => ?_, ?_⟩
  · rw [ht] at hx
    rw [hsize]
    rcases List.mem_cons.1 hx with rfl | hx
    · exact hscope ▸ hscopes c List.mem_cons_self
    · exact hscopes x (List.mem_cons_of_mem _ hx)
  · rw [ht]
    exact (hexact.2.congr hguards).cons (by rw [hguarded, hhandlers, Bool.true_or])

end WellGuarded

/-- What is known of an action is known after it. -/
theorem ask_of_yields {P : Assembly → Prop} (h : Yields x.act { s with chain := s.chain.drop level }
    (fun _ t => P { t with chain := s.chain.take level ++ t.chain })
    fun _ t => P { t with chain := s.chain.take level ++ t.chain }) : P (s.ask level x) :=
  Session.answer_of_yields (s := .ofAssembly s) (P := fun _ t => P t) h

theorem ask_zero_of_yields {P : Assembly → Prop} (h : Yields x.act s (fun _ t => P t) fun _ t => P t) :
    P (s.ask 0 x) :=
  ask_of_yields h

theorem keepsMarks_ask (hx : x.givesNoHandlers) : s.KeepsMarks (s.ask level x) := by
  have hglue : ∀ t : Assembly, KeepsMarks { s with chain := s.chain.drop level } t →
      s.KeepsMarks { t with chain := s.chain.take level ++ t.chain } := by
    refine fun t ht => ⟨ht.scopes, ?_⟩
    show (s.chain.take level ++ t.chain).map Context.mark = _
    rw [List.map_append, ht.marks, ← List.map_append, List.take_append_drop]
  exact ask_of_yields ((Request.keeps_marks hx _).mono (fun _ => hglue) fun _ => hglue)

namespace WellGuarded

theorem addHandler (h : s.WellGuarded) (hchain : s.chain = c :: outer)
    (halone : c.isSubroutine ∨ ∀ d ∈ outer, d.scope ≠ c.scope) (x : Handler) :
    (s.ask 0 (.addHandler x)).WellGuarded := by
  have hyields : Yields (Assembly.addHandler x) s (fun _ t => t.WellGuarded) fun _ t => t.WellGuarded := by
    unfold Yields Assembly.addHandler
    simp only [hchain]
    cases hsub : c.subroutine with
    | none =>
      have halone : ∀ d ∈ outer, d.scope ≠ c.scope :=
        halone.resolve_left (by rw [Context.isSubroutine, hsub]; exact Bool.false_ne_true)
      have hscope : c.scope < s.graph.scopes.size := h.scopes c (by rw [hchain]; exact List.mem_cons_self)
      refine h.ofHead hchain rfl rfl (Array.size_modify ..)
        (fun d hd => Graph.declaredHandlers_declareHandler_ne (halone d hd)) rfl ?_
      rw [Context.hasHandlers, Graph.declaredHandlers_declareHandler_self hscope]
      simp
    | some sub =>
      simp only
      cases hhs : sub.handlers with
      | none => exact h
      | some hs => exact h.ofHead hchain rfl rfl rfl (fun _ _ => rfl) rfl (by simp [Context.hasHandlers])
  exact ask_zero_of_yields (hyields.bind fun _ _ ht => ht)

/-- Copies of all handlers of the scope are none that there were not. -/
theorem enterHandlers (h : s.WellGuarded) (hchain : s.chain = c :: outer) (hnew : c.isSetUp = false)
    {hs : List Handler} (hlength : hs.length = (s.graph.declaredHandlers c.scope).length) :
    (s.enterHandlers hs).WellGuarded := by
  have hscopes := h.scopes
  have hexact := h.exact
  rw [hchain] at hscopes hexact
  have hempty : hs.isEmpty = (s.graph.declaredHandlers c.scope).isEmpty := by
    rw [Bool.eq_iff_iff, List.isEmpty_iff_length_eq_zero, List.isEmpty_iff_length_eq_zero, hlength]
  have hnone : c.subroutine.bind (·.handlers) = none := by simpa [Context.isSetUp] using hnew
  have hsame : Context.hasHandlers s.graph
      { c with subroutine := c.subroutine.map ({ · with handlers := some hs }) } = c.hasHandlers s.graph := by
    unfold Context.hasHandlers
    rw [hnone]
    cases c.subroutine <;> simp [hempty]
  unfold Assembly.enterHandlers modifyInnermost
  simp only [hchain]
  refine ⟨fun d hd => ?_, hexact.congr ?_⟩
  · rcases List.mem_cons.1 hd with rfl | hd
    · exact hscopes c List.mem_cons_self
    · exact hscopes d (List.mem_cons_of_mem _ hd)
  · rw [Chain.guards, Chain.guards, List.map_cons, List.map_cons, hsame]

theorem setUpHandlers (h : s.WellGuarded) (hchain : s.chain = c :: outer) (hnew : c.isSetUp = false) :
    (s.ask 0 .setUpHandlers).WellGuarded := by
  have hyields : Yields Assembly.setUpHandlers s (fun _ t => t.WellGuarded) fun _ t => t.WellGuarded := by
    refine (setUpHandlers_locates s).mono (fun _ t ht => ?_) fun _ t ht => ?_
    · obtain ⟨d, hd, bcis, hs, hlength, rfl⟩ := ht
      have hmarks := keepsMarks_locateEach bcis s
      rw [hchain] at hd
      cases hd
      have hchain' := hmarks.marks
      rw [hchain] at hchain'
      obtain ⟨c', outer', hu, hmark, -⟩ := List.map_eq_cons_iff.1 hchain'
      simp only [Context.mark, Prod.mk.injEq] at hmark
      obtain ⟨hscope, -, hhandlers⟩ := hmark
      refine (h.keepsMarks hmarks).enterHandlers hu (by rw [Context.isSetUp, hhandlers]; exact hnew) ?_
      rw [hlength, Graph.declaredHandlers, Graph.declaredHandlers, hmarks.scopes, hscope]
    · obtain ⟨bcis, rfl⟩ := ht
      exact h.keepsMarks (keepsMarks_locateEach bcis s)
  exact ask_zero_of_yields (hyields.bind fun _ _ ht => ht)

end WellGuarded

theorem Timely.wellGuarded (h : s.Timely) : s.WellGuarded := by
  induction h with
  | start g => exact ⟨nofun, trivial⟩
  | newScope scope _ ih => exact ih.newScope scope
  | declare x _ hscope ih => exact ih.declare hscope x
  | push table cursor pool o _ hscope ih => exact ih.push hscope table cursor pool o
  | pop _ ih => exact ih.pop
  | addHandler x _ hchain halone ih => exact ih.addHandler hchain halone x
  | setUpHandlers _ hchain hnew ih => exact ih.setUpHandlers hchain hnew
  | ask level _ hx ih => exact ih.keepsMarks (keepsMarks_ask hx)

end Assembly

/-- **Whether a context is guarded is exact.** When handlers are declared in time, a context tells that it is
guarded if and only if the scope of that context or of one around it declares handlers, or a subroutine that one
of them parses has copies of handlers. -/
theorem guarded_exact {s : Assembly} (h : s.Timely) {level : Nat} {c : Context} (hc : s.chain[level]? = some c) :
    c.guarded = true ↔ ∃ d ∈ s.chain.drop level, s.graph.declaredHandlers d.scope ≠ [] ∨
      ∃ sub hs, d.subroutine = some sub ∧ sub.handlers = some hs ∧ hs ≠ [] := by
  rw [h.wellGuarded.exact.guarded_eq hc, List.any_eq_true]
  simp only [Context.hasHandlers_iff]

/-- A subroutine gets a handler of its own, which the method around it does not see, and then a method is inlined
into the subroutine. -/
theorem inlinedInside_guarded : ∃ s : Assembly, s.Timely ∧ s.chain.map (·.guarded) = [true, true, false] ∧
    ∀ (level : Nat) (c : Context), s.chain[level]? = some c →
      (c.guarded = true ↔ ∃ d ∈ s.chain.drop level, s.graph.declaredHandlers d.scope ≠ [] ∨
        ∃ sub hs, d.subroutine = some sub ∧ sub.handlers = some hs ∧ hs ≠ []) := by
  let method : Method := { name := "outer", code := #[0, 0, 0xb1] }
  have hmethod := ((Timely.start {}).newScope (.root method)).push (.blank 3) (.ofCode method.code) {} {}
    (show 0 < 1 by decide)
  have hsubroutine := ((hmethod.push (.blank 3) (.ofCode method.code) {} {} (show 0 < 1 by decide)).ask 0
    (x := .enter 1) rfl).setUpHandlers rfl rfl
  have hhandler := hsubroutine.addHandler { first := 1, limit := 2, target := .code 2, catchType := 0 } rfl
    (.inl rfl)
  have hinlined := (hhandler.newScope (.inlined { method with name := "inner" } 0 0
    { scope := 0, bci := 2 })).push (.blank 3) (.ofCode method.code) {} {} (show 1 < 2 by decide)
  exact ⟨_, hinlined, by decide +kernel, fun level c hc => guarded_exact hinlined hc⟩

end BlockGraph
