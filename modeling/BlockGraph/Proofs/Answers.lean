import BlockGraph.Proofs.Assembly.Closing
import BlockGraph.Proofs.Enclosing
import BlockGraph.Proofs.PrivateBlocks

/-!
# What contexts answer from then on

A chain of contexts answers for an index without making a copy if the block is in a table or has been copied,
or if there is none (`Answers`). So it does for every index that it has been asked for, when subroutines share
the table of the method around them (`Shares.answers_locate`). Whatever is asked of the contexts later, what they
answered they answer still, until one of them begins to parse another subroutine (`ReachedFrom.answer_locate`).
-/

namespace BlockGraph

open Assembly

namespace Context

variable {c : Context} {sub : Subroutine} {bci : Nat} {b : BlockId}

/-- Has the subroutine of the context got its handlers? -/
def isSetUp (c : Context) : Bool := (c.subroutine.bind (·.handlers)).isSome

/-- What tells the blocks and the handlers of a context. -/
def blocksAndHandlers (c : Context) : ScopeId × BlockTable × Bool × Option Subroutine :=
  (c.scope, c.table, c.guarded, c.subroutine)

theorem subroutine_keepCopy (hsub : c.subroutine = some sub) :
    (c.keepCopy bci b).subroutine = some { sub with copies := sub.copies.set bci b } := by
  rw [keepCopy, hsub]
  rfl

theorem isSetUp_keepCopy : (c.keepCopy bci b).isSetUp = c.isSetUp := by
  unfold isSetUp keepCopy
  cases c.subroutine <;> rfl

end Context

namespace Chain

variable {c c' d : Context} {outer outer' chain chain' chain'' : List Context} {sub : Subroutine}
  {bci : Nat} {b : BlockId} {e : Option BlockId}

/-! ## Contexts that share a table -/

/-- As far out as subroutines are parsed, a context has the table and the code of the context around it. Tables
are as large as the code. -/
inductive Shares : List Context → Prop
  | method {c : Context} {outer : List Context} : c.subroutine = none → c.table.size = c.cursor.code.size →
      Shares (c :: outer)
  | subroutine {c d : Context} {outer : List Context} {sub : Subroutine} : c.subroutine = some sub →
      sub.copies.size = c.cursor.code.size → c.table = d.table → c.cursor.code = d.cursor.code →
      Shares (d :: outer) → Shares (c :: d :: outer)

/-- A context that begins to parse a subroutine of the context around it. -/
theorem Shares.enter {entry : Nat} (h : Shares (d :: outer)) (htable : c.table = d.table)
    (hcode : c.cursor.code = d.cursor.code) (henter : c.enter entry = .ok c') :
    Shares (c' :: d :: outer) := by
  unfold Context.enter at henter
  split at henter
  · cases henter
  · cases henter
    exact .subroutine rfl (BlockTable.size_blank _) htable hcode h

theorem Kept.uncons (h : Kept 0 (c :: outer) chain') :
    ∃ c' outer', chain' = c' :: outer' ∧ Context.Kept 0 c c' ∧ Kept 0 outer outer' := by
  cases chain' with
  | nil => cases h.length
  | cons c' outer' =>
    have hc := h.each 0 c c' rfl rfl
    rw [ite_self] at hc
    exact ⟨c', outer', rfl, hc, h.drop 1⟩

theorem Shares.kept (h : Shares chain) (hkept : Kept 0 chain chain') : Shares chain' := by
  induction h generalizing chain' with
  | method hmethod hsize =>
    obtain ⟨c', outer', rfl, hc, -⟩ := hkept.uncons
    refine .method (hc.method hmethod) ?_
    rw [hc.same]
    exact hsize
  | subroutine hsub hsize htable hcode _ ih =>
    obtain ⟨c', chain', rfl, hc, hrest⟩ := hkept.uncons
    obtain ⟨d', outer', rfl, hd, -⟩ := hrest.uncons
    obtain ⟨sub', hsub', hgains⟩ := hc.subroutine _ hsub
    refine .subroutine hsub' ?_ ?_ ?_ (ih hrest)
    · rw [hgains.size, hc.same]
      exact hsize
    · rw [hc.same, hd.same]
      exact htable
    · rw [hc.same, hd.same]
      exact hcode

/-- Blocks are found inside of the code only. -/
theorem Shares.lt_of_locate (h : Shares chain) : ∀ {c : Context} {d : Draft}, chain.head? = some c →
    (locate bci chain d).1 = some b → bci < c.cursor.code.size := by
  induction h generalizing b with
  | @method c outer hmethod hsize =>
    intro _ d hc hfound
    cases hc
    rw [locate, hmethod] at hfound
    exact hsize ▸ BlockTable.lt_size_of_get hfound
  | @subroutine c d outer sub hsub hsize htable hcode _ ih =>
    intro _ dr hc hfound
    cases hc
    cases hcopy : sub.copies.get bci with
    | some copy => exact hsize ▸ BlockTable.lt_size_of_get hcopy
    | none =>
      rw [locate, hsub] at hfound
      simp only [hcopy] at hfound
      cases horiginal : (locate bci (d :: outer) dr).1 with
      | none =>
        generalize locate bci (d :: outer) dr = found at horiginal hfound
        obtain ⟨original, outer', dr'⟩ := found
        cases horiginal
        cases hfound
      | some original =>
        rw [hcode]
        exact ih rfl horiginal

/-- The innermost context may change in what tells neither its blocks nor its code. -/
theorem Shares.replace (h : Shares (c :: outer)) (htable : c'.table = c.table) (hcursor : c'.cursor = c.cursor)
    (hcopies : c'.subroutine.map (·.copies) = c.subroutine.map (·.copies)) : Shares (c' :: outer) := by
  cases h with
  | method hmethod hsize =>
    rw [hmethod, Option.map_none, Option.map_eq_none_iff] at hcopies
    exact .method hcopies (by rw [htable, hcursor, hsize])
  | subroutine hsub hsize hshared hcode hrest =>
    rw [hsub, Option.map_some, Option.map_eq_some_iff] at hcopies
    obtain ⟨sub', hsub', heq⟩ := hcopies
    exact .subroutine hsub' (by rw [heq, hsize, hcursor]) (htable.trans hshared) (by rw [hcursor, hcode]) hrest

/-! ## What a chain answers -/

/-- The chain answers `e` for an index, and has no copy to make for it: the innermost context has the block in
its table or among its copies, or the method that it parses has none there. -/
inductive Answers (bci : Nat) : Option BlockId → List Context → Prop
  | method {c : Context} {outer : List Context} : c.subroutine = none →
      Answers bci (c.table.get bci) (c :: outer)
  | copy {c : Context} {outer : List Context} {sub : Subroutine} {b : BlockId} : c.subroutine = some sub →
      sub.copies.get bci = some b → Answers bci (some b) (c :: outer)
  | missing {c : Context} {outer : List Context} {sub : Subroutine} : c.subroutine = some sub →
      sub.copies.get bci = none → Answers bci none outer → Answers bci none (c :: outer)

theorem Answers.locate_eq (h : Answers bci e chain) (d : Draft) : locate bci chain d = (e, chain, d) := by
  induction h with
  | method hmethod => rw [locate, hmethod]
  | copy hsub hcopy =>
    rw [locate, hsub]
    simp only [hcopy]
  | missing hsub hcopy _ ih =>
    rw [locate, hsub]
    simp only [hcopy, ih]

/-- What has been found is answered from then on. -/
theorem Shares.answers_locate (h : Shares chain) (bci : Nat) :
    ∀ d : Draft, Answers bci (locate bci chain d).1 (locate bci chain d).2.1 := by
  induction h with
  | method hmethod =>
    intro d
    rw [locate, hmethod]
    exact .method hmethod
  | @subroutine c d outer sub hsub hsize htable hcode hd ih =>
    intro dr
    rw [locate, hsub]
    cases hcopy : sub.copies.get bci with
    | some copy =>
      simp only [hcopy]
      exact .copy hsub hcopy
    | none =>
      have hlt : ∀ original, (locate bci (d :: outer) dr).1 = some original → bci < d.cursor.code.size :=
        fun _ => hd.lt_of_locate rfl
      have ih := ih dr
      simp only [hcopy]
      generalize locate bci (d :: outer) dr = found at hlt ih ⊢
      obtain ⟨original, outer', dr'⟩ := found
      cases original with
      | none => exact .missing hsub hcopy ih
      | some original =>
        refine .copy (Context.subroutine_keepCopy hsub) ?_
        rw [BlockTable.get_set, hsize, hcode]
        exact if_pos ⟨rfl, hlt original rfl⟩

/-! ## What stays answered -/

/-- Each context answers what it answered, and has its handlers if it had them. -/
inductive Firm : List Context → List Context → Prop
  | nil : Firm [] []
  | cons {c c' : Context} {outer outer' : List Context} :
      (∀ bci e, Answers bci e (c :: outer) → Answers bci e (c' :: outer')) →
      (c.isSetUp → c'.isSetUp) → Firm outer outer' → Firm (c :: outer) (c' :: outer')

namespace Firm

theorem refl : ∀ chain : List Context, Firm chain chain
  | [] => .nil
  | _ :: outer => .cons (fun _ _ h => h) id (refl outer)

theorem trans (h : Firm chain chain') (h' : Firm chain' chain'') : Firm chain chain'' := by
  induction h generalizing chain'' with
  | nil => exact h'
  | cons hanswers hsetUp _ ih =>
    cases h' with
    | cons hanswers' hsetUp' hrest =>
      exact .cons (fun bci e h => hanswers' bci e (hanswers bci e h)) (hsetUp' ∘ hsetUp) (ih hrest)

theorem length_eq (h : Firm chain chain') : chain'.length = chain.length := by
  induction h with
  | nil => rfl
  | cons _ _ _ ih => exact congrArg (· + 1) ih

theorem answers (h : Firm chain chain') (hanswers : Answers bci e chain) : Answers bci e chain' := by
  cases h with
  | nil => exact hanswers
  | cons hfirm => exact hfirm bci e hanswers

theorem drop (h : Firm chain chain') (k : Nat) : Firm (chain.drop k) (chain'.drop k) := by
  induction h generalizing k with
  | nil => rw [List.drop_nil]; exact .nil
  | cons hanswers hsetUp hrest ih =>
    cases k with
    | zero => exact .cons hanswers hsetUp hrest
    | succ k => exact ih k

/-- A context may change in what does not tell which blocks it finds. -/
theorem replace (htable : c'.table = c.table)
    (hcopies : c'.subroutine.map (·.copies) = c.subroutine.map (·.copies)) (hsetUp : c.isSetUp → c'.isSetUp)
    (h : Firm outer outer') : Firm (c :: outer) (c' :: outer') := by
  refine .cons (fun bci e hanswers => ?_) hsetUp h
  cases hanswers with
  | method hmethod =>
    rw [hmethod, Option.map_none, Option.map_eq_none_iff] at hcopies
    rw [← htable]
    exact .method hcopies
  | copy hsub hcopy =>
    rw [hsub, Option.map_some, Option.map_eq_some_iff] at hcopies
    obtain ⟨sub', hsub', heq⟩ := hcopies
    exact .copy hsub' (heq ▸ hcopy)
  | missing hsub hcopy houter =>
    rw [hsub, Option.map_some, Option.map_eq_some_iff] at hcopies
    obtain ⟨sub', hsub', heq⟩ := hcopies
    exact .missing hsub' (heq ▸ hcopy) (h.answers houter)

/-- What is asked of a context does not change what the contexts inside of it answer. -/
theorem append (h : Firm chain chain') : ∀ inner : List Context, Firm (inner ++ chain) (inner ++ chain')
  | [] => h
  | _ :: inner => .replace rfl rfl id (append h inner)

theorem of_map_eq : ∀ {chain chain' : List Context},
    chain'.map Context.blocksAndHandlers = chain.map Context.blocksAndHandlers → Firm chain chain'
  | [], _, h => by rw [List.map_eq_nil_iff.1 h]; exact .nil
  | c :: outer, _, h => by
    obtain ⟨c', outer', rfl, hsame, hrest⟩ := List.map_eq_cons_iff.1 h
    simp only [Context.blocksAndHandlers, Prod.mk.injEq] at hsame
    obtain ⟨-, htable, -, hsub⟩ := hsame
    refine .replace htable (by rw [hsub]) ?_ (of_map_eq hrest)
    rw [Context.isSetUp, Context.isSetUp, hsub]
    exact id

theorem rtake (h : Firm chain chain') (n : Nat) : Firm (chain.rtake n) (chain'.rtake n) := by
  rw [List.rtake, List.rtake, h.length_eq]
  exact h.drop _

end Firm

/-- A first copy is made only where nothing was answered. -/
theorem firm_locate (bci : Nat) : ∀ (chain : List Context) (d : Draft), Firm chain (locate bci chain d).2.1
  | [], d => .nil
  | c :: outer, d => by
    have ih := firm_locate bci outer d
    rw [locate]
    cases hsub : c.subroutine with
    | none => exact .refl _
    | some sub =>
      simp only
      cases hcopy : sub.copies.get bci with
      | some copy => exact .refl _
      | none =>
        have hunanswered : ∀ e original, Answers bci e (c :: outer) →
            (locate bci outer d).1 ≠ some original := by
          intro e original h
          cases h with
          | method hmethod => cases hmethod.symm.trans hsub
          | copy hsub' hcopy' =>
            cases hsub.symm.trans hsub'
            cases hcopy.symm.trans hcopy'
          | missing _ _ houter =>
            rw [houter.locate_eq]
            exact (Option.some_ne_none original).symm
        simp only
        generalize locate bci outer d = found at ih hunanswered ⊢
        obtain ⟨original, outer', d'⟩ := found
        cases original with
        | none => exact .replace rfl rfl id ih
        | some original =>
          refine .cons (fun i e h => ?_) (fun h => Context.isSetUp_keepCopy.trans h) ih
          have hne : i ≠ bci := by
            rintro rfl
            exact hunanswered e original h rfl
          have hget : (sub.copies.set bci d'.graph.blocks.size).get i = sub.copies.get i := by
            rw [BlockTable.get_set, if_neg fun hi => hne hi.1]
          cases h with
          | method hmethod => cases hmethod.symm.trans hsub
          | copy hsub' hcopy' =>
            cases hsub.symm.trans hsub'
            exact .copy (Context.subroutine_keepCopy hsub) (hget.trans hcopy')
          | missing hsub' hcopy' houter =>
            cases hsub.symm.trans hsub'
            exact .missing (Context.subroutine_keepCopy hsub) (hget.trans hcopy') (ih.answers houter)

end Chain

/-! ## What requests do to blocks and handlers -/

/-- No context has got other blocks or handlers. -/
structure Assembly.KeepsHandlers (s t : Assembly) : Prop where
  scopes : t.graph.scopes = s.graph.scopes
  chain : t.chain.map Context.blocksAndHandlers = s.chain.map Context.blocksAndHandlers

namespace Assembly

variable {s t : Assembly}

theorem keepsHandlers_refl (s : Assembly) : s.KeepsHandlers s := ⟨rfl, rfl⟩

theorem keepsHandlers_of_cons {c d : Context} {outer : List Context} (hs : s.chain = c :: outer)
    (ht : t.chain = d :: outer) (hscopes : t.graph.scopes = s.graph.scopes)
    (hsame : d.blocksAndHandlers = c.blocksAndHandlers) : s.KeepsHandlers t :=
  ⟨hscopes, by rw [hs, ht, List.map_cons, List.map_cons, hsame]⟩

theorem keepsHandlers_modifyInnermost {f : Context → Context}
    (hf : ∀ c, (f c).blocksAndHandlers = c.blocksAndHandlers) (s : Assembly) :
    s.KeepsHandlers (s.modifyInnermost f) := by
  unfold modifyInnermost
  cases hchain : s.chain with
  | nil => exact keepsHandlers_refl s
  | cons c outer => exact keepsHandlers_of_cons hchain rfl rfl (hf c)

theorem keepsHandlers_withCursor {α : Type} (act : EStateM Fault Cursor α) :
    Keeps KeepsHandlers (withCursor act) := by
  intro s
  unfold Yields withCursor
  cases hchain : s.chain with
  | nil => exact keepsHandlers_refl s
  | cons c outer =>
    simp only
    cases act c.cursor <;> exact keepsHandlers_of_cons hchain rfl rfl rfl

end Assembly

/-- The request is not about blocks that are found, about subroutines or about handlers. -/
def Request.sparesHandlers : Request → Bool
  | .locate _ | .enter _ | .setUpHandlers | .addHandler _ => false
  | _ => true

theorem Request.keeps_handlers {x : Request} (hx : x.sparesHandlers) : Keeps KeepsHandlers x.act := by
  intro s
  have hset : ∀ f : Context → Context, (∀ c, (f c).blocksAndHandlers = c.blocksAndHandlers) →
      Yields (do modify (·.modifyInnermost f); return none : Assemble (Option BlockId)) s
        (fun _ t => s.KeepsHandlers t) fun _ t => s.KeepsHandlers t := fun f hf =>
    keepsHandlers_modifyInnermost hf s
  cases x with
  | schedule b =>
    show s.KeepsHandlers (Assembly.schedule b s)
    unfold Assembly.schedule
    cases hchain : s.chain with
    | nil => exact keepsHandlers_refl s
    | cons c outer =>
      simp only
      split
      · exact keepsHandlers_refl s
      · exact keepsHandlers_of_cons hchain rfl rfl rfl
  | takeNext =>
    show s.KeepsHandlers (Assembly.takeNext s).2
    unfold Assembly.takeNext
    cases hchain : s.chain with
    | nil => exact keepsHandlers_refl s
    | cons c outer => exact keepsHandlers_of_cons hchain rfl rfl rfl
  | setContinuation | setContinuationFrame | setResume | setReturnLocal | setUndo =>
    exact hset _ fun _ => rfl
  | countReturn => exact ⟨rfl, Chain.map_countReturn _ (fun _ _ => rfl) _⟩
  | moveTo | advance => exact (keepsHandlers_withCursor _ s).bind fun _ _ h => h
  | locate | enter | setUpHandlers | addHandler => cases hx

namespace Assembly

variable {s t : Assembly}

/-- The blocks at some indices are looked for, one after another. -/
def locateEach (bcis : List Nat) (s : Assembly) : Assembly := bcis.foldl (fun s bci => (locate bci s).2) s

/-- Enters handlers for the subroutine of the innermost context. -/
def enterHandlers (s : Assembly) (hs : List Handler) : Assembly :=
  s.modifyInnermost fun c => { c with subroutine := c.subroutine.map ({ · with handlers := some hs }) }

theorem copyHandlers_locates : ∀ (l : List Handler) (s : Assembly), Yields (copyHandlers l) s
    (fun hs t => hs.length = l.length ∧ ∃ bcis, t = s.locateEach bcis)
    fun _ t => ∃ bcis, t = s.locateEach bcis
  | [], s => ⟨rfl, [], rfl⟩
  | x :: rest, s => by
    rw [copyHandlers]
    cases x.entryIndex? with
    | some bci =>
      rw [yields_bind, yields_modifyGet]
      refine ((copyHandlers_locates rest (locate bci s).2).mono (fun hs t ht => ?_) fun _ t ht => ?_).bind
        fun hs t (ht : hs.length = rest.length ∧ _) => ⟨congrArg (· + 1) ht.1, ht.2⟩
      · obtain ⟨hlength, bcis, ht⟩ := ht
        exact ⟨hlength, bci :: bcis, ht⟩
      · obtain ⟨bcis, ht⟩ := ht
        exact ⟨bci :: bcis, ht⟩
    | none =>
      rw [yields_bind, yields_get]
      split
      · exact (copyHandlers_locates rest s).bind fun hs t ht => ⟨congrArg (· + 1) ht.1, ht.2⟩
      · exact ⟨[], rfl⟩

/-- To set handlers up is to look for blocks and then, unless that fails, to enter as many handlers as the scope
declares. -/
theorem setUpHandlers_locates (s : Assembly) : Yields setUpHandlers s
    (fun _ t => ∃ c ∈ s.chain.head?, ∃ bcis hs, hs.length = (s.graph.declaredHandlers c.scope).length ∧
      t = (s.locateEach bcis).enterHandlers hs)
    fun _ t => ∃ bcis, t = s.locateEach bcis := by
  have hinnermost : Yields innermost s (fun c t => t = s ∧ c ∈ s.chain.head?)
      fun _ t => ∃ bcis, t = s.locateEach bcis := by
    unfold Yields innermost
    cases s.chain with
    | nil => exact ⟨[], rfl⟩
    | cons c outer => exact ⟨rfl, rfl⟩
  unfold setUpHandlers
  refine hinnermost.bind fun c t ht => ?_
  obtain ⟨rfl, hc⟩ := ht
  split
  · exact ⟨[], rfl⟩
  · rw [yields_bind, yields_get]
    refine (copyHandlers_locates _ t).bind fun hs u hu => ?_
    obtain ⟨hlength, bcis, rfl⟩ := hu
    exact ⟨c, hc, bcis, hs, hlength, rfl⟩

/-! ## What requests do to answers -/

/-- What the chain answered it answers still. -/
def Firm (s t : Assembly) : Prop := Chain.Firm s.chain t.chain

theorem firm_refl (s : Assembly) : s.Firm s := Chain.Firm.refl _

theorem firm_of_cons {c c' : Context} {outer : List Context} (hs : s.chain = c :: outer)
    (ht : t.chain = c' :: outer) (htable : c'.table = c.table)
    (hcopies : c'.subroutine.map (·.copies) = c.subroutine.map (·.copies)) (hsetUp : c.isSetUp → c'.isSetUp) :
    s.Firm t := by
  rw [Firm, hs, ht]
  exact .replace htable hcopies hsetUp (.refl outer)

theorem firm_locate (bci : Nat) (s : Assembly) : s.Firm (locate bci s).2 :=
  Chain.firm_locate bci s.chain s.toDraft

theorem firm_locateEach : ∀ (bcis : List Nat) (s : Assembly), s.Firm (s.locateEach bcis)
  | [], s => firm_refl s
  | bci :: bcis, s => (firm_locate bci s).trans (firm_locateEach bcis (locate bci s).2)

theorem firm_enterHandlers (s : Assembly) (hs : List Handler) : s.Firm (s.enterHandlers hs) := by
  unfold enterHandlers modifyInnermost
  cases hchain : s.chain with
  | nil => exact firm_refl s
  | cons c outer =>
    refine firm_of_cons hchain rfl rfl ?_ ?_
    · simp only [Option.map_map]
      rfl
    · unfold Context.isSetUp
      cases hsub : c.subroutine <;> simp [hsub]

theorem KeepsHandlers.firm (h : s.KeepsHandlers t) : s.Firm t := Chain.Firm.of_map_eq h.chain

theorem keeps_firm_addHandler (x : Handler) : Keeps Firm (addHandler x) := by
  intro s
  unfold Yields addHandler
  cases hchain : s.chain with
  | nil => exact firm_refl s
  | cons c outer =>
    simp only
    cases hsub : c.subroutine with
    | none =>
      refine firm_of_cons hchain rfl rfl (by rw [hsub]) fun hsetUp => ?_
      rw [Context.isSetUp, hsub] at hsetUp
      cases hsetUp
    | some sub =>
      simp only
      cases hhs : sub.handlers with
      | none => exact firm_refl s
      | some hs => exact firm_of_cons hchain rfl rfl (by rw [hsub]; rfl) fun _ => rfl

end Assembly

/-- No request but to begin another subroutine changes what is answered. -/
theorem Request.keeps_firm {x : Request} (henter : ∀ entry, x ≠ .enter entry) : Keeps Firm x.act := by
  intro s
  cases x with
  | locate bci => exact firm_locate bci s
  | enter entry => exact absurd rfl (henter entry)
  | setUpHandlers =>
    refine ((setUpHandlers_locates s).mono (fun _ t ht => ?_) fun _ t ht => ?_).bind fun _ _ h => h
    · obtain ⟨c, -, bcis, hs, -, rfl⟩ := ht
      exact (firm_locateEach bcis s).trans (firm_enterHandlers _ hs)
    · obtain ⟨bcis, rfl⟩ := ht
      exact firm_locateEach bcis s
  | addHandler h => exact (keeps_firm_addHandler h s).bind fun _ _ h => h
  | _ => exact (Request.keeps_handlers rfl s).mono (fun _ _ h => h.firm) fun _ _ h => h.firm

/-- To begin another subroutine does nothing to the contexts around the one that does. -/
theorem Assembly.enter_tail (entry : Nat) (s : Assembly) : Yields (enter entry) s
    (fun _ t => t.chain.length = s.chain.length ∧ t.chain.tail = s.chain.tail)
    fun _ t => t.chain.length = s.chain.length ∧ t.chain.tail = s.chain.tail := by
  unfold Yields enter
  cases hchain : s.chain with
  | nil => simp only [hchain, and_self]
  | cons c outer =>
    simp only
    cases c.enter entry with
    | ok d => exact ⟨rfl, rfl⟩
    | error fault => simp only [hchain, List.tail_cons, and_self]

/-! ## Sessions -/

namespace Session

variable {s t u v : Session} {level n bci : Nat} {chain outer : List Context} {c : Context} {sub : Subroutine}
  {hs : List Handler} {e : Option BlockId}

theorem answer_addHandler {x : Handler} (hc : s.chain[level]? = some c) (hsub : c.subroutine = some sub)
    (hhs : sub.handlers = some hs) : s.answer level (.addHandler x) = (none, { s.toAssembly with
      chain := s.chain.set level { c with
        guarded := true
        subroutine := some { sub with handlers := some (hs ++ [x]) } } }) := by
  have hact : (Request.addHandler x).act = EStateM.bind (Assembly.addHandler x) fun _ => pure none := rfl
  unfold answer atLevel
  rw [hact]
  unfold EStateM.bind Assembly.addHandler
  simp only [drop_eq_cons hc, hsub, hhs]
  simp [pure, EStateM.pure, take_append_cons hc]

/-- Contexts come and go inside of the `n` outermost ones. All are asked for anything, but the `n` outermost
ones do not begin to parse another subroutine. -/
def lasts (n : Nat) (s : Session) : Op → Bool
  | .push .. => true
  | .pop => n < s.chain.length
  | .ask level (.enter _) => level + n < s.chain.length
  | .ask .. => true

/-- A context that begins another subroutine does nothing to the `n` outermost ones, if it is none of them. -/
theorem answer_enter_rtake {entry : Nat} (hinside : level + n < s.chain.length) :
    (s.answer level (.enter entry)).2.chain.length = s.chain.length ∧
      (s.answer level (.enter entry)).2.chain.rtake n = s.chain.rtake n := by
  have hdrop : n < (s.chain.drop level).length := by rw [List.length_drop]; omega
  have hbase : (s.chain.drop level).rtake n = s.chain.rtake n := by
    conv_rhs => rw [← List.take_append_drop level s.chain]
    exact (rtake_append (Nat.le_of_lt hdrop)).symm
  have hglue : ∀ t : Assembly, t.chain.length = (s.chain.drop level).length ∧
      t.chain.tail = (s.chain.drop level).tail → (s.chain.take level ++ t.chain).length = s.chain.length ∧
        (s.chain.take level ++ t.chain).rtake n = s.chain.rtake n := by
    rintro t ⟨hlength, htail⟩
    have hlt : n < t.chain.length := hlength.symm ▸ hdrop
    refine ⟨by rw [List.length_append, hlength, ← List.length_append, List.take_append_drop], ?_⟩
    rw [rtake_append (Nat.le_of_lt hlt), ← rtake_tail hlt, htail, rtake_tail hdrop, hbase]
  exact answer_of_yields (P := fun _ t => t.chain.length = s.chain.length ∧
    t.chain.rtake n = s.chain.rtake n)
    (((enter_tail entry _).mono (fun _ => hglue) fun _ => hglue).bind fun _ _ h => h)

theorem answer_firm {x : Request} (henter : ∀ entry, x ≠ .enter entry) :
    s.toAssembly.Firm (s.answer level x).2 := by
  have hglue : ∀ t : Assembly, Firm { s.toAssembly with chain := s.chain.drop level } t →
      s.toAssembly.Firm { t with chain := s.chain.take level ++ t.chain } := by
    intro t ht
    have hfirm := Chain.Firm.append ht (s.chain.take level)
    rwa [List.take_append_drop] at hfirm
  exact answer_of_yields (P := fun _ t => s.toAssembly.Firm t)
    ((Request.keeps_firm henter _).mono (fun _ => hglue) fun _ => hglue)

theorem perform_firm {op : Op} (hn : n ≤ s.chain.length) (hallowed : lasts n s op) :
    n ≤ (s.perform op).chain.length ∧ Chain.Firm (s.chain.rtake n) ((s.perform op).chain.rtake n) := by
  cases op with
  | push scope table cursor pool o =>
    refine ⟨Nat.le_succ_of_le hn, ?_⟩
    show Chain.Firm _ ((s.newContext scope table cursor pool o :: s.chain).rtake n)
    rw [← rtake_tail (l := _ :: s.chain) (Nat.lt_succ_of_le hn)]
    exact .refl _
  | pop =>
    have hlt : n < s.chain.length := of_decide_eq_true hallowed
    refine ⟨?_, ?_⟩
    · show n ≤ s.chain.tail.length
      rw [List.length_tail]
      omega
    · show Chain.Firm _ (s.chain.tail.rtake n)
      rw [rtake_tail hlt]
      exact .refl _
  | ask level x =>
    have hanswer : (s.answer level x).2.chain.length = s.chain.length ∧
        Chain.Firm (s.chain.rtake n) ((s.answer level x).2.chain.rtake n) := by
      by_cases henter : ∃ entry, x = .enter entry
      · obtain ⟨entry, rfl⟩ := henter
        obtain ⟨hlength, houter⟩ := answer_enter_rtake (s := s) (of_decide_eq_true hallowed)
        exact ⟨hlength, houter ▸ .refl _⟩
      · have hfirm : s.toAssembly.Firm (s.answer level x).2 := answer_firm fun entry h => henter ⟨entry, h⟩
        exact ⟨hfirm.length_eq, hfirm.rtake n⟩
    obtain ⟨hlength, hfirm⟩ := hanswer
    show n ≤ (s.ask level x).chain.length ∧ Chain.Firm _ ((s.ask level x).chain.rtake n)
    cases hname : s.names[level]? with
    | none =>
      unfold ask
      rw [hname]
      exact ⟨hn, .refl _⟩
    | some name =>
      rw [ask_eq hname]
      exact ⟨hlength.symm ▸ hn, hfirm⟩

theorem Reaches.firm (h : s.Reaches (lasts n) t) (hn : n ≤ s.chain.length) :
    n ≤ t.chain.length ∧ Chain.Firm (s.chain.rtake n) (t.chain.rtake n) := by
  induction h with
  | refl => exact ⟨hn, .refl _⟩
  | step _ hallowed ih =>
    obtain ⟨hn', hfirm⟩ := ih
    obtain ⟨hn'', hfirm'⟩ := perform_firm hn' hallowed
    exact ⟨hn'', hfirm.trans hfirm'⟩

/-- The outermost contexts of a session are those of `chain`, after any requests but to begin another
subroutine. Others may have come and gone inside of them. -/
def ReachedFrom (chain : List Context) (t : Session) : Prop :=
  ∃ s : Session, chain <:+ s.chain ∧ s.Reaches (lasts chain.length) t

theorem ReachedFrom.firm (h : t.ReachedFrom chain) :
    Chain.Firm chain (t.chain.drop (t.chain.length - chain.length)) := by
  obtain ⟨s, ⟨inner, hinner⟩, hreaches⟩ := h
  have hfirm := (hreaches.firm (by rw [← hinner, List.length_append]; omega)).2
  rwa [← hinner, rtake_append (Nat.le_refl _), List.rtake, Nat.sub_self, List.drop_zero] at hfirm

/-- What was answered once is answered in all sessions that follow, and no copy is made then. -/
theorem ReachedFrom.answer_locate (h : t.ReachedFrom chain) (hanswers : Chain.Answers bci e chain) :
    t.answer (t.chain.length - chain.length) (.locate bci) = (e, t.toAssembly) := by
  rw [Session.answer_locate, (h.firm.answers hanswers).locate_eq, List.take_append_drop]

theorem ReachedFrom.exists_handlers (h : t.ReachedFrom (c :: outer)) (hsetUp : c.isSetUp) :
    ∃ d sub hs, t.chain[t.chain.length - (outer.length + 1)]? = some d ∧ d.subroutine = some sub ∧
      sub.handlers = some hs := by
  have hfirm := h.firm
  cases hdrop : t.chain.drop (t.chain.length - (c :: outer).length) with
  | nil =>
    rw [hdrop] at hfirm
    cases hfirm
  | cons d rest =>
    rw [hdrop] at hfirm
    cases hfirm with
    | cons _ hkeeps _ =>
      obtain ⟨hs, hhs⟩ := Option.isSome_iff_exists.1 (hkeeps hsetUp)
      obtain ⟨sub, hsub, hhandlers⟩ := Option.bind_eq_some_iff.1 hhs
      refine ⟨d, sub, hs, ?_, hsub, hhandlers⟩
      rw [← List.head?_drop]
      exact congrArg List.head? hdrop

end Session

end BlockGraph
