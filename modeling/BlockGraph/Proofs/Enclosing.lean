import Mathlib.Data.List.DropRight
import BlockGraph.Proofs.Sessions

/-!
# What is done inside of a context

A context that is put on a chain and taken off it again leaves the contexts around it as they were, whatever
it and the contexts inside of it were asked for in between, with two exceptions: a subroutine may have got
copies that it did not have, and returns of subroutines count for the first context around them that is none.
Main statement: `outer_unchanged`.
-/

namespace BlockGraph

open Assembly

/-! ## The outermost contexts -/

section
variable {α : Type} {l l' : List α} {n : Nat}

theorem rtake_append (h : n ≤ l'.length) : (l ++ l').rtake n = l'.rtake n := by
  rw [List.rtake, List.rtake, List.length_append, Nat.add_sub_assoc h, List.drop_length_add_append]

theorem rtake_tail (h : n < l.length) : l.tail.rtake n = l.rtake n := by
  cases l with
  | nil => cases h
  | cons a l => exact (rtake_append (l := [a]) (Nat.le_of_lt_succ h)).symm

end

/-! ## Contexts that are kept -/

/-- The same subroutine, with all the copies and maybe some more. -/
structure Subroutine.Gains (s t : Subroutine) : Prop where
  entry : t.entry = s.entry
  handlers : t.handlers = s.handlers
  size : t.copies.size = s.copies.size
  copies : ∀ bci b, s.copies.get bci = some b → t.copies.get bci = some b

/-- The context is as it was, but for copies that its subroutine had not, and for `more` returns. -/
structure Context.Kept (more : Nat) (c d : Context) : Prop where
  same : d = { c with subroutine := d.subroutine, returns := c.returns + more }
  method : c.subroutine = none → d.subroutine = none
  subroutine : ∀ sub, c.subroutine = some sub → ∃ sub', d.subroutine = some sub' ∧ sub.Gains sub'

theorem Subroutine.Gains.refl (s : Subroutine) : s.Gains s := ⟨rfl, rfl, rfl, fun _ _ h => h⟩

theorem Subroutine.Gains.trans {s t u : Subroutine} (h : s.Gains t) (h' : t.Gains u) : s.Gains u :=
  ⟨h'.entry.trans h.entry, h'.handlers.trans h.handlers, h'.size.trans h.size,
    fun bci b hb => h'.copies bci b (h.copies bci b hb)⟩

namespace Context.Kept

variable {c d e : Context} {m n : Nat}

theorem refl (c : Context) : c.Kept 0 c := ⟨rfl, id, fun sub hsub => ⟨sub, hsub, .refl sub⟩⟩

theorem trans (h : Kept m c d) (h' : Kept n d e) : Kept (m + n) c e := by
  refine ⟨?_, fun hmethod => h'.method (h.method hmethod), fun sub hsub => ?_⟩
  · rw [h'.same, h.same]
    simp only [Nat.add_assoc]
  · obtain ⟨sub', hsub', hgains⟩ := h.subroutine sub hsub
    obtain ⟨sub'', hsub'', hgains'⟩ := h'.subroutine sub' hsub'
    exact ⟨sub'', hsub'', hgains.trans hgains'⟩

theorem isSubroutine (h : Kept m c d) : d.isSubroutine = c.isSubroutine := by
  unfold Context.isSubroutine
  cases hc : c.subroutine with
  | none => rw [h.method hc]
  | some sub =>
    obtain ⟨sub', hsub', -⟩ := h.subroutine sub hc
    rw [hsub']
    rfl

/-- A first copy at an index. -/
theorem keepCopy {sub : Subroutine} {bci : Nat} (hsub : c.subroutine = some sub)
    (hnone : sub.copies.get bci = none) (b : BlockId) : Kept 0 c (c.keepCopy bci b) := by
  have hkeep : (c.keepCopy bci b).subroutine = some { sub with copies := sub.copies.set bci b } := by
    rw [Context.keepCopy, hsub]
    rfl
  refine ⟨rfl, fun hmethod => (nomatch hsub.symm.trans hmethod), fun sub' hsub' => ?_⟩
  rw [hsub] at hsub'
  cases hsub'
  refine ⟨_, hkeep, rfl, rfl, BlockTable.size_set .., fun other b' hb' => ?_⟩
  have hne : other ≠ bci := by
    rintro rfl
    rw [hnone] at hb'
    cases hb'
  rw [BlockTable.get_set, if_neg fun h => hne h.1, hb']

theorem counted (c : Context) : Kept 1 c { c with returns := c.returns + 1 } :=
  ⟨rfl, id, (refl c).subroutine⟩

end Context.Kept

/-! ## Chains that are kept -/

namespace Chain

/-- The context of a chain that counts the returns: the first that parses no subroutine, or the outermost
one. -/
def counter (chain : List Context) : Nat :=
  min ((chain.map Context.isSubroutine).idxOf false) (chain.length - 1)

/-- All contexts are kept, and the one that counts them has `more` returns. -/
structure Kept (more : Nat) (chain chain' : List Context) : Prop where
  length : chain'.length = chain.length
  each : ∀ level c d, chain[level]? = some c → chain'[level]? = some d →
    Context.Kept (if level = counter chain then more else 0) c d

namespace Kept

variable {chain chain' chain'' : List Context} {c d : Context} {m n : Nat}

theorem refl (chain : List Context) : Kept 0 chain chain := by
  refine ⟨rfl, fun level c d hc hd => ?_⟩
  rw [hc] at hd
  cases hd
  rw [ite_self]
  exact .refl c

theorem counter_eq (h : Kept m chain chain') : counter chain' = counter chain := by
  have hmap : chain'.map Context.isSubroutine = chain.map Context.isSubroutine := by
    refine List.ext_getElem (by rw [List.length_map, List.length_map, h.length]) fun level hlt hlt' => ?_
    rw [List.getElem_map, List.getElem_map]
    exact (h.each level _ _ (List.getElem?_eq_getElem _) (List.getElem?_eq_getElem _)).isSubroutine
  rw [counter, counter, hmap, h.length]

theorem trans (h : Kept m chain chain') (h' : Kept n chain' chain'') : Kept (m + n) chain chain'' := by
  refine ⟨h'.length.trans h.length, fun level c e hc he => ?_⟩
  have hlt : level < chain'.length := h'.length ▸ (List.getElem?_eq_some_iff.1 he).1
  have hfirst := h.each level c _ hc (List.getElem?_eq_getElem hlt)
  have hsecond := h'.each level _ e (List.getElem?_eq_getElem hlt) he
  rw [h.counter_eq] at hsecond
  have hboth := hfirst.trans hsecond
  split at hboth <;> rename_i hlevel
  · rw [if_pos hlevel]
    exact hboth
  · rw [if_neg hlevel]
    exact hboth

theorem cons (hc : Context.Kept 0 c d) (h : Kept 0 chain chain') : Kept 0 (c :: chain) (d :: chain') := by
  refine ⟨congrArg (· + 1) h.length, fun level x y hx hy => ?_⟩
  rw [ite_self]
  cases level with
  | zero =>
    cases hx
    cases hy
    exact hc
  | succ level =>
    have hkept := h.each level x y hx hy
    rwa [ite_self] at hkept

theorem drop (h : Kept 0 chain chain') (k : Nat) : Kept 0 (chain.drop k) (chain'.drop k) := by
  refine ⟨by rw [List.length_drop, List.length_drop, h.length], fun level x y hx hy => ?_⟩
  rw [List.getElem?_drop] at hx hy
  have hkept := h.each (k + level) x y hx hy
  rw [ite_self] at hkept ⊢
  exact hkept

end Kept

theorem Kept.rtake {chain chain' : List Context} (h : Kept 0 chain chain') (n : Nat) :
    Kept 0 (chain.rtake n) (chain'.rtake n) := by
  rw [List.rtake, List.rtake, h.length]
  exact h.drop _

/-- A lookup makes copies only. -/
theorem kept_locate (bci : Nat) : ∀ (chain : List Context) (d : Draft),
    Kept 0 chain (locate bci chain d).2.1
  | [], d => .refl []
  | c :: outer, d => by
    have ih := kept_locate bci outer d
    rw [locate]
    cases hsub : c.subroutine with
    | none => exact .refl _
    | some sub =>
      simp only
      cases hcopy : sub.copies.get bci with
      | some copy => exact .refl _
      | none =>
        simp only
        generalize locate bci outer d = found at ih ⊢
        obtain ⟨original, outer', d'⟩ := found
        cases original with
        | none => exact .cons (.refl c) ih
        | some original => exact .cons (.keepCopy hsub hcopy _) ih

theorem kept_countReturn : ∀ chain : List Context, Kept 1 chain (countReturn chain)
  | [] => ⟨rfl, by simp⟩
  | [c] => by
    have hcounter : counter [c] = 0 := Nat.min_zero _
    refine ⟨rfl, fun level x y hx hy => ?_⟩
    cases level with
    | zero =>
      cases hx
      cases hy
      rw [hcounter]
      exact .counted c
    | succ level => cases hx
  | c :: d :: outer => by
    have ih := kept_countReturn (d :: outer)
    unfold countReturn
    cases hsub : c.isSubroutine with
    | true =>
      have hcounter : counter (c :: d :: outer) = counter (d :: outer) + 1 := by
        simp [counter, hsub]
      refine ⟨congrArg (· + 1) ih.length, fun level x y hx hy => ?_⟩
      cases level with
      | zero =>
        cases hx
        cases hy
        rw [if_neg (by omega)]
        exact .refl c
      | succ level => simpa [hcounter] using ih.each level x y hx hy
    | false =>
      have hcounter : counter (c :: d :: outer) = 0 := by simp [counter, hsub]
      refine ⟨rfl, fun level x y hx hy => ?_⟩
      rw [hcounter]
      cases level with
      | zero =>
        cases hx
        cases hy
        exact .counted c
      | succ level =>
        have hxy : x = y := Option.some_inj.1 (hx.symm.trans hy)
        subst hxy
        exact .refl x

/-- Of the contexts around some others, returns are counted only if all of those parse subroutines. -/
theorem drop_countReturn {base : List Context} : ∀ {inner : List Context}, inner ≠ [] →
    (countReturn (inner ++ base)).drop inner.length =
      if inner.all Context.isSubroutine then countReturn base else base
  | [], h => absurd rfl h
  | [c], _ => by
    cases base with
    | nil => simp [countReturn]
    | cons d base =>
      show (countReturn (c :: d :: base)).drop 1 = _
      rw [countReturn]
      · cases hsub : c.isSubroutine <;> simp [hsub]
      · simp
  | c :: d :: inner, _ => by
    have ih : (countReturn (d :: inner ++ base)).drop (d :: inner).length = _ :=
      drop_countReturn (List.cons_ne_nil d inner)
    show (countReturn (c :: d :: (inner ++ base))).drop ((d :: inner).length + 1) = _
    rw [countReturn]
    · cases hsub : c.isSubroutine with
      | true => simpa [hsub] using ih
      | false => simp [hsub]
    · simp

end Chain

/-! ## Requests -/

/-- The contexts around the innermost one are kept. -/
structure Assembly.SparesOuter (s t : Assembly) : Prop where
  length : t.chain.length = s.chain.length
  outer : Chain.Kept 0 s.chain.tail t.chain.tail

theorem Assembly.sparesOuter_of_cons {s t : Assembly} {c d : Context} {outer : List Context}
    (hs : s.chain = c :: outer) (ht : t.chain = d :: outer) : s.SparesOuter t := by
  refine ⟨by rw [hs, ht]; rfl, ?_⟩
  rw [hs, ht]
  exact .refl outer

theorem Assembly.sparesOuter_allows : Allows SparesOuter where
  refl _ := ⟨rfl, .refl _⟩
  trans h h' := ⟨h'.length.trans h.length, h.outer.trans h'.outer⟩
  locate bci s := by
    have hkept := Chain.kept_locate bci s.chain s.toDraft
    refine ⟨hkept.length, ?_⟩
    rw [← List.drop_one, ← List.drop_one]
    exact hkept.drop 1
  replace hchain _ := sparesOuter_of_cons hchain rfl
  declare _ _ _ := ⟨rfl, .refl _⟩

/-- Of all requests only counting a return does more to the contexts around the one that is asked than to
make copies there. -/
theorem Request.spares_outer {x : Request} (hcount : x ≠ .countReturn) : Keeps SparesOuter x.act := by
  cases x with
  | schedule b =>
    intro s
    show s.SparesOuter (Assembly.schedule b s)
    unfold Assembly.schedule
    cases hchain : s.chain with
    | nil => exact sparesOuter_allows.refl s
    | cons c outer =>
      simp only
      split
      · exact sparesOuter_allows.refl s
      · exact sparesOuter_of_cons hchain rfl
  | takeNext =>
    intro s
    show s.SparesOuter (Assembly.takeNext s).2
    unfold Assembly.takeNext
    cases hchain : s.chain with
    | nil => exact sparesOuter_allows.refl s
    | cons c outer => exact sparesOuter_of_cons hchain rfl
  | _ => exact Request.keeps sparesOuter_allows (by simp) (by simp) hcount

/-! ## Sessions inside of a chain -/

namespace Session

variable {s t : Session} {level n : Nat} {x : Request}

/-- Only the contexts inside of the `n` outermost ones are asked, and all but the outermost of them may be
taken off. -/
def inside (n : Nat) (s : Session) : Op → Bool
  | .push .. => true
  | .pop => n + 1 < s.chain.length
  | .ask level _ => level + n < s.chain.length

/-- A return is counted, and from the context that is asked up to the `n` outermost ones all contexts parse
subroutines. -/
def leaks (n : Nat) (s : Session) : Op → Bool
  | .ask level .countReturn => ((s.chain.drop level).rdrop n).all Context.isSubroutine
  | _ => false

/-- How many returns that are counted meanwhile count for the `n` outermost contexts. -/
def leaked (n : Nat) : List Op → Session → Nat
  | [], _ => 0
  | op :: ops, s => (if s.leaks n op then 1 else 0) + leaked n ops (s.perform op)

/-- What one context inside does. -/
theorem answer_kept (hlevel : level + n < s.chain.length) :
    (s.answer level x).2.chain.length = s.chain.length ∧
      Chain.Kept (if s.leaks n (.ask level x) then 1 else 0) (s.chain.rtake n)
        ((s.answer level x).2.chain.rtake n) := by
  have hdrop : n < (s.chain.drop level).length := by rw [List.length_drop]; omega
  have hbase : s.chain.rtake n = (s.chain.drop level).rtake n := by
    conv_lhs => rw [← List.take_append_drop level s.chain]
    exact rtake_append (Nat.le_of_lt hdrop)
  -- What is known of the contexts from the asked one on is known of the whole chain.
  have hglue : ∀ {m : Nat} {u : List Context}, u.length = (s.chain.drop level).length →
      Chain.Kept m ((s.chain.drop level).rtake n) (u.rtake n) →
      (s.chain.take level ++ u).length = s.chain.length ∧
        Chain.Kept m (s.chain.rtake n) ((s.chain.take level ++ u).rtake n) := by
    intro m u hu hkept
    rw [hbase, rtake_append (by omega), List.length_append, hu, ← List.length_append, List.take_append_drop]
    exact ⟨rfl, hkept⟩
  by_cases hcount : x = .countReturn
  · subst hcount
    refine hglue (Chain.kept_countReturn _).length ?_
    show Chain.Kept (if ((s.chain.drop level).rdrop n).all Context.isSubroutine then 1 else 0) _
      ((Chain.countReturn (s.chain.drop level)).rtake n)
    generalize s.chain.drop level = chain at hdrop ⊢
    have hinner : (chain.rdrop n).length = chain.length - n := by rw [List.rdrop, List.length_take]; omega
    have hsplit : chain.rdrop n ++ chain.rtake n = chain := List.take_append_drop _ _
    have hcounted : (Chain.countReturn chain).rtake n =
        if (chain.rdrop n).all Context.isSubroutine then Chain.countReturn (chain.rtake n)
        else chain.rtake n := by
      rw [List.rtake, (Chain.kept_countReturn chain).length, ← hinner,
        ← Chain.drop_countReturn (List.ne_nil_of_length_pos (by omega)), hsplit]
    rw [hcounted]
    split
    · exact Chain.kept_countReturn _
    · exact .refl _
  · have hleaks : s.leaks n (.ask level x) = false := by
      cases x <;> first | rfl | exact absurd rfl hcount
    rw [hleaks, if_neg Bool.false_ne_true]
    have houter : ∀ u : Assembly, SparesOuter { s.toAssembly with chain := s.chain.drop level } u →
        u.chain.length = (s.chain.drop level).length ∧
          Chain.Kept 0 ((s.chain.drop level).rtake n) (u.chain.rtake n) := by
      intro u hu
      have hlength : u.chain.length = (s.chain.drop level).length := hu.length
      have hlt : n < u.chain.length := by rwa [hlength]
      refine ⟨hlength, ?_⟩
      rw [← rtake_tail hdrop, ← rtake_tail hlt]
      exact hu.outer.rtake n
    exact answer_of_yields (P := fun _ t => t.chain.length = s.chain.length ∧
      Chain.Kept 0 (s.chain.rtake n) (t.chain.rtake n))
      ((Request.spares_outer hcount _).mono (fun _ u hu => hglue (houter u hu).1 (houter u hu).2)
        fun _ u hu => hglue (houter u hu).1 (houter u hu).2)

/-- One operation inside. -/
theorem perform_kept {op : Op} (h : s.Named) (hn : n < s.chain.length) (hinside : inside n s op) :
    (s.perform op).Named ∧ n < (s.perform op).chain.length ∧
      Chain.Kept (if s.leaks n op then 1 else 0) (s.chain.rtake n) ((s.perform op).chain.rtake n) := by
  cases op with
  | push scope table cursor pool o =>
    refine ⟨h.push _, Nat.lt_succ_of_lt hn, ?_⟩
    show Chain.Kept 0 _ ((s.newContext scope table cursor pool o :: s.chain).rtake n)
    rw [← rtake_tail (l := _ :: s.chain) (Nat.lt_succ_of_lt hn)]
    exact .refl _
  | pop =>
    have hlt : n + 1 < s.chain.length := of_decide_eq_true hinside
    refine ⟨h.pop, ?_, ?_⟩
    · show n < s.chain.tail.length
      rw [List.length_tail]
      omega
    · show Chain.Kept 0 _ (s.chain.tail.rtake n)
      rw [rtake_tail hn]
      exact .refl _
  | ask level x =>
    have hlevel : level + n < s.chain.length := of_decide_eq_true hinside
    obtain ⟨name, hname⟩ := h.called (List.getElem?_eq_getElem (Nat.lt_of_le_of_lt (Nat.le_add_right ..) hlevel))
    obtain ⟨hlength, hkept⟩ := answer_kept (x := x) hlevel
    show (s.ask level x).Named ∧ n < (s.ask level x).chain.length ∧
      Chain.Kept _ _ ((s.ask level x).chain.rtake n)
    rw [ask_eq hname]
    exact ⟨h.replace hlength _, hlength.symm ▸ hn, hkept⟩

/-- Any operations inside. -/
theorem after_kept : ∀ {ops : List Op} {s : Session}, s.Named → n < s.chain.length →
    after (inside n) ops s = some t →
    Chain.Kept (leaked n ops s) (s.chain.rtake n) (t.chain.rtake n) := by
  intro ops
  induction ops with
  | nil =>
    intro s _ _ ht
    cases ht
    exact .refl _
  | cons op ops ih =>
    intro s h hn ht
    obtain ⟨hinside, ht⟩ := Option.ite_none_right_eq_some.1 ht
    obtain ⟨h', hn', hkept⟩ := perform_kept h hn hinside
    exact hkept.trans (ih h' hn' ht)

/-- **What is done inside of a context leaves the contexts around it as they were**, but for copies that
their subroutines did not have, and for the returns that were counted in it and in contexts inside of it
while all of these parsed subroutines. Start with any chain, put a context on it, ask that context and others
inside of it for anything, in any order, and take it off again once the others are gone. -/
theorem outer_unchanged (a : Assembly) (scope : ScopeId) (table : BlockTable) (cursor : Cursor)
    (pool : ConstantPool) (o : Options) (ops : List Op) {t : Session}
    (hafter : after (inside a.chain.length) ops
      ((ofAssembly a).perform (.push scope table cursor pool o)) = some t)
    (hback : t.chain.length = a.chain.length + 1) :
    Chain.Kept (leaked a.chain.length ops ((ofAssembly a).perform (.push scope table cursor pool o)))
      a.chain (t.perform .pop).chain := by
  have hkept := after_kept (n := a.chain.length)
    (s := (ofAssembly a).perform (.push scope table cursor pool o))
    ((Named.ofAssembly a).push _) (Nat.lt_succ_self _) hafter
  have hbefore : ((ofAssembly a).perform (.push scope table cursor pool o)).chain.rtake a.chain.length =
      a.chain := by
    rw [← rtake_tail (Nat.lt_succ_self _), List.rtake]
    exact congrArg a.chain.drop (Nat.sub_self _)
  have hthen : t.chain.rtake a.chain.length = (t.perform .pop).chain := by
    rw [List.rtake, hback, Nat.add_sub_cancel_left, List.drop_one]
    rfl
  rwa [hbefore, hthen] at hkept

/-- A method with one block, whose subroutine at index 1 is being parsed. -/
def calling : Assembly :=
  let method := Context.nested [] 0 false ((BlockTable.blank 2).set 1 0) (.ofCode #[0, 0xb1]) {} {}
  { graph := { blocks := #[{ site := .code 1, number := 0 }] }
    chain := [{ method with subroutine := some { entry := 1, copies := .blank 2 } }, method] }

/-- A subroutine inside of that one finds the block and counts a return, as does a subroutine inside of it;
before that one is entered, its context counts a return for itself. -/
def callingInside : List Op :=
  [.ask 0 (.enter 1), .ask 0 (.locate 1), .ask 0 .countReturn, .push 0 (.blank 2) (.ofCode #[0, 0xb1]) {} {},
    .ask 0 .countReturn, .ask 0 (.enter 1), .ask 0 .countReturn, .ask 1 (.moveTo 1), .pop]

theorem calling_outer : ∃ t, after (inside 2) callingInside
      ((ofAssembly calling).perform (.push 0 (.blank 2) (.ofCode #[0, 0xb1]) {} {})) = some t ∧
    t.chain.length = 3 ∧ Chain.counter calling.chain = 1 ∧ Chain.Kept 2 calling.chain (t.perform .pop).chain := by
  have hany : (after (inside 2) callingInside ((ofAssembly calling).perform
      (.push 0 (.blank 2) (.ofCode #[0, 0xb1]) {} {}))).any (fun t => decide (t.chain.length = 3)) = true := by
    decide +kernel
  obtain ⟨t, ht, hlength⟩ := (Option.any_eq_true _ _).1 hany
  have hleaked : leaked 2 callingInside ((ofAssembly calling).perform
      (.push 0 (.blank 2) (.ofCode #[0, 0xb1]) {} {})) = 2 := by decide +kernel
  have hkept := outer_unchanged calling 0 (.blank 2) (.ofCode #[0, 0xb1]) {} {} callingInside ht
    (of_decide_eq_true hlength)
  exact ⟨t, ht, of_decide_eq_true hlength, by decide, hleaked ▸ hkept⟩

end Session
end BlockGraph
