import BlockGraph.Assembly
import BlockGraph.Proofs.Graph.Edits

/-!
# Where blocks belong

Each block belongs to the method itself or to the copy of a subroutine that was made for one call.
`Homes` names that call by the block that ends with it. The path of a chain lists the calls whose
subroutines are open, innermost first; `Nest` relates the contexts of a chain to the calls of its path.
`Grows` is what every operation on a graph keeps, `Edits` what those on an open block keep.
-/

namespace BlockGraph

/-- For each block the call in whose copy of a subroutine it lies, none for a block of the method
itself. -/
abbrev Homes := BlockId → Option BlockId

/-- Block `b` starts at an index in the copy that was made for a call. -/
structure Graph.LiesAt (g : Graph) (home : Homes) (call : Option BlockId) (bci : Nat)
    (b : BlockId) : Prop where
  lt : b < g.blocks.size
  home_eq : home b = call
  site : (g.block b).site = .code bci

/-- Block `b` lies in the copy made for call `j`, or in a copy nested in it. -/
inductive Under (home : Homes) (j : BlockId) : BlockId → Prop where
  | copied {b : BlockId} : home b = some j → Under home j b
  | nested {b k : BlockId} : home b = some k → Under home j k → Under home j b

/-- The calls around a block are older blocks. -/
theorem Under.lt {home : Homes} {size : Nat} {j b : BlockId}
    (hlt : ∀ b j, b < size → home b = some j → j < b) (h : Under home j b) (hb : b < size) : j < b := by
  induction h with
  | copied hj => exact hlt _ _ hb hj
  | nested hk _ ih =>
    have hkb := hlt _ _ hb hk
    exact Nat.lt_trans (ih (Nat.lt_trans hkb hb)) hkb

/-- The calls of a path are blocks of the graph, each in the copy made for the next one. -/
def Linked (home : Homes) (size : Nat) : List BlockId → Prop
  | [] => True
  | j :: path => j < size ∧ home j = path.head? ∧ Linked home size path

namespace Linked

variable {home home' : Homes} {size size' : Nat} {path : List BlockId} {j b : BlockId}

theorem congr (h : Linked home size path) (hsize : size ≤ size')
    (hhome : ∀ b, b < size → home' b = home b) : Linked home' size' path := by
  induction path with
  | nil => trivial
  | cons k path ih =>
    exact ⟨Nat.lt_of_lt_of_le h.1 hsize, (hhome k h.1).trans h.2.1, ih h.2.2⟩

/-- Calls further out are older. -/
theorem lt_of_mem (hlt : ∀ b j, b < size → home b = some j → j < b) :
    ∀ {path : List BlockId} {j : BlockId}, Linked home size (j :: path) → ∀ k ∈ path, k < j
  | [], _, _, _, hk => by cases hk
  | i :: path, j, h, k, hk => by
    have hij : i < j := hlt j i h.1 h.2.1
    rcases List.mem_cons.1 hk with rfl | hk
    · exact hij
    · exact Nat.lt_trans (lt_of_mem hlt h.2.2 k hk) hij

theorem nodup (hlt : ∀ b j, b < size → home b = some j → j < b) :
    ∀ {path : List BlockId}, Linked home size path → path.Nodup
  | [], _ => List.nodup_nil
  | _ :: _, h => List.nodup_cons.2
    ⟨fun hmem => Nat.lt_irrefl _ (lt_of_mem hlt h _ hmem), nodup hlt h.2.2⟩

/-- The copies around a block are those of the calls of its path. -/
theorem under_iff (h : Linked home size path) (hb : home b = path.head?) :
    Under home j b ↔ j ∈ path := by
  constructor
  · intro hu
    induction hu generalizing path with
    | copied hj => exact List.mem_of_mem_head? (hb.symm.trans hj)
    | @nested b k hk _ ih =>
      cases path with
      | nil => rw [hk] at hb; cases hb
      | cons i path =>
        rw [hk] at hb
        cases hb
        exact List.mem_cons_of_mem _ (ih h.2.2 h.2.1)
  · intro hj
    induction path generalizing b with
    | nil => cases hj
    | cons i path ih =>
      rcases List.mem_cons.1 hj with rfl | hj
      · exact .copied hb
      · exact .nested hb (ih h.2.2 h.2.1 hj)

end Linked

/-- What surrounds an old block depends on old blocks only. -/
theorem under_congr {home home' : Homes} {size : Nat} {j b : BlockId}
    (hlt : ∀ b j, b < size → home b = some j → j < b)
    (hhome : ∀ b, b < size → home' b = home b) (hb : b < size) :
    Under home' j b ↔ Under home j b := by
  constructor
  · intro hu
    induction hu with
    | copied hj => exact .copied ((hhome _ hb).symm.trans hj)
    | nested hk _ ih =>
      have hk' := (hhome _ hb).symm.trans hk
      exact .nested hk' (ih (Nat.lt_trans (hlt _ _ hb hk') hb))
  · intro hu
    induction hu with
    | copied hj => exact .copied ((hhome _ hb).trans hj)
    | nested hk _ ih => exact .nested ((hhome _ hb).trans hk) (ih (Nat.lt_trans (hlt _ _ hb hk) hb))

/-! ## Contexts along a path -/

/-- Each context of a chain fits its call; the outermost one has none. -/
inductive Nest (P : Option BlockId → Context → Prop) : List Context → List BlockId → Prop where
  | root {c : Context} : P none c → Nest P [c] []
  | call {c : Context} {outer : List Context} {j : BlockId} {path : List BlockId} :
    P (some j) c → Nest P outer path → Nest P (c :: outer) (j :: path)

namespace Nest

variable {P Q : Option BlockId → Context → Prop} {c c' : Context} {chain outer : List Context}
  {path : List BlockId} {j : BlockId}

theorem imp (h : Nest P chain path) (hPQ : ∀ call c, P call c → Q call c) : Nest Q chain path := by
  induction h with
  | root hc => exact .root (hPQ _ _ hc)
  | call hc _ ih => exact .call (hPQ _ _ hc) ih

theorem and (h : Nest P chain path) (h' : Nest Q chain path) :
    Nest (fun call c => P call c ∧ Q call c) chain path := by
  induction h with
  | root hc =>
    cases h' with
    | root hc' => exact .root ⟨hc, hc'⟩
  | call hc _ ih =>
    cases h' with
    | call hc' hrest => exact .call ⟨hc, hc'⟩ (ih hrest)

/-- The same, where it matters which call a context is for. -/
theorem imp_mem (h : Nest P chain path)
    (hPQ : ∀ call c, (call = none ∨ ∃ j ∈ path, call = some j) → P call c → Q call c) :
    Nest Q chain path := by
  induction h with
  | root hc => exact .root (hPQ _ _ (.inl rfl) hc)
  | call hc _ ih =>
    refine .call (hPQ _ _ (.inr ⟨_, List.mem_cons_self, rfl⟩) hc) (ih fun call c hcall => hPQ call c ?_)
    refine hcall.imp_right ?_
    rintro ⟨j, hj, he⟩
    exact ⟨j, List.mem_cons_of_mem _ hj, he⟩

theorem exists_cons (h : Nest P chain path) : ∃ c outer, chain = c :: outer := by
  cases h with
  | root _ => exact ⟨_, [], rfl⟩
  | call _ _ => exact ⟨_, _, rfl⟩

theorem head (h : Nest P (c :: outer) path) : P path.head? c := by
  cases h with
  | root hc => exact hc
  | call hc _ => exact hc

/-- The innermost context may be replaced by another one that fits. -/
theorem setHead (h : Nest P (c :: outer) path) (hc : P path.head? c') : Nest P (c' :: outer) path := by
  cases h with
  | root _ => exact .root hc
  | call _ hrest => exact .call hc hrest

/-- The innermost context may be replaced while something changes for its call only. -/
theorem replace (h : Nest P (c :: outer) path) (hnodup : path.Nodup) (hc : Q path.head? c')
    (hPQ : ∀ call c, call ≠ path.head? → P call c → Q call c) : Nest Q (c' :: outer) path := by
  cases h with
  | root _ => exact .root hc
  | call _ hrest =>
    refine .call hc (hrest.imp_mem fun call c hcall hP => hPQ call c (fun he => ?_) hP)
    rcases hcall with rfl | ⟨k, hk, rfl⟩
    · cases he
    · cases he; exact (List.nodup_cons.1 hnodup).1 hk

theorem tail (h : Nest P (c :: outer) (j :: path)) : Nest P outer path := by
  cases h with
  | call _ hrest => exact hrest

theorem mem (h : Nest P chain path) : ∀ c ∈ chain, ∃ call, P call c := by
  induction h with
  | root hc => intro c hmem; cases List.mem_singleton.1 hmem; exact ⟨_, hc⟩
  | call hc _ ih =>
    intro c hmem
    rcases List.mem_cons.1 hmem with rfl | hmem
    · exact ⟨_, hc⟩
    · exact ih c hmem

/-- Each call of the path has its context. -/
theorem exists_of_mem (h : Nest P chain path) (hj : j ∈ path) : ∃ c ∈ chain, P (some j) c := by
  induction h with
  | root _ => cases hj
  | @call c outer k path hc _ ih =>
    rcases List.mem_cons.1 hj with rfl | hj
    · exact ⟨c, List.mem_cons_self, hc⟩
    · obtain ⟨d, hd, hPd⟩ := ih hj
      exact ⟨d, List.mem_cons_of_mem _ hd, hPd⟩

/-- Contexts that agree in all that `P` reads may be exchanged. -/
theorem congr {α : Type} {f : Context → α} (h : Nest P chain path) :
    ∀ {chain' : List Context}, chain'.map f = chain.map f →
      (∀ call c c', f c' = f c → P call c → Q call c') → Nest Q chain' path := by
  induction h with
  | root hc =>
    intro chain' hf hPQ
    obtain ⟨c', rfl, hc'⟩ := List.map_eq_singleton_iff.1 hf
    exact .root (hPQ _ _ _ hc' hc)
  | call hc _ ih =>
    intro chain' hf hPQ
    obtain ⟨c', outer', rfl, hhead, htail⟩ := List.map_eq_cons_iff.1 hf
    exact .call (hPQ _ _ _ hhead hc) (ih htail hPQ)

/-- The outermost context is for no call, all others are for one. -/
theorem exists_root (h : Nest P chain path) : ∃ inner root, chain = inner ++ [root] ∧ P none root ∧
    ∀ c ∈ inner, ∃ j, P (some j) c := by
  induction h with
  | @root c hc => exact ⟨[], c, rfl, hc, by simp⟩
  | @call c outer j path hc _ ih =>
    obtain ⟨inner, root, rfl, hroot, hinner⟩ := ih
    refine ⟨c :: inner, root, rfl, hroot, fun d hd => ?_⟩
    rcases List.mem_cons.1 hd with rfl | hd
    · exact ⟨j, hc⟩
    · exact hinner d hd

/-- What holds between the context of a call and those for the calls around it holds all along a chain. -/
theorem pairwise {home : Homes} {size : Nat} {R : Context → Context → Prop} (h : Nest P chain path)
    (hlinked : Linked home size path) (hroot : ∀ k c d, P (some k) c → P none d → R c d)
    (hcall : ∀ j k c d, k ∈ path → k < size → Under home j k → P (some k) c → P (some j) d → R c d) :
    chain.Pairwise R := by
  induction h with
  | root _ => exact List.pairwise_singleton R _
  | @call c outer k path hc hrest ih =>
    refine List.pairwise_cons.2 ⟨fun d hd => ?_, ih hlinked.2.2 fun j k c d hk =>
      hcall j k c d (List.mem_cons_of_mem _ hk)⟩
    have hrelated : Nest (fun _ d => R c d) outer path := by
      refine hrest.imp_mem fun call d hmem hd => ?_
      rcases hmem with rfl | ⟨j, hj, rfl⟩
      · exact hroot k c d hc hd
      · exact hcall j k c d List.mem_cons_self hlinked.1 ((hlinked.2.2.under_iff hlinked.2.1).2 hj) hc hd
    obtain ⟨-, hd⟩ := hrelated.mem d hd
    exact hd

end Nest

/-! ## Growth -/

/-- What every operation on a graph keeps: blocks stay where they are, become queued and visited and
stay so, and what a closed block holds is final. -/
structure Grows (home : Homes) (g : Graph) (home' : Homes) (g' : Graph) : Prop where
  size_le : g.blocks.size ≤ g'.blocks.size
  home_eq : ∀ b, b < g.blocks.size → home' b = home b
  kin : ∀ b, b < g.blocks.size → (g'.block b).blankCopy = (g.block b).blankCopy
  queued : ∀ b, (g.block b).queued = true → (g'.block b).queued = true
  visited : ∀ b, (g.block b).visited = true → (g'.block b).visited = true
  exit : ∀ b x, (g.block b).exit = some x → (g'.block b).exit = some x
  body : ∀ b, (g.block b).exit.isSome = true → g'.body b = g.body b
  closed : ∀ b, (g.block b).exit.isSome = true → (g'.block b).handlers = (g.block b).handlers
  handlers : ∀ b, ∀ d ∈ (g.block b).handlers, d ∈ (g'.block b).handlers
  predecessors : ∀ b, ∀ p ∈ (g.block b).predecessors, p ∈ (g'.block b).predecessors
  start : g'.start = g.start
  order : g.order.toList <+: g'.order.toList

namespace Grows

variable {home home' home'' : Homes} {g g' g'' : Graph} {call : Option BlockId} {bci : Nat} {b : BlockId}

theorem refl (home : Homes) (g : Graph) : Grows home g home g where
  size_le := Nat.le_refl _
  home_eq _ _ := rfl
  kin _ _ := rfl
  queued _ h := h
  visited _ h := h
  exit _ _ h := h
  body _ _ := rfl
  closed _ _ := rfl
  handlers _ _ h := h
  predecessors _ _ h := h
  start := rfl
  order := List.prefix_rfl

theorem isSome_exit (h : Grows home g home' g') (hb : (g.block b).exit.isSome = true) :
    (g'.block b).exit.isSome = true := by
  obtain ⟨x, hx⟩ := Option.isSome_iff_exists.1 hb
  rw [h.exit b x hx]; rfl

theorem trans (h : Grows home g home' g') (h' : Grows home' g' home'' g'') :
    Grows home g home'' g'' where
  size_le := Nat.le_trans h.size_le h'.size_le
  home_eq b hb := (h'.home_eq b (Nat.lt_of_lt_of_le hb h.size_le)).trans (h.home_eq b hb)
  kin b hb := (h'.kin b (Nat.lt_of_lt_of_le hb h.size_le)).trans (h.kin b hb)
  queued b hb := h'.queued b (h.queued b hb)
  visited b hb := h'.visited b (h.visited b hb)
  exit b x hb := h'.exit b x (h.exit b x hb)
  body b hb := (h'.body b (h.isSome_exit hb)).trans (h.body b hb)
  closed b hb := (h'.closed b (h.isSome_exit hb)).trans (h.closed b hb)
  handlers b d hd := h'.handlers b d (h.handlers b d hd)
  predecessors b p hp := h'.predecessors b p (h.predecessors b p hp)
  start := h'.start.trans h.start
  order := h.order.trans h'.order

theorem lt (h : Grows home g home' g') (hb : b < g.blocks.size) : b < g'.blocks.size :=
  Nat.lt_of_lt_of_le hb h.size_le

theorem site (h : Grows home g home' g') (hb : b < g.blocks.size) :
    (g'.block b).site = (g.block b).site := by
  have hkin := congrArg Block.site (h.kin b hb)
  exact hkin

theorem liesAt (h : Grows home g home' g') (hb : g.LiesAt home call bci b) :
    g'.LiesAt home' call bci b :=
  ⟨h.lt hb.lt, (h.home_eq b hb.lt).trans hb.home_eq, (h.site hb.lt).trans hb.site⟩

/-- An old block lies where it lay. -/
theorem liesAt_iff (h : Grows home g home' g') (hb : b < g.blocks.size) :
    g'.LiesAt home' call bci b ↔ g.LiesAt home call bci b :=
  ⟨fun hl => ⟨hb, (h.home_eq b hb).symm.trans hl.home_eq, (h.site hb).symm.trans hl.site⟩,
    h.liesAt⟩

end Grows

/-- Growth that parses no further block. Only `new` blocks become queued, and only the `touched` block
may get instructions, edges to handlers and an exit. -/
structure Edits (touched : Option BlockId) (new : List BlockId) (home : Homes) (g : Graph)
    (home' : Homes) (g' : Graph) : Prop where
  grows : Grows home g home' g'
  queued : ∀ b, (g'.block b).queued = true → (g.block b).queued = true ∨ b ∈ new
  visited : ∀ b, (g'.block b).visited = (g.block b).visited
  order : g'.order = g.order
  exit : ∀ b, touched ≠ some b → (g'.block b).exit = (g.block b).exit
  body : ∀ b, touched ≠ some b → g'.body b = g.body b
  handlers : ∀ b, touched ≠ some b → (g'.block b).handlers = (g.block b).handlers

namespace Edits

variable {touched : Option BlockId} {new new' : List BlockId} {home home' home'' : Homes}
  {g g' g'' : Graph}

theorem refl (touched : Option BlockId) (home : Homes) (g : Graph) :
    Edits touched [] home g home g where
  grows := .refl _ _
  queued _ h := .inl h
  visited _ := rfl
  order := rfl
  exit _ _ := rfl
  body _ _ := rfl
  handlers _ _ := rfl

theorem trans (h : Edits touched new home g home' g') (h' : Edits touched new' home' g' home'' g'') :
    Edits touched (new' ++ new) home g home'' g'' where
  grows := h.grows.trans h'.grows
  queued b hb := by
    rcases h'.queued b hb with hb | hb
    · exact (h.queued b hb).imp id fun hb => List.mem_append_right _ hb
    · exact .inr (List.mem_append_left _ hb)
  visited b := (h'.visited b).trans (h.visited b)
  order := h'.order.trans h.order
  exit b hb := (h'.exit b hb).trans (h.exit b hb)
  body b hb := (h'.body b hb).trans (h.body b hb)
  handlers b hb := (h'.handlers b hb).trans (h.handlers b hb)

theorem mono (h : Edits touched new home g home' g') (hnew : ∀ b ∈ new, b ∈ new') :
    Edits touched new' home g home' g' :=
  { h with queued := fun b hb => (h.queued b hb).imp id (hnew b) }

theorem exit_eq (h : Edits none new home g home' g') (b : BlockId) :
    (g'.block b).exit = (g.block b).exit := h.exit b (by simp)

theorem body_eq (h : Edits none new home g home' g') (b : BlockId) : g'.body b = g.body b :=
  h.body b (by simp)

theorem handlers_eq (h : Edits none new home g home' g') (b : BlockId) :
    (g'.block b).handlers = (g.block b).handlers := h.handlers b (by simp)

/-- What touches no block may be taken to touch any. -/
theorem touch (h : Edits none new home g home' g') : Edits touched new home g home' g' where
  grows := h.grows
  queued := h.queued
  visited := h.visited
  order := h.order
  exit b _ := h.exit_eq b
  body b _ := h.body_eq b
  handlers b _ := h.handlers_eq b

end Edits
end BlockGraph
