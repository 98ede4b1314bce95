import BlockGraph.Proofs.Graph.Edits

/-!
# Graphs in the making

`Making` lists what may be done to a graph while it is made: blank blocks are added, a block is queued
once there is a reason for it, the open block gets handlers and instructions and is closed, and the next
block is opened. `Orderly` is what a graph made like this records of itself: which blocks have been
parsed and why, whose predecessors they are, and where the instructions belong. Main statement:
`Making.orderly`.
-/

namespace BlockGraph

/-- What a block has got since it was added, but for being queued. -/
def Block.gained (b : Block) : Block := { b with site := .unlock, number := 0, flags := {}, queued := false }

namespace Graph

/-- Control or an exception may go from block `a` to block `b`. -/
def Edge (g : Graph) (a b : BlockId) : Prop := b ∈ (g.block a).successors ∨ b ∈ (g.block a).handlers

/-- A reason to queue block `d`, while the open block has yet to lead to the blocks `due`. -/
inductive Due (g : Graph) (due : List BlockId) (d : BlockId) : Prop where
  | start : g.start = some d → Due g due d
  | promised : d ∈ due → Due g due d
  | edge {a : BlockId} : g.Edge a d → Due g due d
  | entered : (g.block d).predecessors ≠ [] → Due g due d

/-- A graph in the making, with its open block and the blocks to which that one has yet to lead. -/
inductive Making : Graph → Option BlockId → List BlockId → Prop where
  | blank {g : Graph} : (∀ b, g.block b = (g.block b).blankCopy) → g.instrs = #[] → g.order = #[] →
    Making g none []
  | copy {g : Graph} {current : Option BlockId} {due : List BlockId} (b : BlockId) :
    Making g current due → Making (g.copyBlock b).2 current due
  | promise {g : Graph} {b : BlockId} {due : List BlockId} (d : BlockId) :
    Making g (some b) due → Making g (some b) (d :: due)
  | enqueue {g : Graph} {current : Option BlockId} {due : List BlockId} {d : BlockId} :
    Making g current due → g.Due due d → Making (g.modifyBlock d ({ · with queued := true })) current due
  | link {g : Graph} {b : BlockId} {due : List BlockId} (d : BlockId) :
    Making g (some b) due → Making (g.addHandlerEdge b d) (some b) due
  | append {g : Graph} {b : BlockId} {due : List BlockId} (site : Site) (opcode : Opcode) :
    Making g (some b) due → Making (g.append b site opcode).2 (some b) due
  | close {g : Graph} {b : BlockId} {due : List BlockId} {x : Exit} :
    Making g (some b) due → (∀ d ∈ due, d ∈ x.successors) → Making (g.close b x) none []
  | visit {g : Graph} {b : BlockId} : Making g none [] → (g.block b).queued = true →
    (g.block b).visited = false → Making (g.visit b) (some b) []

/-- What a graph in the making records of itself. -/
structure Orderly (g : Graph) (current : Option BlockId) (due : List BlockId) : Prop where
  mem_order : ∀ b, b ∈ g.order.toList ↔ (g.block b).visited = true
  /-- The open block is the last one, and has not been parsed before. -/
  last : ∀ b, current = some b → (g.block b).exit = none ∧ ∃ pre, g.order.toList = pre ++ [b] ∧ b ∉ pre
  fresh : ∀ b, (g.block b).visited = false →
    (g.block b).exit = none ∧ (g.block b).instrs = #[] ∧ (g.block b).handlers = []
  /-- The instructions belong to the blocks one after the other. -/
  arena : g.order.toList.flatMap (fun b => (g.block b).instrs.toList) = List.range g.instrs.size
  entered : ∀ b, ∀ p ∈ (g.block b).predecessors, b ∈ (g.block p).successors
  /-- A block is queued as the beginning, or because it is led to. -/
  queued : ∀ d, (g.block d).queued = true → g.start = some d ∨ d ∈ due ∨ ∃ a, g.Edge a d
  /-- A block other than the beginning is led to from a block that was parsed before it. -/
  led : ∀ pre b post, g.order.toList = pre ++ b :: post → g.start = some b ∨ ∃ a ∈ pre, g.Edge a b

variable {g g' : Graph} {current : Option BlockId} {due due' : List BlockId} {a b c d : BlockId}

/-- Exits and edges to handlers are only added. -/
theorem Edge.mono (h : g.Edge a b)
    (hexit : ∀ x, (g.block a).exit = some x → (g'.block a).exit = some x)
    (hhandlers : ∀ d ∈ (g.block a).handlers, d ∈ (g'.block a).handlers) : g'.Edge a b := by
  refine h.imp (fun hb => ?_) (hhandlers b)
  unfold Block.successors at hb ⊢
  cases hx : (g.block a).exit with
  | none => rw [hx] at hb; cases hb
  | some x => rw [hexit x hx]; rwa [hx] at hb

namespace Orderly

theorem mem_order_of_edge (h : g.Orderly current due) (hab : g.Edge a b) : a ∈ g.order.toList := by
  rw [h.mem_order]
  refine Bool.not_eq_false _ ▸ fun hv => ?_
  obtain ⟨hexit, -, hhandlers⟩ := h.fresh a hv
  rcases hab with hb | hb
  · rw [Block.successors, hexit] at hb; cases hb
  · rw [hhandlers] at hb; cases hb

/-- A reason to queue a block outlasts the moment. -/
theorem of_due (h : g.Orderly current due) (hd : g.Due due d) :
    g.start = some d ∨ d ∈ due ∨ ∃ a, g.Edge a d := by
  cases hd with
  | start hs => exact .inl hs
  | promised hmem => exact .inr (.inl hmem)
  | @edge a hedge => exact .inr (.inr ⟨a, hedge⟩)
  | entered hne =>
    obtain ⟨p, hp⟩ := List.exists_mem_of_ne_nil _ hne
    exact .inr (.inr ⟨p, .inl (h.entered d p hp)⟩)

/-! ## What each operation keeps -/

theorem of_blank (hblank : ∀ b, g.block b = (g.block b).blankCopy) (hinstrs : g.instrs = #[])
    (horder : g.order = #[]) : g.Orderly none [] := by
  have hproj : ∀ {α : Type} (p : Block → α) b, p (g.block b) = p (g.block b).blankCopy :=
    fun p b => congrArg p (hblank b)
  constructor
  · intro b
    rw [horder, hproj Block.visited]
    simp [Block.blankCopy]
  · nofun
  · intro b _
    exact ⟨hproj Block.exit b, hproj Block.instrs b, hproj Block.handlers b⟩
  · rw [horder, hinstrs]; rfl
  · intro b p hp
    rw [hproj Block.predecessors] at hp; cases hp
  · intro d hd
    rw [hproj Block.queued] at hd; cases hd
  · intro pre b post hsplit
    rw [horder] at hsplit; simp at hsplit

/-- Blocks that are only queued, or new and blank. -/
theorem congr (h : g.Orderly current due) (horder : g'.order = g.order) (hstart : g'.start = g.start)
    (hinstrs : g'.instrs = g.instrs) (hgained : ∀ c, (g'.block c).gained = (g.block c).gained)
    (hqueued : ∀ d, (g'.block d).queued = true → (g.block d).queued = true ∨ g.Due due d) :
    g'.Orderly current due := by
  have hexit : ∀ c, (g'.block c).exit = (g.block c).exit := fun c =>
    (congrArg Block.exit (hgained c) :)
  have hvisited : ∀ c, (g'.block c).visited = (g.block c).visited := fun c =>
    (congrArg Block.visited (hgained c) :)
  have hids : ∀ c, (g'.block c).instrs = (g.block c).instrs := fun c =>
    (congrArg Block.instrs (hgained c) :)
  have hhandlers : ∀ c, (g'.block c).handlers = (g.block c).handlers := fun c =>
    (congrArg Block.handlers (hgained c) :)
  have hpreds : ∀ c, (g'.block c).predecessors = (g.block c).predecessors := fun c =>
    (congrArg Block.predecessors (hgained c) :)
  have hedge : ∀ {a b}, g.Edge a b → g'.Edge a b := fun hab =>
    hab.mono (fun x hx => (hexit _).trans hx) fun d hd => hhandlers _ ▸ hd
  constructor
  · intro b; rw [horder, hvisited]; exact h.mem_order b
  · intro b hb; rw [horder, hexit]; exact h.last b hb
  · intro b hb
    rw [hexit, hids, hhandlers]
    exact h.fresh b ((hvisited b).symm.trans hb)
  · rw [horder, hinstrs]
    simpa only [hids] using h.arena
  · intro b p hp
    rw [hpreds] at hp
    unfold Block.successors
    rw [hexit]
    exact h.entered b p hp
  · intro d hd
    rw [hstart]
    have hreason : g.start = some d ∨ d ∈ due ∨ ∃ a, g.Edge a d :=
      (hqueued d hd).elim (h.queued d) h.of_due
    exact hreason.imp_right (.imp_right (.imp fun a => hedge))
  · intro pre b post hsplit
    rw [horder] at hsplit
    rw [hstart]
    exact (h.led pre b post hsplit).imp_right (.imp fun a => .imp_right hedge)

theorem copy (h : g.Orderly current due) (b : BlockId) : (g.copyBlock b).2.Orderly current due := by
  have hproj : ∀ {α : Type} (p : Block → α), (∀ y : Block, p y.blankCopy = p default) →
      ∀ c, p ((g.copyBlock b).2.block c) = p (g.block c) := by
    intro α p hp c
    unfold copyBlock
    rw [block_newBlock]
    split
    · rename_i hc; rw [hp, hc, block_of_size_le (Nat.le_refl _)]
    · rfl
  exact h.congr rfl rfl rfl (hproj Block.gained fun _ => rfl) fun d hd =>
    .inl ((hproj Block.queued (fun _ => rfl) d).symm.trans hd)

theorem promise (h : g.Orderly current due) (d : BlockId) : g.Orderly current (d :: due) :=
  { h with queued := fun c hc => (h.queued c hc).imp_right (.imp_left (List.mem_cons_of_mem _)) }

theorem enqueue (h : g.Orderly current due) (hd : g.Due due d) :
    (g.modifyBlock d ({ · with queued := true })).Orderly current due := by
  refine h.congr rfl rfl rfl (fun c => proj_modifyBlock Block.gained fun _ => rfl) fun c hc => ?_
  by_cases hcd : c = d
  · exact .inr (hcd ▸ hd)
  · rw [block_modifyBlock_ne hcd] at hc
    exact .inl hc

/-- What the open block gains: instructions, edges to handlers or an exit. -/
theorem gain (h : g.Orderly (some b) due) (added : List InstrId)
    (horder : g'.order = g.order) (hstart : g'.start = g.start)
    (hother : ∀ c, c ≠ b → (g'.block c).exit = (g.block c).exit ∧
      (g'.block c).instrs = (g.block c).instrs ∧ (g'.block c).handlers = (g.block c).handlers)
    (hvisited : ∀ c, (g'.block c).visited = (g.block c).visited)
    (hqueued : ∀ c, (g'.block c).queued = (g.block c).queued)
    (hids : (g'.block b).instrs.toList = (g.block b).instrs.toList ++ added)
    (harena : List.range g'.instrs.size = List.range g.instrs.size ++ added)
    (hhandlers : ∀ d ∈ (g.block b).handlers, d ∈ (g'.block b).handlers)
    (hentered : ∀ c, ∀ p ∈ (g'.block c).predecessors,
      p ∈ (g.block c).predecessors ∨ c ∈ (g'.block p).successors)
    (hcurrent : current = some b ∧ (g'.block b).exit = none ∨ current = none)
    (hdue : ∀ d ∈ due, d ∈ due' ∨ d ∈ (g'.block b).successors) : g'.Orderly current due' := by
  obtain ⟨hnone, pre, hlast, hnot⟩ := h.last b rfl
  have hexit : ∀ c x, (g.block c).exit = some x → (g'.block c).exit = some x := by
    intro c x hx
    have hcb : c ≠ b := by
      rintro rfl
      rw [hnone] at hx; cases hx
    rw [(hother c hcb).1]
    exact hx
  have hall : ∀ c, ∀ d ∈ (g.block c).handlers, d ∈ (g'.block c).handlers := by
    intro c d hd
    by_cases hcb : c = b
    · rw [hcb] at hd ⊢; exact hhandlers d hd
    · rw [(hother c hcb).2.2]; exact hd
  have hedge : ∀ {a b}, g.Edge a b → g'.Edge a b := fun hab => hab.mono (hexit _) (hall _)
  have hvb : (g.block b).visited = true := (h.mem_order b).1 (by rw [hlast]; simp)
  constructor
  · intro c; rw [horder, hvisited]; exact h.mem_order c
  · intro c hc
    rcases hcurrent with ⟨hcurrent, hopen⟩ | hcurrent <;> rw [hcurrent] at hc <;> cases hc
    exact ⟨hopen, pre, horder ▸ hlast, hnot⟩
  · intro c hc
    rw [hvisited] at hc
    have hcb : c ≠ b := by
      rintro rfl
      rw [hvb] at hc; cases hc
    obtain ⟨hx, hi, hh⟩ := hother c hcb
    rw [hx, hi, hh]
    exact h.fresh c hc
  · have hpre : pre.flatMap (fun c => (g'.block c).instrs.toList) =
        pre.flatMap fun c => (g.block c).instrs.toList := by
      rw [List.flatMap_def, List.flatMap_def]
      refine congrArg List.flatten (List.map_congr_left fun c hc => ?_)
      rw [(hother c fun he => hnot (he ▸ hc)).2.1]
    have harena' := h.arena
    rw [hlast, List.flatMap_append, List.flatMap_singleton] at harena'
    rw [horder, hlast, List.flatMap_append, List.flatMap_singleton, hids, hpre, harena, ← harena',
      List.append_assoc]
  · intro c p hp
    rcases hentered c p hp with hp | hp
    · have hc := h.entered c p hp
      unfold Block.successors at hc ⊢
      cases hx : (g.block p).exit with
      | none => rw [hx] at hc; cases hc
      | some x => rw [hexit p x hx]; rwa [hx] at hc
    · exact hp
  · intro d hd
    rw [hqueued] at hd
    rw [hstart]
    rcases h.queued d hd with hs | hmem | ⟨a, ha⟩
    · exact .inl hs
    · exact .inr ((hdue d hmem).imp_right fun hb => ⟨b, .inl hb⟩)
    · exact .inr (.inr ⟨a, hedge ha⟩)
  · intro pre c post hsplit
    rw [horder] at hsplit
    rw [hstart]
    exact (h.led pre c post hsplit).imp_right (.imp fun a => .imp_right hedge)

theorem lt (h : g.Orderly (some b) due) : b < g.blocks.size := by
  obtain ⟨-, pre, hlast, -⟩ := h.last b rfl
  exact lt_of_visited ((h.mem_order b).1 (by rw [hlast]; simp))

theorem link (h : g.Orderly (some b) due) (d : BlockId) :
    (g.addHandlerEdge b d).Orderly (some b) due := by
  have hproj : ∀ {α : Type} (p : Block → α) (_ : ∀ (y : Block) hs, p { y with handlers := hs } = p y) c,
      p ((g.addHandlerEdge b d).block c) = p (g.block c) := by
    intro α p hp c
    rw [block_addHandlerEdge]
    split
    · rename_i hc; rw [hp, hc.1]
    · rfl
  refine h.gain [] rfl rfl (fun c hc => ?_) (hproj Block.visited fun _ _ => rfl)
    (hproj Block.queued fun _ _ => rfl) ?_ ?_ (fun e he => ?_) (fun c p hp => .inl ?_)
    (.inl ⟨rfl, (hproj Block.exit (fun _ _ => rfl) b).trans (h.last b rfl).1⟩) fun _ => .inl
  · rw [block_addHandlerEdge, if_neg fun h => hc h.1]
    exact ⟨rfl, rfl, rfl⟩
  · rw [hproj Block.instrs fun _ _ => rfl, List.append_nil]
  · rw [List.append_nil]; rfl
  · exact (mem_handlers_addHandlerEdge h.lt).2 (.inl he)
  · rwa [hproj Block.predecessors fun _ _ => rfl] at hp

theorem append (h : g.Orderly (some b) due) (site : Site) (opcode : Opcode) :
    (g.append b site opcode).2.Orderly (some b) due := by
  have hproj : ∀ {α : Type} (p : Block → α) (_ : ∀ (y : Block) ids, p { y with instrs := ids } = p y) c,
      p ((g.append b site opcode).2.block c) = p (g.block c) := by
    intro α p hp c
    rw [block_append]
    split
    · rename_i hc; rw [hp, hc.1]
    · rfl
  refine h.gain [g.instrs.size] rfl rfl (fun c hc => ?_) (hproj Block.visited fun _ _ => rfl)
    (hproj Block.queued fun _ _ => rfl) ?_ ?_ (fun e he => ?_) (fun c p hp => .inl ?_)
    (.inl ⟨rfl, (hproj Block.exit (fun _ _ => rfl) b).trans (h.last b rfl).1⟩) fun _ => .inl
  · rw [block_append, if_neg fun h => hc h.1]
    exact ⟨rfl, rfl, rfl⟩
  · rw [block_append, if_pos ⟨rfl, h.lt⟩]
    exact Array.toList_push
  · show List.range (g.instrs.push _).size = _
    rw [Array.size_push, List.range_succ]
  · rwa [hproj Block.handlers fun _ _ => rfl]
  · rwa [hproj Block.predecessors fun _ _ => rfl] at hp

theorem close {x : Exit} (h : g.Orderly (some b) due) (hx : ∀ d ∈ due, d ∈ x.successors) :
    (g.close b x).Orderly none [] := by
  have hself : ((g.close b x).block b).successors = x.successors := by
    unfold Block.successors
    rw [exit_close_self h.lt]; rfl
  refine h.gain [] (by rw [close_eq]) (by rw [close_eq]) (fun c hc => ⟨exit_close_ne hc, ?_⟩)
    (fun c => by rw [block_close]) (fun c => by rw [block_close]) ?_ ?_ (fun e he => ?_)
    (fun c p hp => ?_) (.inr rfl) fun d hd => .inr (hself ▸ hx d hd)
  · rw [block_close]
    exact ⟨rfl, rfl⟩
  · rw [block_close, List.append_nil]
  · rw [close_eq, List.append_nil]
  · rw [block_close]; exact he
  · refine (mem_predecessors_close.1 hp).imp_right ?_
    rintro ⟨rfl, hc, -⟩
    rw [hself]; exact hc

theorem visit (h : g.Orderly none []) (hq : (g.block b).queued = true)
    (hv : (g.block b).visited = false) : (g.visit b).Orderly (some b) [] := by
  have horder : (g.visit b).order.toList = g.order.toList ++ [b] := Array.toList_push
  have hvisited := visited_visit (lt_of_queued hq)
  have hexit : ∀ c, ((g.visit b).block c).exit = (g.block c).exit := proj_visit Block.exit fun _ => rfl
  have hids : ∀ c, ((g.visit b).block c).instrs = (g.block c).instrs := proj_visit Block.instrs fun _ => rfl
  have hhandlers : ∀ c, ((g.visit b).block c).handlers = (g.block c).handlers :=
    proj_visit Block.handlers fun _ => rfl
  have hnot : b ∉ g.order.toList := fun hmem => by
    rw [h.mem_order, hv] at hmem; cases hmem
  obtain ⟨hnone, hempty, -⟩ := h.fresh b hv
  have hedge : ∀ {a d}, g.Edge a d → (g.visit b).Edge a d := fun had =>
    had.mono (fun x hx => (hexit _).trans hx) fun d hd => hhandlers _ ▸ hd
  constructor
  · intro c
    rw [horder, List.mem_append, List.mem_singleton, hvisited, h.mem_order]
  · intro c hc
    cases hc
    exact ⟨(hexit b).trans hnone, g.order.toList, horder, hnot⟩
  · intro c hc
    rw [hexit, hids, hhandlers]
    refine h.fresh c (Bool.eq_false_iff.2 fun hc' => ?_)
    rw [(hvisited c).2 (.inl hc')] at hc; cases hc
  · show _ = List.range g.instrs.size
    rw [horder, List.flatMap_append, List.flatMap_singleton, hids, hempty, ← h.arena]
    simp only [hids, List.append_nil]
  · intro c p hp
    rw [proj_visit Block.predecessors fun _ => rfl] at hp
    unfold Block.successors
    rw [hexit]
    exact h.entered c p hp
  · intro d hd
    rw [proj_visit Block.queued fun _ => rfl] at hd
    exact (h.queued d hd).imp_right (.imp_right (.imp fun a => hedge))
  · intro pre c post hsplit
    rw [horder] at hsplit
    rcases List.eq_nil_or_concat post with rfl | ⟨post', last, rfl⟩
    · -- the new block is led to as it was when it was queued
      obtain ⟨rfl, hbc⟩ := List.append_inj' hsplit rfl
      cases hbc
      refine (h.queued b hq).imp_right fun hreason => ?_
      obtain ⟨a, ha⟩ := hreason.resolve_left List.not_mem_nil
      exact ⟨a, h.mem_order_of_edge ha, hedge ha⟩
    · have hsplit' : pre ++ c :: post'.concat last = (pre ++ c :: post') ++ [last] := by simp
      rw [hsplit'] at hsplit
      obtain ⟨hold, -⟩ := List.append_inj' hsplit rfl
      exact (h.led pre c post' hold).imp_right (.imp fun a => .imp_right hedge)

end Orderly

/-- A graph in the making is orderly. -/
theorem Making.orderly (h : g.Making current due) : g.Orderly current due := by
  induction h with
  | blank hblank hinstrs horder => exact .of_blank hblank hinstrs horder
  | copy b _ ih => exact ih.copy b
  | promise d _ ih => exact ih.promise d
  | enqueue _ hd ih => exact ih.enqueue hd
  | link d _ ih => exact ih.link d
  | append site opcode _ ih => exact ih.append site opcode
  | close _ hx ih => exact ih.close hx
  | visit _ hq hv ih => exact ih.visit hq hv

end Graph
end BlockGraph
