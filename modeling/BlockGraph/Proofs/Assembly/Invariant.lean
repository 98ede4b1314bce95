import BlockGraph.Proofs.Assembly.Settled

/-!
# The invariant of the assembly

`Inv` holds before and after each step. An assembly that satisfies it refers to its arrays only
(`Inv.within`). `Holds` describes the open block, `Guarded` and `Emitted` the moments when it has
the handlers of the instruction under the cursor, and the instruction itself.
-/

namespace BlockGraph

open Assembly

/-! ## In range -/

/-- Every index that a context holds is one of the graph. -/
structure Context.Within (g : Graph) (c : Context) : Prop where
  scope : c.scope < g.scopes.size
  table : ∀ bci b, c.table.get bci = some b → b < g.blocks.size
  copies : ∀ sub, c.subroutine = some sub → ∀ bci b, sub.copies.get bci = some b → b < g.blocks.size
  handlers : ∀ sub hs, c.subroutine = some sub → sub.handlers = some hs →
    ∀ x ∈ hs, ∀ d, x.entry = some d → d < g.blocks.size
  agenda : ∀ e ∈ c.agenda.entries, e.1 < g.blocks.size
  resume : ∀ b, c.resume = some b → b < g.blocks.size
  continuation : ∀ b, c.continuation = some b → b < g.blocks.size

/-- Every index that an assembly holds is one of its graph. -/
structure Assembly.Within (s : Assembly) : Prop where
  graph : s.graph.InRange
  contexts : ∀ c ∈ s.chain, c.Within s.graph
  current : ∀ b, s.current = some b → b < s.graph.blocks.size

variable {st : Setting} {home home' : Homes} {path path' : List BlockId} {s t : Assembly}
  {b : BlockId}

theorem Base.within (h : Base st home path s) : s.Within where
  graph := h.range
  contexts c hc := by
    obtain ⟨call, hfits⟩ := h.contexts.mem c hc
    obtain ⟨call', hagenda⟩ := h.queue.agendas.mem c hc
    constructor
    · rw [hfits.scope, h.laid.scopes]; exact Nat.zero_lt_one
    · intro bci b hb
      rw [hfits.table] at hb
      exact (h.laid.get_iff.1 hb).lt
    · intro sub hsub bci b hb
      cases call with
      | none => rw [hfits.root rfl] at hsub; cases hsub
      | some j =>
        obtain ⟨sub', hsub', -, hget⟩ := hfits.copies j rfl
        rw [hsub] at hsub'; cases hsub'
        exact ((hget bci b).1 hb).lt
    · exact hfits.handlers
    · intro e he
      exact Graph.lt_of_queued (hagenda.fits e.1 (List.mem_map_of_mem he)).2.1
    · intro b hb
      obtain ⟨j, -, -, hlt, -⟩ := hfits.resume b hb
      exact hlt
    · intro b hb
      rw [hfits.continuation] at hb; cases hb
  current b hb := Graph.lt_of_visited (h.queue.current b hb).1

/-! ## Refusals -/

/-- The faults with which a surveyed method may be refused. -/
inductive Setting.Refuses (st : Setting) : Fault → Prop where
  | bailout (why : Bailout) : st.Refuses (.bailout why)
  | badEntry {i : Insn} : i ∈ st.survey.insns → i.flow = .jsr → 0 ∈ i.targets →
    st.Refuses (.badEntry 0)

/-- How a step may fail. -/
def Setting.Ends (st : Setting) (fault : Fault) (t : Assembly) : Prop := st.Refuses fault ∧ t.Within

/-! ## The invariant -/

/-- Outside of subroutines there is no return address. While a subroutine keeps its own in a local, its
first instruction has put it there, so that something of its copy has been parsed, and no other instruction
of it writes that local. One that has begun by storing it in a local keeps it there until such an
instruction is parsed. -/
structure AddressKept (st : Setting) (home : Homes) (g : Graph) (call : Option BlockId)
    (c : Context) : Prop where
  root : call = none → c.returnLocal = none
  kept : ∀ j sub n, call = some j → c.subroutine = some sub → c.returnLocal = some n →
    Saves st.method.code sub.entry n ∧ (∃ b, home b = some j ∧ g.body b ≠ []) ∧
      ∀ b, home b = some j → KeepsLocal st g sub.entry n b
  lost : ∀ j sub n, call = some j → c.subroutine = some sub → Saves st.method.code sub.entry n →
    c.returnLocal = some n ∨ (∀ b, home b = some j → g.body b = []) ∨
      ∃ b, home b = some j ∧ ¬ KeepsLocal st g sub.entry n b

/-- The open block `b` starts at `bci`. It holds the instructions `l` and has the handlers of `m`, in a
stretch up to the instruction `i` under the cursor. -/
structure Holds (st : Setting) (home : Homes) (path : List BlockId) (s : Assembly) (b : BlockId)
    (bci : Nat) (before : List Insn) (i : Insn) (l m : List Insn) : Prop where
  current : s.current = some b
  lies : s.graph.LiesAt home path.head? bci b
  stretch : st.survey.Stretch bci before i
  body : s.graph.body b = l.map (Insn.inBlock b)
  caught : Caught st home s.graph b m
  cursor : ∀ c ∈ s.chain.head?, c.cursor = i.cursor st.method.code
  last : ∃ pre, s.graph.order.toList = pre ++ [b]

/-- What holds while a block is open and also while none is. -/
structure Core (st : Setting) (home : Homes) (path : List BlockId) (s : Assembly) : Prop where
  base : Base st home path s
  facts : Facts st home path s.graph
  calls : Nest (CallFits st home s.graph) s.chain path
  addresses : Nest (AddressKept st home s.graph) s.chain path
  started : ∀ j ∈ path, ∀ e r, (s.graph.block j).exit = some (.jsr e r) →
    (s.graph.block e).visited = true ∨
      path.head? = some j ∧ s.current = none ∧
        ∀ c ∈ s.chain.head?, c.agenda.entries.map Prod.fst = [e]

/-- The invariant of the assembly. -/
structure Inv (st : Setting) (home : Homes) (path : List BlockId) (s : Assembly) : Prop
    extends Core st home path s where
  opened : ∀ b, s.current = some b → ∃ bci before i, Holds st home path s b bci before i before before

/-- The open block has the handlers of the instruction under the cursor. -/
structure Guarded (st : Setting) (home : Homes) (path : List BlockId) (s : Assembly) (b : BlockId)
    (bci : Nat) (before : List Insn) (i : Insn) : Prop extends Core st home path s where
  holds : Holds st home path s b bci before i before (before ++ [i])
  unlock : ∀ x ∈ st.handlers, x.target = .unlock → ∀ d, x.entry = some d →
    (s.graph.block d).queued = true

/-- The instruction under the cursor has been put into the open block as well. -/
structure Emitted (st : Setting) (home : Homes) (path : List BlockId) (s : Assembly) (b : BlockId)
    (bci : Nat) (before : List Insn) (i : Insn) : Prop extends Core st home path s where
  holds : Holds st home path s b bci before i (before ++ [i]) (before ++ [i])
  unlock : ∀ x ∈ st.handlers, x.target = .unlock → ∀ d, x.entry = some d →
    (s.graph.block d).queued = true

end BlockGraph
