import BlockGraph.Graph.Block
import BlockGraph.Method

/-!
# Frames and scopes

A frame is what the local variables and the operand stack hold at some point, each slot named by
the instruction that produced its value. A scope is one activation of a method in the graph: the
method whose graph is built, or a method inlined into another scope.
-/

namespace BlockGraph

/-! ## Frames -/

/-- Index of a scope in its graph. -/
abbrev ScopeId := Nat

/-- The contents of a method's locals and operand stack (`ValueStack`). -/
structure Frame where
  scope : ScopeId
  /-- The index that the frame describes. -/
  bci : Nat
  /-- A local is absent when it is dead or was never written. -/
  locals : List (Option InstrId) := []
  /-- The operand stack, its top last. -/
  stack : List InstrId := []
deriving DecidableEq, Repr

namespace Frame

/-- An empty stack and dead locals (`ValueStack::new`). -/
def blank (scope : ScopeId) (bci maxLocals : Nat) : Frame :=
  { scope := scope, bci := bci, locals := List.replicate maxLocals none }

/-- Puts a value on the stack (`ValueStack::push`). -/
def push (f : Frame) (value : InstrId) : Frame := { f with stack := f.stack ++ [value] }

/-- The top of the stack and what lies below it (`ValueStack::pop`). -/
def pop (f : Frame) : Option InstrId × Frame :=
  (f.stack.getLast?, { f with stack := f.stack.dropLast })

/-- What a local holds; a local past the last one is dead (`ValueStack::load_local`). -/
def load (f : Frame) (slot : Nat) : Option InstrId := f.locals[slot]?.join

/-- Writes a local (`ValueStack::store_local`). Locals up to it that did not exist before are dead. -/
def store (f : Frame) (slot : Nat) (value : InstrId) : Frame :=
  let padded := f.locals ++ List.replicate (slot + 1 - f.locals.length) none
  { f with locals := padded.set slot (some value) }

theorem pop_push (f : Frame) (value : InstrId) : (f.push value).pop = (some value, f) := by
  simp [push, pop]

theorem load_store (f : Frame) (slot other : Nat) (value : InstrId) :
    (f.store slot value).load other = if other = slot then some value else f.load other := by
  unfold load store
  rw [List.getElem?_set]
  by_cases h : other = slot
  · subst h
    simp [show other < f.locals.length + (other + 1 - f.locals.length) by omega]
  · rw [if_neg (Ne.symm h), if_neg h]
    rcases Nat.lt_or_ge other f.locals.length with hl | hl
    · rw [List.getElem?_append_left hl]
    · rw [List.getElem?_append_right hl, List.getElem?_replicate, List.getElem?_eq_none hl]
      split <;> rfl

end Frame

/-! ## Scopes -/

/-- An activation of a method (`IrScope`). -/
structure Scope where
  method : Method
  /-- The scope into which this one is inlined. -/
  caller : Option ScopeId := none
  /-- The caller's frame at the inlined call. -/
  callerFrame : Option Frame := none
  /-- Depth of inlining. -/
  level : Nat := 0
  /-- The handlers declared so far, in order. -/
  handlers : List Handler := []
deriving DecidableEq, Repr

namespace Scope

/-- The scope of the method whose graph is built (`IrScope::root`). -/
def root (method : Method) : Scope := { method := method }

/-- The scope of a method inlined into `caller`, one level below it (`IrScope::inlined`). -/
def inlined (method : Method) (caller : ScopeId) (callerLevel : Nat) (frame : Frame) : Scope :=
  { method := method, caller := some caller, callerFrame := some frame, level := callerLevel + 1 }

/-- Declares a handler after those declared before (`IrScope::add_exception_handler`). -/
def declare (s : Scope) (h : Handler) : Scope := { s with handlers := s.handlers ++ [h] }

/-- Has a handler been declared? -/
def declaresHandlers (s : Scope) : Bool := !s.handlers.isEmpty

/-- Height of the caller's stack at the inlined call (`IrScope::caller_stack_size`). -/
def callerStackHeight (s : Scope) : Nat := s.callerFrame.elim 0 (·.stack.length)

def text (s : Scope) : String := s!"{s.method.name}@{s.level}"

end Scope

end BlockGraph
