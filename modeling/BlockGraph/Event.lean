import BlockGraph.Graph.Scope

/-!
# Events

While a graph is built, a transcript tells what happens. An event is one entry of it; `Event.text`
is its wording.
-/

namespace BlockGraph

/-- What a context is called in the transcript. -/
structure ContextLabel where
  /-- Where the subroutine starts that is parsed, if one is. -/
  entry : Option Nat
  scope : ScopeId
deriving DecidableEq, Repr

namespace ContextLabel

def text : ContextLabel → String
  | ⟨none, scope⟩ => s!"data for s{scope}"
  | ⟨some entry, scope⟩ => s!"jsr@{entry} data for s{scope}"

end ContextLabel

/-- An entry of the transcript. -/
inductive Event where
  | building (method : String) (bytes handlers : Nat)
  /-- A block start was laid out that control cannot reach. -/
  | unreachable (bci : Nat)
  | laidOut (blocks bytes : Nat)
  | handler (catches : String) (first limit : Nat) (entry : BlockId)
  | unlockHandler (entry : BlockId)
  | pushed (context : ContextLabel)
  | popped (context : ContextLabel)
  | scheduling (block : BlockId) (number : Nat) (context : ContextLabel)
  | parsing (block : BlockId) (bci : Nat) (context : ContextLabel)
  /-- A subroutine got its own copy of a block. -/
  | duplicated (original copy : BlockId) (entry : Nat)
  | givingUp (method : String) (limit : Nat)
  /-- A subroutine would store its return address where an enclosing one keeps its own. -/
  | overwritesEnclosing (context : ContextLabel) (slot : Nat)
  | addressStored (context : ContextLabel) (slot : Nat)
  | addressLost (context : ContextLabel) (bci : Nat)
  | recursiveEntry (bci : Nat)
  /-- A `ret` reads a local that is not the one where the return address is kept. -/
  | wrongLocal (slot : Nat) (context : ContextLabel) (stored : Option Nat)
  | finished (blocks returns : Nat) (method : String)
deriving DecidableEq, Repr

namespace Event

/-- How important an entry of the transcript is. -/
inductive Level where
  | debug
  | trace
deriving DecidableEq, Repr

def Level.text : Level → String
  | .debug => "DEBUG"
  | .trace => "TRACE"

def level : Event → Level
  | .building .. | .laidOut .. | .pushed _ | .popped _ | .givingUp .. | .overwritesEnclosing ..
  | .recursiveEntry _ | .wrongLocal .. | .finished .. => .debug
  | .unreachable _ | .handler .. | .unlockHandler _ | .scheduling .. | .parsing ..
  | .duplicated .. | .addressStored .. | .addressLost .. => .trace

/-- A number that may be absent. -/
def optionText : Option Nat → String
  | none => "None"
  | some n => s!"Some({n})"

def text : Event → String
  | .building method bytes handlers =>
    s!"building graph for {method} ({bytes} bytes of code, {handlers} handlers)"
  | .unreachable bci => s!"block at bci {bci} is unreachable"
  | .laidOut blocks bytes => s!"found {blocks} blocks in {bytes} bytes of code"
  | .handler catches first limit entry =>
    s!"handler for {catches} covering [{first}, {limit}) at B{entry}"
  | .unlockHandler entry => s!"default exception handler at B{entry}"
  | .pushed context => "pushed " ++ context.text
  | .popped context => "popped " ++ context.text
  | .scheduling block number context =>
    s!"scheduling B{block} (dfn {number}) in " ++ context.text
  | .parsing block bci context => s!"parsing B{block} at bci {bci} in " ++ context.text
  | .duplicated original copy entry => s!"duplicated B{original} as B{copy} for jsr@{entry}"
  | .givingUp method limit => s!"giving up on {method} after {limit} blocks"
  | .overwritesEnclosing context slot =>
    context.text ++ s!" overwrites return address in local {slot}"
  | .addressStored context slot =>
    "return address of " ++ context.text ++ s!" stored in local {slot}"
  | .addressLost context bci =>
    "return address of " ++ context.text ++ s!" overwritten at bci {bci}"
  | .recursiveEntry bci => s!"bailing out on recursive jsr to bci {bci}"
  | .wrongLocal slot context stored =>
    s!"ret {slot} in " ++ context.text ++ " does not use the stored return address (" ++
      optionText stored ++ ")"
  | .finished blocks returns method => s!"parsed {blocks} blocks ({returns} returns) for {method}"

/-- The event on a line of its own. -/
def line (e : Event) : String := e.level.text ++ " " ++ e.text

end Event
end BlockGraph
