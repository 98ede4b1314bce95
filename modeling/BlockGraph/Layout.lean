import BlockGraph.Event
import BlockGraph.Graph.Basic
import BlockGraph.Graph.Table
import BlockGraph.Layout.Numbering
import BlockGraph.Layout.Survey

/-!
# Layouts

Before a method is parsed its blocks are laid out: where each starts, what kind of entry it is,
and when a depth-first search from the beginning and then from each handler meets it. Blocks that
the search does not meet are numbered last.
-/

namespace BlockGraph

/-- The start of a block. -/
structure Start where
  bci : Nat
  number : Nat
  flags : BlockFlags
  /-- Did the search meet the block? -/
  reached : Bool
deriving DecidableEq, Repr

namespace Start

/-- The starts at some indices (the last loop of `BlockMap::build`). One that was not met gets the next
number from `free` on. -/
def ofNumbering (flagsAt : Nat → BlockFlags) (numbering : Numbering) :
    Nat → List Nat → List Start
  | _, [] => []
  | free, bci :: rest =>
    match numbering.get bci with
    | some number =>
      { bci := bci, number := number, flags := flagsAt bci, reached := true } ::
        ofNumbering flagsAt numbering free rest
    | none =>
      { bci := bci, number := free, flags := flagsAt bci, reached := false } ::
        ofNumbering flagsAt numbering (free + 1) rest

/-- The empty block at a start. -/
def block (s : Start) : Block := { site := .code s.bci, number := s.number, flags := s.flags }

end Start

/-- The block starts of a surveyed method, by increasing index. -/
def Survey.layout (s : Survey) : List Start :=
  let numbering := Numbering.ofGraph s.size s.edges (0 :: s.handlerEntries)
  Start.ofNumbering s.entryMarks.flagsAt numbering numbering.count s.starts

/-- The block starts of a method, by increasing index (`BlockMap::build`, but for the arena). -/
def layout (code : Array UInt8) (handlers : List Handler) : Except Fault (List Start) :=
  (Survey.ofMethod code handlers).map Survey.layout

/-- What the transcript tells about a layout for code of a given size. -/
def Start.events (starts : List Start) (size : Nat) : List Event :=
  (starts.filter (!·.reached)).map (.unreachable ·.bci) ++ [.laidOut starts.length size]

/-- Adds the block of each start to a graph, and enters it in a table (the last loop of `BlockMap::build`). -/
def Graph.place (g : Graph) (t : BlockTable) : List Start → Graph × BlockTable
  | [] => (g, t)
  | s :: rest =>
    let (b, g) := g.newBlock s.block
    g.place (t.set s.bci b) rest

end BlockGraph
