import BlockGraph.Proofs.Copies
import BlockGraph.Proofs.Faults
import BlockGraph.Proofs.ReturnAddress
import BlockGraph.Proofs.Walks
import BlockGraph.Proofs.Graph.Making
import BlockGraph.Proofs.Assembly.Making
import BlockGraph.Proofs.Layout.Segments
import BlockGraph.Proofs.Splitting
import BlockGraph.Proofs.Traversal
import BlockGraph.Proofs.Loops
import BlockGraph.Proofs.Nesting
import BlockGraph.Proofs.DepthFirst
import BlockGraph.Proofs.Acceptance
import BlockGraph.Proofs.Termination
import BlockGraph.Proofs.Predecessors
import BlockGraph.Proofs.Catching
import BlockGraph.Proofs.Limits
import BlockGraph.Proofs.Synchronized
import BlockGraph.Proofs.Tickets
import BlockGraph.Proofs.ScheduledOnce
import BlockGraph.Proofs.PrivateBlocks
import BlockGraph.Proofs.ParsingOrder
import BlockGraph.Proofs.Bytecode.Encoding
import BlockGraph.Proofs.Bytecode.Roundtrip
import BlockGraph.Proofs.Bytecode.WholeCode
import BlockGraph.Proofs.Enclosing
import BlockGraph.Proofs.Assembly.Lasting
import BlockGraph.Proofs.Transcript.Brackets
import BlockGraph.Proofs.Transcript.Agreement
import BlockGraph.Proofs.Transcript.Faithful
import BlockGraph.Proofs.Histories
import BlockGraph.Proofs.Returning
import BlockGraph.Proofs.Bytecode.Reads
import BlockGraph.Proofs.HexInput
import BlockGraph.Proofs.HandlerCopies
import BlockGraph.Proofs.Guards
import BlockGraph.Proofs.TakingBack
import BlockGraph.Proofs.HandlerGrammar
