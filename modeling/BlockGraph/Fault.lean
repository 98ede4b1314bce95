import BlockGraph.Text

/-!
# Faults

Why a method has no block graph, or why an operation was refused: one constructor per cause, with
`Fault.message` for the wording and `Fault.diagnostic` for the line that a command prints.
-/

namespace BlockGraph

open Text

/-- Why a file could not be read. -/
inductive ReadFailure where
  /-- The system refused, with its error number, the name and the text of that error. -/
  | system (code : Nat) (name text : String)
  /-- Any other reason, in words. -/
  | described (text : String)
deriving DecidableEq, Repr

namespace ReadFailure

def notFound : ReadFailure := .system 2 "NotFound" "No such file or directory"
def permissionDenied : ReadFailure := .system 13 "PermissionDenied" "Permission denied"
def notADirectory : ReadFailure := .system 20 "NotADirectory" "Not a directory"
def isADirectory : ReadFailure := .system 21 "IsADirectory" "Is a directory"
def nameTooLong : ReadFailure := .system 36 "InvalidFilename" "File name too long"

def message : ReadFailure → String
  | .system code _ text => s!"{text} (os error {code})"
  | .described text => text

def diagnostic : ReadFailure → String
  | .system code name text =>
    s!"Os \x7b code: {code}, kind: {name}, message: " ++ quote text ++ " \x7d"
  | .described text => "Custom \x7b kind: Other, error: " ++ quote text ++ " \x7d"

end ReadFailure

/-- What is wrong with code that cannot be cut into instructions and blocks. -/
inductive Malformation where
  /-- No instruction starts at this index. -/
  | pastEnd
  /-- The code ends after a `wide`. -/
  | truncatedWide
  /-- The code ends inside an instruction. -/
  | truncated
  /-- This opcode cannot follow a `wide`. -/
  | notWidened (opcode : UInt8)
  /-- No instruction has this opcode. -/
  | illegalOpcode (opcode : UInt8)
  /-- The bounds of a `tableswitch` are in the wrong order. -/
  | emptyTable
  /-- A `lookupswitch` has a negative number of pairs. -/
  | negativePairs
  /-- An operand reaches past the end of the code. -/
  | operandPastEnd
  /-- A branch leads out of the code. -/
  | targetOutside (target : Int)
  /-- This opcode is not a switch. -/
  | notASwitch (opcode : UInt8)
  /-- There is no code at all. -/
  | noCode
  /-- Control can run past the last instruction. -/
  | fallsOff
  /-- A branch leads to the middle of an instruction. -/
  | targetInside
  /-- A handler's range or entry does not fit the code. -/
  | badHandler
  /-- Any other reason, in words. -/
  | described (text : String)
deriving DecidableEq, Repr

def Malformation.message : Malformation → String
  | .pastEnd => "instruction index past end of code"
  | .truncatedWide => "truncated wide instruction"
  | .truncated => "truncated instruction"
  | .notWidened opcode => "wide cannot modify opcode 0x" ++ hexByte opcode
  | .illegalOpcode opcode => "illegal opcode 0x" ++ hexByte opcode
  | .emptyTable => "tableswitch high < low"
  | .negativePairs => "negative lookupswitch size"
  | .operandPastEnd => "operand past end of code"
  | .targetOutside target => s!"branch target {target} outside of code"
  | .notASwitch opcode => "opcode 0x" ++ hexByte opcode ++ " is not a switch"
  | .noCode => "method has no code"
  | .fallsOff => "execution falls off the end of the code"
  | .targetInside => "branch into the middle of an instruction"
  | .badHandler => "invalid exception table entry"
  | .described text => text

/-- A shape of method that is left to be run some other way. -/
inductive Bailout where
  /-- The method has more blocks than the limit allows. -/
  | tooManyBlocks (limit : Nat)
  /-- A subroutine calls itself, directly or through others. -/
  | recursiveSubroutine
  /-- A subroutine keeps its return address where an enclosing one keeps its own. -/
  | addressOverwritten
  /-- A `ret` stands outside of any subroutine. -/
  | strayRet
  /-- A `ret` does not use the return address that the subroutine stored. -/
  | unknownAddress
  /-- Any other reason, in words. -/
  | described (text : String)
deriving DecidableEq, Repr

def Bailout.message : Bailout → String
  | .tooManyBlocks limit => s!"too many blocks (limit is {limit})"
  | .recursiveSubroutine => "too-complicated jsr/ret structure"
  | .addressOverwritten => "subroutine overwrites return address from previous subroutine"
  | .strayRet => "ret encountered while not parsing subroutine"
  | .unknownAddress => "can not handle complicated jsr/ret constructs"
  | .described text => text

/-- An argument that cannot be read. -/
inductive BadArgument where
  /-- The text does not describe a handler. -/
  | handler (text : String)
  /-- The input is not hexadecimal text. -/
  | hexInput (fault : HexFault)
  /-- No file is named. -/
  | noInput
  /-- Any other reason, in words. -/
  | described (text : String)
deriving DecidableEq, Repr

def BadArgument.message : BadArgument → String
  | .handler text => s!"bad handler '{text}'"
  | .hexInput fault => "bad hex input: " ++ fault.message
  | .noInput => "missing input file"
  | .described text => text

/-- Why an operation failed (`Error`). -/
inductive Fault where
  | unreadable (cause : ReadFailure)
  /-- The code is wrong at an index. -/
  | malformed (bci : Nat) (what : Malformation)
  | badArgument (what : BadArgument)
  /-- The method may be valid, but its graph is not built. -/
  | bailout (why : Bailout)
  /-- A subroutine cannot begin at this index. -/
  | badEntry (bci : Nat)
  /-- The operation needs a subroutine to be parsed. -/
  | outsideSubroutine
  /-- The operation is refused while a subroutine is parsed. -/
  | insideSubroutine
  /-- The handler without code has no block that unlocks. -/
  | noUnlockBlock
  /-- There is no context to parse in. -/
  | noContext
  /-- No block starts at this index. -/
  | noBlock (bci : Nat)
deriving DecidableEq, Repr

namespace Fault

/-- Should the caller fall back on another way to run the method (`Error::is_bailout`)? -/
def mayFallBack : Fault → Bool
  | .bailout _ => true
  | _ => false

/-- The cause in words. -/
def message : Fault → String
  | .unreadable cause => "I/O error: " ++ cause.message
  | .malformed bci what => s!"malformed bytecode at bci {bci}: " ++ what.message
  | .badArgument what => "invalid argument: " ++ what.message
  | .bailout why => "bailout: " ++ why.message
  | .badEntry bci => s!"jsr cannot possibly jump to bci {bci}"
  | .outsideSubroutine => "not parsing a subroutine"
  | .insideSubroutine => "unexpectedly parsing a subroutine"
  | .noUnlockBlock => "synchronization handler has no default exception handler block"
  | .noContext => "no active scope"
  | .noBlock bci => s!"no block starts at bci {bci}"

/-- The name under which a kind of fault is reported. -/
def kind : Fault → String
  | .unreadable _ => "IoError"
  | .malformed _ _ => "MalformedBytecode"
  | .badArgument _ => "InvalidArgument"
  | .bailout _ => "Bailout"
  | .badEntry _ => "InvalidJsrEntry"
  | .outsideSubroutine => "NotParsingJsr"
  | .insideSubroutine => "ParsingJsr"
  | .noUnlockBlock => "MissingDefaultHandlerBlock"
  | .noContext => "NoActiveScope"
  | .noBlock _ => "MissingBlock"

/-- What a fault carries, behind the name of its kind. -/
def details : Fault → String
  | .unreadable cause => "(" ++ cause.diagnostic ++ ")"
  | .malformed bci what =>
    s!" \x7b bci: {bci}, reason: " ++ quote what.message ++ " \x7d"
  | .badArgument what => "(" ++ quote what.message ++ ")"
  | .bailout why => "(" ++ quote why.message ++ ")"
  | .badEntry bci | .noBlock bci => s!"({bci})"
  | .outsideSubroutine | .insideSubroutine | .noUnlockBlock | .noContext => ""

/-- The fault on one line, texts quoted. -/
def diagnostic (fault : Fault) : String := fault.kind ++ fault.details

end Fault
end BlockGraph
