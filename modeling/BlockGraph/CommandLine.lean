import BlockGraph.Build

/-!
# The command line

The command reads the code of a method from a file, builds its graph and prints the listing.
`reply` is the whole command as a function of its arguments and of what the files hold. What the
arguments say is left to a parser of arguments: it is given the table of what the command takes
(`command`), and answers by a record of getters or by a text to print instead.
-/

namespace BlockGraph

open Text

/-! ## Listings -/

/-- A block as it is named in texts. -/
def blockName (b : BlockId) : String := s!"B{b}"

/-- Blocks as they are listed in texts. -/
def blockNames (bs : List BlockId) : String := "[" ++ ", ".intercalate (bs.map blockName) ++ "]"

namespace Graph

/-- The line of a block. -/
def blockLine (g : Graph) (b : BlockId) : String :=
  let block := g.block b
  let bci := match block.site with
    | .code bci => toString bci
    | .unlock => "sync"
  blockName b ++ s!" bci={bci} dfn={block.number} flags=" ++ block.flags.text ++
    s!" instructions={block.instrs.size} successors=" ++ blockNames block.successors ++
    " handlers=" ++ blockNames block.handlers ++ "\n"

/-- The lines of all parsed blocks, in the order in which they were parsed (`print_graph`). -/
def listing (g : Graph) : String := String.join (g.order.toList.map g.blockLine)

end Graph

/-! ## Handlers as arguments

A handler is written `START:END:HANDLER` or `START:END:HANDLER:CATCH`, each part a number that may
have blanks around it. -/

namespace Handler

/-- The handler that numbers describe: range, start, and what is caught if that is not
everything. -/
def ofNumbers? : List Nat → Option Handler
  | [first, limit, target] =>
    some { first := first, limit := limit, target := .ofIndex target, catchType := 0 }
  | [first, limit, target, catchType] =>
    if catchType < 0x10000 then
      some { first := first, limit := limit, target := .ofIndex target, catchType := catchType }
    else none
  | _ => none

/-- The handler that an argument describes. -/
def ofArgument? (text : String) : Option Handler :=
  ((fields ':' text.toList).mapM fun field => readWord? (trim field)).bind ofNumbers?

/-- The handler that an argument describes, or the fault that quotes the argument
(`parse_handler`). -/
def ofArgument (text : String) : Except Fault Handler :=
  match ofArgument? text with
  | some h => .ok h
  | none => .error (.badArgument (.handler text))

end Handler

namespace CommandLine

/-! ## What the command takes -/

/-- What an option does each time it is given (`ArgAction`). -/
inductive Action where
  /-- It sets its value, once. -/
  | set
  /-- It adds a value to those given before. -/
  | append
  /-- It has no value and switches something on, once. -/
  | setTrue
deriving DecidableEq, Repr

/-- What a value has to be (`value_parser`). -/
inductive ValueKind where
  | text
  /-- A decimal number that fits a 64-bit word. -/
  | number
deriving DecidableEq, Repr

/-- An argument that a command takes (`Arg`). -/
structure Arg where
  /-- The name under which its values are asked for. -/
  id : String
  /-- What stands behind `--` where the option is given; an argument without it is known by its
  place. -/
  long : Option String := none
  /-- The place of an argument without a name, counted from one. -/
  index : Option Nat := none
  /-- What its value is called. -/
  valueName : Option String := none
  help : String
  action : Action := .set
  value : ValueKind := .text
  required : Bool := false
deriving DecidableEq, Repr

/-- A command and the arguments that it takes (`Command`). -/
structure Command where
  name : String
  version : String
  about : String
  args : List Arg
deriving DecidableEq, Repr

/-- The command that prints the graph of a method. -/
def command : Command where
  name := "Bytecode block graph builder"
  version := "0.1.0"
  about := "Parses the code of a JVM method into basic blocks and prints them"
  args := [
    { id := "handler", long := some "handler", valueName := some "START:END:HANDLER[:CATCH]",
      help := "Adds an exception table entry (catch type 0 catches everything)",
      action := .append },
    { id := "synchronized", long := some "synchronized",
      help := "Treats the method as synchronized", action := .setTrue },
    { id := "max blocks", long := some "max-blocks", valueName := some "N",
      help := "Gives up after parsing this many blocks", value := .number },
    { id := "hex", long := some "hex",
      help := "Reads the input as hexadecimal text instead of raw bytes", action := .setTrue },
    { id := "INPUT", help := "File containing the code array of the method", required := true,
      index := some 1 }]

/-! ## What a parser of arguments answers -/

/-- What arguments say that are accepted, asked for by the name of an argument (`ArgMatches`). -/
structure Matches where
  /-- Is the switch on (`get_flag`)? -/
  flag : String → Bool
  /-- The value, which is a number (`get_one`). -/
  number : String → Option Nat
  /-- The value, which is a text (`get_one`). -/
  text : String → Option String
  /-- All values, in the order in which they were given (`get_many`). -/
  texts : String → Option (List String)

/-- A text that is printed in place of a run: what the arguments ask for, help or the version, or
what is wrong with them. -/
structure Stop where
  /-- Do the arguments ask for the text? -/
  asked : Bool
  text : String
deriving DecidableEq, Repr

/-- A parser of arguments. -/
abbrev Parser := Command → List String → Except Stop Matches

/-! ## The run -/

/-- What the command prints, and its exit code. -/
structure Reply where
  exitCode : Nat
  output : String := ""
  errors : String := ""
deriving DecidableEq, Repr

/-- A text that is asked for is the output; any other one is a complaint, and the run has failed. -/
def Stop.reply (stop : Stop) : Reply :=
  if stop.asked then { exitCode := 0, output := stop.text }
  else { exitCode := 2, errors := stop.text }

/-- The bytes that hexadecimal text spells (`parse_hex`). -/
def parseHex (text : List UInt8) : Except Fault (List UInt8) :=
  (readHex text).mapError fun fault => .badArgument (.hexInput fault)

/-- Builds the graph of the method in a file. A file that cannot be read is reported before wrong
contents, and those before wrong handlers (`main`). -/
def graphOf (files : String → Except ReadFailure (List UInt8)) (matched : Matches) :
    Except Fault Graph := do
  let options : Options := match matched.number "max blocks" with
    | none => {}
    | some limit => { blockLimit := limit }
  let input ← match matched.text "INPUT" with
    | none => throw (.badArgument .noInput)
    | some input => pure input
  let bytes ← (files input).mapError Fault.unreadable
  let code ← if matched.flag "hex" then parseHex bytes else pure bytes
  let access := if matched.flag "synchronized" then AccessFlags.ofStatic.withSynchronized else .ofStatic
  let handlers ← ((matched.texts "handler").getD []).mapM Handler.ofArgument
  build { name := input, access := access, code := code.toArray, handlers := handlers } {} options

/-- Prints a graph, or why there is none. -/
def replyOf : Except Fault Graph → Reply
  | .ok g => { exitCode := 0, output := g.listing }
  | .error fault => { exitCode := 1, errors := "Error: " ++ fault.diagnostic ++ "\n" }

/-- The command as a function of its arguments and of what the files hold. -/
def reply (parse : Parser) (files : String → Except ReadFailure (List UInt8)) (args : List String) :
    Reply :=
  match parse command args with
  | .error stop => stop.reply
  | .ok matched => replyOf (graphOf files matched)

/-! ## The program -/

/-- The number of a system error, which may be reported with its sign changed. -/
def errorNumber (code : UInt32) : UInt32 := min code (-code)

/-- Why the system did not let a file be read. -/
def readFailure : IO.Error → ReadFailure
  | .noFileOrDirectory .. => .notFound
  | .permissionDenied .. => .permissionDenied
  | .inappropriateType _ code _ => if errorNumber code = 20 then .notADirectory else .isADirectory
  | failure@(.invalidArgument _ code _) =>
    if errorNumber code = 36 then .nameTooLong else .described (toString failure)
  | other => .described (toString other)

/-- The bytes of a file. -/
def readBytes (file : String) : IO (Except ReadFailure (List UInt8)) := do
  try
    return .ok (← IO.FS.readBinFile file).data.toList
  catch failure => return .error (readFailure failure)

/-- Reads the file that the arguments name, prints what the command replies and exits with its
code. -/
def run (parse : Parser) (args : List String) : IO UInt32 := do
  let contents ← match (parse command args).toOption.bind (·.text "INPUT") with
    | none => pure (.ok [])
    | some file => readBytes file
  let reply := reply parse (fun _ => contents) args
  IO.print reply.output
  IO.eprint reply.errors
  return UInt32.ofNat reply.exitCode

end CommandLine
end BlockGraph
