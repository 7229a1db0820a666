import Scriptlet.Options
import Scriptlet.Shell
import Scriptlet.SourceFile
import Scriptlet.Syntax.Outline
import Scriptlet.Text.LineInput

namespace Scriptlet.CommandLine

def usage : String :=
  "usage: tiel [-h] [--tokens] [--ast] [--max-depth MAX_DEPTH]\n" ++
    "            [--max-steps MAX_STEPS] [--max-nesting MAX_NESTING] [-v]\n" ++
    "            [file]\n"

def help : String :=
  usage ++
    "\nRun a TiEL program.\n" ++
    "\npositional arguments:\n" ++
    "  file                  program to run, '-' for standard input (if empty,\n" ++
    "                        starts the interactive shell)\n" ++
    "\noptions:\n" ++
    "  -h, --help            show this help message and exit\n" ++
    "  --tokens              print the tokens of the program before running it\n" ++
    "  --ast                 print the syntax tree of the program before running it\n" ++
    "  --max-depth MAX_DEPTH\n" ++
    "                        maximum function call depth\n" ++
    "  --max-steps MAX_STEPS\n" ++
    "                        maximum number of evaluation steps\n" ++
    "  --max-nesting MAX_NESTING\n" ++
    "                        maximum nesting depth of statements and expressions\n" ++
    "  -v, --verbose         log debug output\n"

structure Answer where
  out : String
  err : String
  ending : Except Failure Nat

inductive Source
  | standardInput
  | file (path : String)

inductive Plan
  | answer (a : Answer)
  | shell (a : Arguments)
  | run (a : Arguments) (source : Source)

def plan (args : List String) (terminal : Bool) : Plan :=
  match Arguments.ofList args with
  | .error .help => .answer ⟨help, "", .ok 0⟩
  | .error (.wrong e) => .answer ⟨"", usage ++ "tiel: error: " ++ e.message ++ "\n", .ok 2⟩
  | .ok a =>
    match a.file with
    | none => if terminal then .shell a else .run a .standardInput
    | some "-" => .run a .standardInput
    | some path => .run a (.file path)

def logged (origin text : String) : String :=
  "DEBUG tiel." ++ origin ++ ": " ++ text ++ "\n"

def logEvent : Event → String
  | .reserving room => logged "interpreter" s!"raising recursion limit to {room}"
  | .running chars => logged "interpreter" s!"running {chars} chars"
  | .parsed statements => logged "interpreter" s!"parsed {statements} statements"
  | .evaluated steps => logged "evaluator" s!"program evaluated in {steps} steps"

structure Transcript where
  arguments : Arguments
  session : Session
  out : String
  err : String

abbrev Run := ExceptT Failure (StateM Transcript)

namespace Run

def write (text : String) : Run Unit :=
  modify fun t => { t with out := t.out ++ text }

def complain (text : String) : Run Unit :=
  modify fun t => { t with err := t.err ++ text }

def log (text : String) : Run Unit := do
  if (← get).arguments.verbose then complain text

def collect : Run Unit := do
  let t ← get
  let (events, session) := t.session.takeEvents
  let (out, session) := session.takeOutput
  set { t with session, out := t.out ++ out }
  events.forM fun e => log (logEvent e)

def inSession {α : Type} (action : SessionM α) : Run α := do
  let t ← get
  let (result, session) := action t.session
  set { t with session }
  collect
  liftM result

def prepare : Run Unit := do
  collect
  match (← get).session.obstacle? with
  | none => return ()
  | some f => throw f

def decode (bytes : List UInt8) : Run (List Char) :=
  match Text.decodeUtf8 bytes with
  | .ok cs => return Text.unifyLineEnds cs
  | .error e => throw (.undecodable e)

def listTokens (source : String) : Run Unit := do
  let stream := TokenStream.ofSource source
  write "Tokens:\n"
  stream.tokens.forM fun t => write (t.listing ++ "\n")
  match stream.error with
  | some e => throw e.failure
  | none => write "\n"

/-- Shows the tree of a source. Nothing catches a lack of room for it. -/
def showTree (source : String) : Run Unit := do
  write "AST:\n"
  let p ← inSession (Session.parse source)
  match p.node.outlineWithin (← get).session.limits.outlineRoom with
  | some outline => write (outline ++ "\n\n")
  | none => throw .exhausted

def runSource (source : String) : Run Unit := do
  let a := (← get).arguments
  if a.tokens then listTokens source
  if a.ast then showTree source
  let _ ← inSession (Session.run source)

def sourceName (a : Arguments) : String :=
  match a.file with
  | none | some "" => "<stdin>"
  | some name => name

def program (content : Except ReadError (List UInt8)) : Run Nat := do
  prepare
  let a := (← get).arguments
  match content with
  | .error e =>
    complain ("tiel: cannot read " ++ a.file.getD "" ++ ": " ++ e.describe ++ "\n")
    return 2
  | .ok bytes =>
    let source ← decode bytes
    log (logged "cli" s!"loaded {sourceName a}")
    let run : Run Nat := do
      runSource (.ofList source)
      return 0
    tryCatch run fun f => do
      match f.diagnostic? with
      | some d =>
        complain (d.format ++ "\n")
        return 1
      | none => throw f

def shellLine (line : String) : Run Bool := do
  let t ← get
  let (reply, session) := Shell.reply t.session line
  set { t with session }
  collect
  write reply.out
  complain reply.err
  match reply.failure with
  | some f => throw f
  | none => return !reply.stop

/-- Answers lines until one ends the shell. Behind the last one stands a fault or the end of the
input, which is a command of its own. -/
def shellLines (fault : Option Text.Utf8Error) : List (List Char) → Run Unit
  | [] => do
    write Shell.prompt
    match fault with
    | some e => throw (.undecodable e)
    | none =>
      let _ ← shellLine Shell.Command.endOfFile.word
  | line :: rest => do
    write Shell.prompt
    if ← shellLine (.ofList line) then shellLines fault rest

def shell (input : List UInt8) : Run Nat := do
  prepare
  write Shell.banner
  let input := Text.LineInput.ofBytes input
  shellLines input.fault input.lines
  return 0

end Run

def Transcript.start (a : Arguments) (clock : Clock) (host : Int → Stack := fun _ => {}) :
    Transcript :=
  ⟨a, .start (a.limits host) a.blank clock, "", ""⟩

def Run.answer (run : Run Nat) (t : Transcript) : Answer :=
  let (ending, t) := run t
  ⟨t.out, t.err, ending⟩

end Scriptlet.CommandLine
