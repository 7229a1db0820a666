import Scriptlet.Session
import Scriptlet.Text.Integer

/-!
The command line: options may be shortened as long as they stay unambiguous, their values may be
attached with an equals sign, short options may share one dash, and one argument that is no option
names the file.
-/

namespace Scriptlet

inductive Opt
  | help | tokens | ast | maxDepth | maxSteps | maxNesting | verbose
  deriving DecidableEq, Inhabited

namespace Opt

def all : List Opt :=
  [help, tokens, ast, maxDepth, maxSteps, maxNesting, verbose]

def spellings : Opt → List String
  | help => ["-h", "--help"]
  | tokens => ["--tokens"]
  | ast => ["--ast"]
  | maxDepth => ["--max-depth"]
  | maxSteps => ["--max-steps"]
  | maxNesting => ["--max-nesting"]
  | verbose => ["-v", "--verbose"]

def takesValue : Opt → Bool
  | maxDepth | maxSteps | maxNesting => true
  | _ => false

def table : List (String × Opt) :=
  all.flatMap fun o => o.spellings.map (·, o)

def ofSpelling? (s : String) : Option Opt :=
  table.lookup s

end Opt

inductive UsageError
  | unrecognized (arguments : List String)
  | ambiguous (argument : String) (spellings : List String)
  | valueMissing (option : Opt)
  | valueIgnored (option : Opt) (value : String)
  | invalidInteger (option : Opt) (value : String)

namespace UsageError

def forOption (o : Opt) (complaint : String) : String :=
  "argument " ++ "/".intercalate o.spellings ++ ": " ++ complaint

def message : UsageError → String
  | unrecognized arguments => "unrecognized arguments: " ++ " ".intercalate arguments
  | ambiguous argument spellings =>
    "ambiguous option: " ++ argument ++ " could match " ++ ", ".intercalate spellings
  | valueMissing o => forOption o "expected one argument"
  | valueIgnored o value => forOption o ("ignored explicit argument " ++ Text.quoted value)
  | invalidInteger o value => forOption o ("invalid int value: " ++ Text.quoted value)

end UsageError

inductive Word
  | plain (text : String)
  | divider
  | option (o : Opt) (short : Bool) (value : Option (List Char))
  | unknown (text : String)

namespace Word

def isNegativeNumber (cs : List Char) : Bool :=
  let isDigit (c : Char) := (Text.decimalDigit? c).isSome
  let body := if cs.getLast? = some '\n' then cs.dropLast else cs
  match body with
  | '-' :: rest =>
    let tail := rest.dropWhile isDigit
    match tail with
    | [] => !rest.isEmpty
    | '.' :: fraction => !fraction.isEmpty && fraction.all isDigit
    | _ => false
  | _ => false

def candidates (arg : String) : List (String × Opt × Option (List Char)) :=
  match arg.toList with
  | '-' :: '-' :: _ =>
    let before := arg.toList.takeWhile (· ≠ '=')
    let value := (arg.toList.dropWhile (· ≠ '=')).tail?
    Opt.table.filterMap fun (s, o) =>
      if before.isPrefixOf s.toList then some (s, o, value) else none
  | '-' :: c :: text =>
    Opt.table.filterMap fun (s, o) =>
      if s.toList = ['-', c] then some (s, o, some text)
      else if arg.toList.isPrefixOf s.toList then some (s, o, none)
      else none
  | _ => []

def isShort (s : String) : Bool :=
  s.toList.length = 2

def classify (arg : String) : Except UsageError Word :=
  match arg.toList with
  | '-' :: c :: rest =>
    match Opt.ofSpelling? arg with
    | some o => .ok (.option o (isShort arg) none)
    | none =>
      let cs := '-' :: c :: rest
      let before := String.ofList (cs.takeWhile (· ≠ '='))
      match cs.dropWhile (· ≠ '='), Opt.ofSpelling? before with
      | _ :: text, some o => .ok (.option o (isShort before) (some text))
      | _, _ =>
        match candidates arg with
        | [(s, o, value)] => .ok (.option o (isShort s) value)
        | [] =>
          if isNegativeNumber cs || cs.contains ' ' then .ok (.plain arg) else .ok (.unknown arg)
        | several => .error (.ambiguous arg (several.map Prod.fst))
  | _ => .ok (.plain arg)

def classifyAll : List String → Except UsageError (List Word)
  | [] => .ok []
  | "--" :: rest => .ok (divider :: rest.map plain)
  | arg :: rest => do return (← classify arg) :: (← classifyAll rest)

end Word

/-- The value of an option: a number, or nothing where two dashes alone stand for it. -/
inductive Amount
  | number (n : Int)
  | blank
  deriving DecidableEq

namespace Amount

def ofChars? (cs : List Char) : Option Amount :=
  if cs = ['-', '-'] then some blank else (Text.integer? (.ofList cs)).map number

def isBlank : Amount → Bool
  | number _ => false
  | blank => true

def toInt : Amount → Int
  | number n => n
  | blank => 0

end Amount

structure Arguments where
  file : Option String := none
  tokens : Bool := false
  ast : Bool := false
  maxDepth : Amount := .number 256
  maxSteps : Option Amount := none
  maxNesting : Amount := .number 128
  verbose : Bool := false

inductive EarlyEnd
  | help
  | wrong (e : UsageError)

namespace Arguments

/-- The limits that are asked for, zero where they are left blank, on the stack that the host has for as
many frames as they allow. -/
def limits (a : Arguments) (host : Int → Stack) : Limits :=
  let limits : Limits :=
    { maxDepth := a.maxDepth.toInt
      maxSteps := a.maxSteps.map Amount.toInt
      maxNesting := a.maxNesting.toInt }
  { limits with toStack := host (Session.frames limits) }

def amount? (a : Arguments) : Limit → Option Amount
  | .calls => some a.maxDepth
  | .steps => a.maxSteps
  | .nesting => some a.maxNesting

def blank (a : Arguments) : List Limit :=
  Limit.all.filter fun limit => (a.amount? limit).any Amount.isBlank

def amount (o : Opt) (value : List Char) : Except EarlyEnd Amount :=
  match Amount.ofChars? value with
  | some n => .ok n
  | none => .error (.wrong (.invalidInteger o (.ofList value)))

def apply (a : Arguments) (o : Opt) (value : List Char) : Except EarlyEnd Arguments :=
  match o with
  | .help => .error .help
  | .tokens => .ok { a with tokens := true }
  | .ast => .ok { a with ast := true }
  | .verbose => .ok { a with verbose := true }
  | .maxDepth => do return { a with maxDepth := ← amount o value }
  | .maxSteps => do return { a with maxSteps := some (← amount o value) }
  | .maxNesting => do return { a with maxNesting := ← amount o value }

/-- The options in a cluster such as `-vh`, of which `o` is in front of the text. All of them have
to be short options. -/
def cluster (o : Opt) : List Char → Except EarlyEnd (List Opt)
  | [] => .ok [o]
  | c :: rest =>
    match Opt.ofSpelling? (.ofList ['-', c]) with
    | some next => do return o :: (← cluster next rest)
    | none => .error (.wrong (.valueIgnored o (.ofList (c :: rest))))

def applyAll (a : Arguments) (os : List Opt) : Except EarlyEnd Arguments :=
  os.foldlM (fun a o => a.apply o []) a

structure Progress where
  arguments : Arguments
  placed : Bool
  extras : Array String

namespace Progress

def place (p : Progress) (file : Option String) : Progress :=
  { p with arguments := { p.arguments with file }, placed := true }

def extra (p : Progress) (text : String) : Progress :=
  { p with extras := p.extras.push text }

def options (p : Progress) (os : List Opt) : Except EarlyEnd Progress := do
  return { p with arguments := ← p.arguments.applyAll os }

def option (p : Progress) (o : Opt) (value : List Char) : Except EarlyEnd Progress := do
  return { p with arguments := ← p.arguments.apply o value }

def read (p : Progress) : List Word → Except EarlyEnd Progress
  | [] => .ok p
  | .plain text :: .divider :: rest =>
    if p.placed then ((p.extra text).extra "--").read rest
    else (p.place (some text)).read rest
  | .plain text :: rest =>
    if p.placed then (p.extra text).read rest else (p.place (some text)).read rest
  | .divider :: .plain text :: rest =>
    if p.placed then ((p.extra "--").extra text).read rest
    else (p.place (some text)).read rest
  | .divider :: rest =>
    if p.placed then (p.extra "--").read rest else (p.place none).read rest
  | .unknown text :: rest => (p.extra text).read rest
  | .option o short value :: rest =>
    match o.takesValue, value with
    | true, some text => do (← p.option o text).read rest
    | true, none =>
      match rest with
      | .plain text :: rest => do (← p.option o text.toList).read rest
      | _ => .error (.wrong (.valueMissing o))
    | false, none => do (← p.options [o]).read rest
    | false, some text =>
      if short && !text.isEmpty then do (← p.options (← cluster o text)).read rest
      else .error (.wrong (.valueIgnored o (.ofList text)))

end Progress

def ofList (args : List String) : Except EarlyEnd Arguments := do
  let words ← (Word.classifyAll args).mapError .wrong
  let p ← Progress.read ⟨{}, false, #[]⟩ words
  if p.extras.isEmpty then return p.arguments
  else throw (.wrong (.unrecognized p.extras.toList))

end Arguments

end Scriptlet
