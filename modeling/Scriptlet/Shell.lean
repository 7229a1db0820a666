import Scriptlet.Session
import Scriptlet.Text.Blank

namespace Scriptlet.Shell

inductive Command
  | endOfFile | exit | help | reset
  deriving DecidableEq, Inhabited

namespace Command

def all : List Command :=
  [endOfFile, exit, help, reset]

def word : Command → String
  | endOfFile => "EOF" | exit => "exit" | help => "help" | reset => "reset"

def ofWord? (s : String) : Option Command :=
  all.find? (·.word = s)

end Command

inductive Line
  | empty
  | command (c : Command)
  | program (source : String)

def Line.read (line : String) : Line :=
  let word := Text.strip line.toList
  match Command.ofWord? (.ofList word) with
  | some c => .command c
  | none => if word.isEmpty then .empty else .program line

structure Reply where
  stop : Bool
  out : String
  err : String
  failure : Option Failure

def helpText : String :=
  "\nDocumented commands (type help <topic>):\n" ++
    "========================================\n" ++
    "EOF  exit  help  reset\n\n"

def banner : String :=
  "TiEL interpreter\nType 'exit' or press Ctrl-D to leave.\n"

def prompt : String := "> "

def conclude (out : String) : Except Failure Value → Reply
  | .ok .nil => ⟨false, out, "", none⟩
  | .ok v => ⟨false, out ++ v.text ++ "\n", "", none⟩
  | .error f =>
    match f.diagnostic? with
    | some d => ⟨false, out, d.format ++ "\n", none⟩
    | none => ⟨false, out, "", some f⟩

def reply (s : Session) (line : String) : Reply × Session :=
  match Line.read line with
  | .empty => (⟨false, "", "", none⟩, s)
  | .command .endOfFile => (⟨true, "\n", "", none⟩, s)
  | .command .exit => (⟨true, "", "", none⟩, s)
  | .command .help => (⟨false, helpText, "", none⟩, s)
  | .command .reset => (⟨false, "", "", none⟩, s.reset)
  | .program source =>
    let (result, s) := Session.runKept source s
    let (out, s) := s.takeOutput
    (conclude out result, s)

end Scriptlet.Shell
