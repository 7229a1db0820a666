import Scriptlet.CommandLine

namespace Scriptlet.Main

open CommandLine

partial def readAll (input : IO.FS.Stream) (bytes : ByteArray) : IO ByteArray := do
  let chunk ← input.read 65536
  if chunk.isEmpty then return bytes else readAll input (bytes ++ chunk)

def hasNumber (code n : UInt32) : Bool :=
  code = n || code = 0 - n

def readError : IO.Error → ReadError
  | .noFileOrDirectory .. => .missing
  | .permissionDenied .. => .denied
  | .inappropriateType _ code details =>
    if hasNumber code 20 then .notDirectory
    else if hasNumber code 21 then .isDirectory
    else .other details
  | .invalidArgument _ code details =>
    if hasNumber code 36 then .nameTooLong else .other details
  | e => .other (toString e)

def readFile (path : String) : IO (Except ReadError (List UInt8)) := do
  let name := (SourcePath.ofString path).toString
  try
    return .ok (← IO.FS.readBinFile name).toList
  catch e => return .error (readError e)

def flush (t : Transcript) : IO Transcript := do
  (← IO.getStdout).putStr t.out
  (← IO.getStdout).flush
  (← IO.getStderr).putStr t.err
  return { t with out := "", err := "" }

def fail (f : Failure) : IO UInt32 := do
  (← IO.getStderr).putStrLn f.message
  return 1

def finish (a : Answer) : IO UInt32 := do
  (← IO.getStdout).putStr a.out
  (← IO.getStdout).flush
  (← IO.getStderr).putStr a.err
  match a.ending with
  | .ok status => return status.toUInt32
  | .error f => fail f

partial def converse (input : IO.FS.Stream) (t : Transcript) : IO UInt32 := do
  let t ← flush { t with out := t.out ++ Shell.prompt }
  let line ← input.getLine
  let line := if line.isEmpty then Shell.Command.endOfFile.word else (line.dropEndWhile (· = '\n')).toString
  let (result, t) := Run.shellLine line t
  let t ← flush t
  match result with
  | .ok true => converse input t
  | .ok false => return 0
  | .error f => fail f

end Scriptlet.Main

open Scriptlet CommandLine in
def main (args : List String) : IO UInt32 := do
  let input ← IO.getStdin
  let clock := Float.ofNat (← IO.monoMsNow) / 1000
  match plan args (← input.isTty) with
  | .answer a => Main.finish a
  | .run a source =>
    let content ← match source with
      | .standardInput => .ok <$> (·.toList) <$> Main.readAll input .empty
      | .file path => Main.readFile path
    Main.finish ((Run.program content).answer (.start a clock))
  | .shell a =>
    let (result, t) := (do Run.prepare; Run.write Shell.banner : Run Unit) (.start a clock)
    let t ← Main.flush t
    match result with
    | .ok () => Main.converse input t
    | .error f => Main.fail f
