import Scriptlet.Text.Lines
import Scriptlet.Text.Utf8

namespace Scriptlet.Text

structure LineInput where
  lines : List (List Char)
  fault : Option Utf8Error

namespace LineInput

def chunkSize : Nat := 8192

def chunks (bytes : List UInt8) : List (List UInt8) :=
  match bytes with
  | [] => []
  | b :: rest => (b :: rest).take chunkSize :: chunks (rest.drop (chunkSize - 1))
termination_by bytes.length
decreasing_by
  simp only [List.length_drop, List.length_cons]
  omega

def decode (s : Utf8State) : List (List UInt8) → List Char × Option Utf8Error
  | [] => (s.done, s.unfinished?)
  | chunk :: rest =>
    match s.run chunk with
    | .ok s' => decode s'.rebase rest
    | .error e => (s.done, some e)

/-- The lines that have ended in a text, given in reverse. A carriage return at its end may be the
first half of a line end, so its line has not ended. -/
def endedLines (done : List Char) : List (List Char) :=
  let text := match done with
    | '\r' :: rest => rest
    | _ => done
  let text := unifyLineEnds text.reverse
  Text.lines (text.reverse.dropWhile (· ≠ '\n')).reverse

def ofBytes (bytes : List UInt8) : LineInput :=
  match decode .start (chunks bytes) with
  | (done, none) => ⟨Text.lines (unifyLineEnds done.reverse), none⟩
  | (done, some e) => ⟨endedLines done, some e⟩

end LineInput

end Scriptlet.Text
