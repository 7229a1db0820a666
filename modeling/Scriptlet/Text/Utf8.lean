/-!
UTF-8 as a machine that takes one byte at a time. It refuses a text at the first byte that no
text can have there, and blames the whole sequence that the byte breaks. Only a surrogate is
refused later, once its second byte has been taken.
-/

namespace Scriptlet.Text

inductive Utf8Fault
  | badStart | badContinuation | unfinished
  deriving DecidableEq, Inhabited

def Utf8Fault.describe : Utf8Fault → String
  | badStart => "invalid start byte"
  | badContinuation => "invalid continuation byte"
  | unfinished => "unexpected end of data"

structure Utf8Error where
  fault : Utf8Fault
  first : UInt8
  position : Nat
  length : Nat

def hexByte (b : UInt8) : String :=
  let digits := Nat.toDigits 16 b.toNat
  .ofList (List.replicate (2 - digits.length) '0' ++ digits)

def Utf8Error.message (e : Utf8Error) : String :=
  let bytes :=
    if e.length = 1 then s!"byte 0x{hexByte e.first} in position {e.position}"
    else s!"bytes in position {e.position}-{e.position + e.length - 1}"
  s!"'utf-8' codec can't decode {bytes}: {e.fault.describe}"

structure Utf8Sequence where
  first : UInt8
  position : Nat
  left : Nat
  low : UInt8
  high : UInt8
  code : Nat
  surrogate : Bool

def makesSurrogate (first b : UInt8) : Bool :=
  first = 0xED && 0xA0 ≤ b && b ≤ 0xBF

/-- The sequence that a byte begins, if it can begin one. The ranges of the second byte leave out
overlong forms, surrogates, and code points beyond the last. -/
def Utf8Sequence.begin? (b : UInt8) (position : Nat) : Option Utf8Sequence :=
  let n := b.toNat
  if 0xC2 ≤ n ∧ n ≤ 0xDF then some ⟨b, position, 1, 0x80, 0xBF, n - 0xC0, false⟩
  else if 0xE0 ≤ n ∧ n ≤ 0xEF then
    let low := if n = 0xE0 then 0xA0 else 0x80
    let high := if n = 0xED then 0x9F else 0xBF
    some ⟨b, position, 2, low, high, n - 0xE0, false⟩
  else if 0xF0 ≤ n ∧ n ≤ 0xF4 then
    let low := if n = 0xF0 then 0x90 else 0x80
    let high := if n = 0xF4 then 0x8F else 0xBF
    some ⟨b, position, 3, low, high, n - 0xF0, false⟩
  else none

structure Utf8State where
  done : List Char
  pending : Option Utf8Sequence
  position : Nat

namespace Utf8State

def start : Utf8State :=
  ⟨[], none, 0⟩

def enter (s : Utf8State) (b : UInt8) : Except Utf8Error Utf8State :=
  if b < 0x80 then .ok ⟨Char.ofNat b.toNat :: s.done, none, s.position + 1⟩
  else
    match Utf8Sequence.begin? b s.position with
    | some q => .ok ⟨s.done, some q, s.position + 1⟩
    | none => .error ⟨.badStart, b, s.position, 1⟩

def extend (s : Utf8State) (q : Utf8Sequence) (b : UInt8) : Except Utf8Error Utf8State :=
  if q.surrogate then .error ⟨.badContinuation, q.first, q.position, 1⟩
  else if q.low ≤ b ∧ b ≤ q.high then
    let code := q.code * 64 + (b.toNat - 0x80)
    if q.left ≤ 1 then .ok ⟨Char.ofNat code :: s.done, none, s.position + 1⟩
    else
      .ok ⟨s.done, some { q with left := q.left - 1, low := 0x80, high := 0xBF, code }, s.position + 1⟩
  else if makesSurrogate q.first b then
    .ok ⟨s.done, some { q with surrogate := true }, s.position + 1⟩
  else .error ⟨.badContinuation, q.first, q.position, s.position - q.position⟩

def step (s : Utf8State) (b : UInt8) : Except Utf8Error Utf8State :=
  match s.pending with
  | none => s.enter b
  | some q => s.extend q b

def run (s : Utf8State) (bytes : List UInt8) : Except Utf8Error Utf8State :=
  bytes.foldlM step s

def unfinished? (s : Utf8State) : Option Utf8Error :=
  s.pending.map fun q =>
    if q.surrogate then ⟨.badContinuation, q.first, q.position, 1⟩
    else ⟨.unfinished, q.first, q.position, s.position - q.position⟩

def rebase (s : Utf8State) : Utf8State :=
  match s.pending with
  | none => { s with position := 0 }
  | some q => ⟨s.done, some { q with position := 0 }, s.position - q.position⟩

end Utf8State

def decodeUtf8 (bytes : List UInt8) : Except Utf8Error (List Char) := do
  let s ← Utf8State.start.run bytes
  match s.unfinished? with
  | none => return s.done.reverse
  | some e => throw e

end Scriptlet.Text
