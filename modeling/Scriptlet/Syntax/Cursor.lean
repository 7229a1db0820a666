import Scriptlet.Syntax.Fault

namespace Scriptlet

structure Cursor where
  current : Token
  next : Token
  rest : List Token
  error : Option ScanError

namespace Cursor

/-- The token in front of `rest`, or what stands behind `last` when there is none. -/
def pull (last : Option Token) (rest : List Token) (error : Option ScanError) :
    Except ScanError (Token × List Token) :=
  match rest, error with
  | t :: ts, _ => .ok (t, ts)
  | [], some e => .error e
  | [], none => .ok (last.elim (.endOfInput .start 0) Token.endBehind, [])

def ofStream (s : TokenStream) : Except ScanError Cursor := do
  let (current, rest) ← pull none s.tokens s.error
  let (next, rest) ← pull (some current) rest s.error
  return ⟨current, next, rest, s.error⟩

def advance (c : Cursor) : Except ScanError Cursor := do
  let (next, rest) ← pull (some c.next) c.rest c.error
  return ⟨c.next, next, rest, c.error⟩

end Cursor

structure Surroundings where
  maxNesting : Int
  nesting : Nat
  inFunction : Bool
  /-- A bound on the length of every sequence in the source. -/
  length : Nat

abbrev Parser := ReaderT Surroundings (StateT Cursor (Except ParseError))

namespace Parser

def current : Parser Token :=
  return (← get).current

def currentKind : Parser TokenKind :=
  return (← get).current.kind

def nextKind : Parser TokenKind :=
  return (← get).next.kind

def fault {α : Type} (f : SyntaxFault) (pos : Position) : Parser α :=
  throw (.fault f pos)

def exhausted {α : Type} : Parser α := do
  throw (.exhausted (← current).pos)

def take : Parser Token := do
  let c ← get
  match c.advance with
  | .ok c' =>
    set c'
    return c.current
  | .error e => throw (.scan e)

def accept (kind : TokenKind) : Parser Bool := do
  if (← currentKind) = kind then
    let _ ← take
    return true
  else return false

def require (kind : TokenKind) (slot : Slot) : Parser Token := do
  let t ← current
  if t.kind = kind then take else fault (.missing kind slot t) t.pos

def nested {α : Type} (p : Parser α) : Parser α := do
  let s ← read
  if s.maxNesting ≤ s.nesting then throw (.nesting s.maxNesting (← current).pos)
  else withReader (fun s => { s with nesting := s.nesting + 1 }) p

def inFunction {α : Type} (p : Parser α) : Parser α :=
  withReader (fun s => { s with inFunction := true }) p

def manyUntil {α : Type} (stops : List TokenKind) (item : Parser α) :
    Nat → List α → Parser (List α)
  | 0, _ => exhausted
  | n + 1, items => do
    if stops.contains (← currentKind) then return items.reverse
    else manyUntil stops item n ((← item) :: items)

def manyCommas {α : Type} (item : Parser α) : Nat → List α → Parser (List α)
  | 0, _ => exhausted
  | n + 1, items => do
    if ← accept (.symbol .comma) then manyCommas item n ((← item) :: items)
    else return items.reverse

end Parser

end Scriptlet
