namespace Scriptlet

/-- A line and a column, both counted from one in a scanned text. -/
structure Position where
  line : Int
  column : Int
  deriving DecidableEq, Inhabited

namespace Position

def start : Position := ⟨1, 1⟩

def describe (p : Position) : String :=
  s!"line {p.line}, column {p.column}"

def next (p : Position) (c : Char) : Position :=
  if c = '\n' then ⟨p.line + 1, 1⟩ else ⟨p.line, p.column + 1⟩

def advance (p : Position) (cs : List Char) : Position :=
  cs.foldl next p

theorem advance_append (p : Position) (cs ds : List Char) :
    p.advance (cs ++ ds) = (p.advance cs).advance ds :=
  List.foldl_append

end Position

end Scriptlet
