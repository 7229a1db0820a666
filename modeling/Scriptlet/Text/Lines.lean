namespace Scriptlet.Text

def unifyStep (state : Bool × List Char) (c : Char) : Bool × List Char :=
  if c = '\r' then (true, '\n' :: state.2)
  else if c = '\n' ∧ state.1 then (false, state.2)
  else (false, c :: state.2)

def unifyLineEnds (cs : List Char) : List Char :=
  (cs.foldl unifyStep (false, [])).2.reverse

def linesFrom (lines : Array (List Char)) (line : List Char) : List Char → List (List Char)
  | [] => (if line.isEmpty then lines else lines.push line.reverse).toList
  | c :: rest =>
    if c = '\n' then linesFrom (lines.push line.reverse) [] rest
    else linesFrom lines (c :: line) rest

def lines (cs : List Char) : List (List Char) :=
  linesFrom #[] [] cs

end Scriptlet.Text
