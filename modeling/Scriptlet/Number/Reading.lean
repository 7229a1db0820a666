import Scriptlet.Number.Binary

namespace Scriptlet.Number

def digitValue (c : Char) : Nat :=
  if c.isDigit then c.toNat - '0'.toNat
  else if 'a' ≤ c ∧ c ≤ 'f' then c.toNat - 'a'.toNat + 10
  else if 'A' ≤ c ∧ c ≤ 'F' then c.toNat - 'A'.toNat + 10
  else 0

def ofDigits (base : Nat) (digits : List Char) : Nat :=
  digits.foldl (fun n c => base * n + digitValue c) 0

def ofDecimal (whole fraction : List Char) (shift : Int) : Float :=
  let e := shift - fraction.length
  nearest (ofDigits 10 (whole ++ fraction) * power 10 e) (power 10 (-e))

def ofHex? (digits : List Char) : Option Float :=
  nearestFinite? (ofDigits 16 digits)

def exponent? : List Char → Option Int
  | 'e' :: '+' :: digits => some (ofDigits 10 digits)
  | 'e' :: '-' :: digits => some (-(ofDigits 10 digits : Int))
  | 'e' :: digits => some (ofDigits 10 digits)
  | [] => some 0
  | _ => none

def magnitude? (cs : List Char) : Option Float :=
  if cs = ['i', 'n', 'f'] then some (.ofBits (.ofNat infinityBits))
  else
    let whole := cs.takeWhile Char.isDigit
    match cs.dropWhile Char.isDigit with
    | '.' :: rest =>
      (exponent? (rest.dropWhile Char.isDigit)).map
        (ofDecimal whole (rest.takeWhile Char.isDigit))
    | rest => (exponent? rest).map (ofDecimal whole [])

def ofLiteral? (text : String) : Option Float :=
  match text.toList with
  | ['n', 'a', 'n'] => some undefined
  | '-' :: cs => (magnitude? cs).map (-·)
  | cs => magnitude? cs

end Scriptlet.Number
