import Scriptlet.Number.Shortest

namespace Scriptlet.Number

def leading (d : Decimal) : List Char × Int :=
  let digits := Nat.toDigits 10 d.coefficient
  ((digits.reverse.dropWhile (· = '0')).reverse, d.exponent + digits.length - 1)

def zeros (n : Nat) : List Char :=
  List.replicate n '0'

def positional (digits : List Char) (place : Int) : List Char :=
  if place < 0 then '0' :: '.' :: zeros (-place - 1).toNat ++ digits
  else
    let n := place.toNat + 1
    let whole := digits.take n ++ zeros (n - digits.length)
    let rest := digits.drop n
    whole ++ '.' :: (if rest.isEmpty then ['0'] else rest)

def scientific (digits : List Char) (place : Int) : List Char :=
  let magnitude := Nat.toDigits 10 place.natAbs
  let point := if digits.length ≤ 1 then [] else '.' :: digits.drop 1
  digits.take 1 ++ point ++ 'e' :: (if place < 0 then '-' else '+') ::
    zeros (2 - magnitude.length) ++ magnitude

def finiteLiteral (p : Parts) : List Char :=
  let body :=
    if p.significand = 0 then ['0', '.', '0']
    else
      let (digits, place) := leading (shortest p.significand p.exponent)
      if -4 ≤ place ∧ place < 16 then positional digits place else scientific digits place
  if p.negative then '-' :: body else body

def literal (x : Float) : String :=
  match shape x with
  | .finite p => .ofList (finiteLiteral p)
  | .infinite negative => if negative then "-inf" else "inf"
  | .undefined => "nan"

def Parts.whole? (p : Parts) : Option Int :=
  let signed (n : Nat) : Int := if p.negative then -n else n
  if 0 ≤ p.exponent then some (signed (p.significand * power 2 p.exponent))
  else
    let unit := power 2 (-p.exponent)
    if p.significand % unit = 0 then some (signed (p.significand / unit)) else none

def whole? (x : Float) : Option Int :=
  match shape x with
  | .finite p => p.whole?
  | _ => none

def display (x : Float) : String :=
  match whole? x with
  | some n => toString n
  | none => literal x

end Scriptlet.Number
