import Scriptlet.Text.Blank
import Scriptlet.Text.DecimalDigit

namespace Scriptlet.Text

def maxDigits : Nat := 4300

def isMargin (c : Char) : Bool :=
  isBlank c && !(28 ≤ c.toNat && c.toNat ≤ 31)

def digits? (value : Nat) (afterDigit : Bool) : List Char → Option Nat
  | [] => if afterDigit then some value else none
  | c :: rest =>
    if c = '_' then
      if afterDigit then digits? value false rest else none
    else (decimalDigit? c).bind fun d => digits? (10 * value + d) true rest

def natural? (cs : List Char) : Option Nat :=
  if maxDigits < (cs.filter (· ≠ '_')).length then none else digits? 0 false cs

def isWritable (n : Int) : Bool :=
  (Nat.toDigits 10 n.natAbs).length ≤ maxDigits

def integer? (text : String) : Option Int :=
  let cs := ((text.toList.dropWhile isMargin).reverse.dropWhile isMargin).reverse
  match cs with
  | '+' :: rest => (natural? rest).map Int.ofNat
  | '-' :: rest => (natural? rest).map fun n => -(n : Int)
  | _ => (natural? cs).map Int.ofNat

end Scriptlet.Text
