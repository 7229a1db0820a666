import Scriptlet.Number.Binary

/-!
The fewest decimal digits that read back as the same number, and of those the nearest.

A finite positive number stands for all reals that round to it. On the decimal grid with `n`
significant digits only the two grid points beside the number can be the nearest ones in that
interval; the first grid that has one there gives the digits.
-/

namespace Scriptlet.Number

structure Decimal where
  coefficient : Nat
  exponent : Int

def digitCount (n : Nat) : Nat :=
  if n = 0 then 0 else (Nat.toDigits 10 n).length

def decimalExponent (num den : Nat) : Int :=
  if den ≤ num then (digitCount (num / den) : Int) - 1
  else -(digitCount ((den + num - 1) / num - 1) : Int)

structure Neighbourhood where
  low : Nat
  value : Nat
  high : Nat
  den : Nat
  closed : Bool

/-- The interval of a positive significand: half a unit on each side, but only a quarter below
a power of two, where the numbers lie closer. An end is a tie, which goes to the even. -/
def neighbourhood (significand : Nat) (exponent : Int) : Neighbourhood :=
  let below := if significand = hiddenBit ∧ leastExponent < exponent then 1 else 2
  let e := exponent - 2
  let up := power 2 e
  ⟨(4 * significand - below) * up, 4 * significand * up, (4 * significand + 2) * up,
    power 2 (-e), significand % 2 = 0⟩

def Neighbourhood.contains (h : Neighbourhood) (d : Decimal) : Bool :=
  let up := d.coefficient * power 10 d.exponent * h.den
  let scale := power 10 (-d.exponent)
  if h.closed then h.low * scale ≤ up && up ≤ h.high * scale
  else h.low * scale < up && up < h.high * scale

def Neighbourhood.onGrid? (h : Neighbourhood) (digits : Nat) : Option Decimal :=
  let exponent := decimalExponent h.value h.den + 1 - digits
  let num := h.value * power 10 (-exponent)
  let den := h.den * power 10 exponent
  let below : Decimal := ⟨num / den, exponent⟩
  let above : Decimal := ⟨num / den + 1, exponent⟩
  match h.contains below, h.contains above with
  | true, true => some ⟨roundDiv num den, exponent⟩
  | true, false => some below
  | false, true => some above
  | false, false => none

def shortest (significand : Nat) (exponent : Int) : Decimal :=
  let h := neighbourhood significand exponent
  ((List.range 17).findSome? fun n => h.onGrid? (n + 1)).getD ⟨significand, exponent⟩

end Scriptlet.Number
