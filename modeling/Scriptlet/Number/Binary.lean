namespace Scriptlet.Number

structure Parts where
  negative : Bool
  significand : Nat
  exponent : Int

inductive Shape
  | finite (parts : Parts)
  | infinite (negative : Bool)
  | undefined

def leastExponent : Int := -1074

def hiddenBit : Nat := 4503599627370496

def signBit : Nat := 9223372036854775808

def infinityBits : Nat := 2047 * hiddenBit

def undefined : Float := 0 / 0

def shape (x : Float) : Shape :=
  let bits := x.toBits.toNat
  let negative := signBit ≤ bits
  let field := bits / hiddenBit % 2048
  let fraction := bits % hiddenBit
  if field = 2047 then
    if fraction = 0 then .infinite negative else .undefined
  else if field = 0 then .finite ⟨negative, fraction, leastExponent⟩
  else .finite ⟨negative, hiddenBit + fraction, leastExponent + (field - 1 : Nat)⟩

def roundDiv (num den : Nat) : Nat :=
  let q := num / den
  let r := num % den
  if 2 * r < den then q
  else if den < 2 * r then q + 1
  else if q % 2 = 0 then q else q + 1

def power (base : Nat) (e : Int) : Nat :=
  Nat.pow base e.toNat

def scale (num den : Nat) : Int :=
  let e : Int := (num.log2 : Int) - (den.log2 : Int) - 53
  let wide := num * power 2 (-e) / (den * power 2 e)
  max leastExponent (if wide < 2 * hiddenBit then e else e + 1)

/-- The bits of the number nearest to `num / den`, of two equally near the one with the even
significand; `infinityBits` or more when that is too large to be finite. A significand that
rounds up to the next power of two carries into the exponent field, as it should. -/
def nearestBits (num den : Nat) : Nat :=
  if num = 0 then 0
  else
    let e := scale num den
    (e - leastExponent).toNat * hiddenBit + roundDiv (num * power 2 (-e)) (den * power 2 e)

def nearest (num den : Nat) : Float :=
  .ofBits (.ofNat (min (nearestBits num den) infinityBits))

def nearestFinite? (n : Nat) : Option Float :=
  let bits := nearestBits n 1
  if bits < infinityBits then some (.ofBits (.ofNat bits)) else none

end Scriptlet.Number
