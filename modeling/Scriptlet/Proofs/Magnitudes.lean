import Mathlib.Algebra.Ring.Nat
import Scriptlet.Number.Reading

namespace Scriptlet.Number

open Float.Model (UnpackedFloat)
open Float.Model.Format (binary64)

def IsMagnitude (x : Float) : Prop :=
  x.toBits.toNat ≤ infinityBits

theorem toBits_inj {x y : Float} (h : x.toBits = y.toBits) : x = y := by
  obtain ⟨⟨bits, hx⟩⟩ := x
  obtain ⟨⟨bits', hy⟩⟩ := y
  obtain rfl : bits = bits' := h
  rfl

theorem toNat_packComponents (e : BitVec 11) (m : BitVec 52) :
    (UnpackedFloat.packComponents binary64 .positive e m).toNat = e.toNat * hiddenBit + m.toNat := by
  have hm : m.toNat < 2 ^ 52 := m.isLt
  unfold UnpackedFloat.packComponents
  rw [BitVec.toNat_append, BitVec.toNat_append, ← Nat.shiftLeft_add_eq_or_of_lt hm,
    ← Nat.shiftLeft_add_eq_or_of_lt e.isLt, Nat.shiftLeft_eq, Nat.shiftLeft_eq]
  simp [UnpackedFloat.Sign.toBitVec, hiddenBit]

inductive Unsigned : UnpackedFloat → Prop
  | infinity : Unsigned (.infinity .positive)
  | zero : Unsigned (.zero .positive)
  | finite (m : Nat) (e : Int) (hm : 0 < m) : Unsigned (.finite .positive m e hm)

theorem Unsigned.pack_le {f : UnpackedFloat} (h : Unsigned f) :
    (f.pack binary64).toNat ≤ infinityBits := by
  have hinfinity : (UnpackedFloat.packedInfinity binary64 .positive).toNat = infinityBits := by decide
  cases h with
  | infinity => exact Nat.le_of_eq hinfinity
  | zero => decide
  | finite m e hm =>
    have hmantissa : (BitVec.ofNat 52 m).toNat < hiddenBit := (BitVec.ofNat 52 m).isLt
    unfold UnpackedFloat.pack
    generalize hfield : (e + binary64.exponentBias + binary64.mantissaBitsWithoutImplicit).toNat = field
    simp only
    split
    · exact Nat.le_of_eq hinfinity
    · rename_i hlarge
      have hlt : field + 1 < 2 ^ 11 := Nat.not_le.mp hlarge
      split
      · rw [toNat_packComponents, BitVec.toNat_ofNat, Nat.mod_eq_of_lt (by omega)]
        have := Nat.mul_le_mul_right hiddenBit (show field ≤ 2046 by omega)
        unfold infinityBits
        omega
      · rw [toNat_packComponents]
        simp only [BitVec.toNat_zero, infinityBits]
        omega

theorem unsigned_unpack {b : BitVec 64} (h : b.toNat ≤ infinityBits) :
    Unsigned (UnpackedFloat.unpack binary64 b) := by
  have hsign : @UnpackedFloat.unpackSign binary64 b = 0#1 := by
    apply BitVec.eq_of_toNat_eq
    unfold UnpackedFloat.unpackSign
    simp only [infinityBits, hiddenBit] at h
    simp
    omega
  -- Up to infinity, only infinity itself has a full exponent.
  have hundefined : @UnpackedFloat.unpackExponent binary64 b = -1#11 →
      @UnpackedFloat.unpackMantissa binary64 b = 0#52 := by
    intro hexponent
    have hfield : (@UnpackedFloat.unpackExponent binary64 b).toNat = 2047 := by
      rw [hexponent]
      rfl
    apply BitVec.eq_of_toNat_eq
    unfold UnpackedFloat.unpackExponent at hfield
    unfold UnpackedFloat.unpackMantissa
    simp only [infinityBits, hiddenBit] at h
    simp [Nat.shiftRight_eq_div_pow] at hfield ⊢
    omega
  unfold UnpackedFloat.unpack
  rw [hsign]
  dsimp only
  by_cases hfull : @UnpackedFloat.unpackExponent binary64 b = -1#11
  · rw [if_pos hfull, if_pos (hundefined hfull)]
    exact .infinity
  · rw [if_neg hfull]
    by_cases hsmall : @UnpackedFloat.unpackExponent binary64 b = 0#11
    · rw [if_pos hsmall]
      by_cases hzero : @UnpackedFloat.unpackMantissa binary64 b = 0#52
      · rw [dif_pos hzero]
        exact .zero
      · rw [dif_neg hzero]
        exact .finite ..
    · rw [if_neg hsmall]
      exact .finite ..

theorem isMagnitude_ofBits {bits : Nat} (h : bits ≤ infinityBits) :
    IsMagnitude (.ofBits (.ofNat bits)) := by
  apply Unsigned.pack_le
  apply unsigned_unpack
  have hlt : bits < 2 ^ 64 := Nat.lt_of_le_of_lt h (by decide)
  exact Nat.le_trans (Nat.le_of_eq (UInt64.toNat_ofNat_of_lt hlt)) h

theorem isMagnitude_nearest (num den : Nat) : IsMagnitude (nearest num den) :=
  isMagnitude_ofBits (Nat.min_le_right _ _)

theorem isMagnitude_ofHex? {digits : List Char} {x : Float} (h : ofHex? digits = some x) :
    IsMagnitude x := by
  simp only [ofHex?, nearestFinite?] at h
  split at h
  · rename_i hlt
    obtain rfl := Option.some.inj h
    exact isMagnitude_ofBits (Nat.le_of_lt hlt)
  · cases h

def bitsOf : UnpackedFloat → Nat
  | .finite _ m e _ => if m < hiddenBit then m else (e + 1075).toNat * hiddenBit + (m - hiddenBit)
  | .zero _ => 0
  | _ => infinityBits

theorem bitsOf_unpack {b : BitVec 64} (h : b.toNat ≤ infinityBits) :
    bitsOf (UnpackedFloat.unpack binary64 b) = b.toNat := by
  have hfield : (@UnpackedFloat.unpackExponent binary64 b).toNat = b.toNat / hiddenBit := by
    simp only [infinityBits, hiddenBit] at h ⊢
    unfold UnpackedFloat.unpackExponent
    simp [Nat.shiftRight_eq_div_pow]
    omega
  have hfraction : (@UnpackedFloat.unpackMantissa binary64 b).toNat = b.toNat % hiddenBit := by
    unfold UnpackedFloat.unpackMantissa
    simp [hiddenBit]
  have hwhole := Nat.div_add_mod' b.toNat hiddenBit
  rw [← hfield, ← hfraction] at hwhole
  have hbound : (@UnpackedFloat.unpackMantissa binary64 b).toNat < hiddenBit :=
    (@UnpackedFloat.unpackMantissa binary64 b).isLt
  unfold UnpackedFloat.unpack
  dsimp only
  by_cases hfull : @UnpackedFloat.unpackExponent binary64 b = -1#11
  · have hones : (@UnpackedFloat.unpackExponent binary64 b).toNat = 2047 := by rw [hfull]; rfl
    have hzero : (@UnpackedFloat.unpackMantissa binary64 b).toNat = 0 := by
      simp only [infinityBits, hiddenBit] at h hwhole hbound ⊢
      omega
    rw [if_pos hfull, if_pos (BitVec.eq_of_toNat_eq hzero)]
    rw [hones, hzero] at hwhole
    exact hwhole
  · rw [if_neg hfull]
    by_cases hsmall : @UnpackedFloat.unpackExponent binary64 b = 0#11
    · have hzero : (@UnpackedFloat.unpackExponent binary64 b).toNat = 0 := by rw [hsmall]; rfl
      rw [if_pos hsmall]
      rw [hzero] at hwhole
      by_cases hnone : @UnpackedFloat.unpackMantissa binary64 b = 0#52
      · have hnothing : (@UnpackedFloat.unpackMantissa binary64 b).toNat = 0 := by rw [hnone]; rfl
        rw [dif_pos hnone]
        rw [hnothing, Nat.zero_mul] at hwhole
        exact hwhole
      · rw [dif_neg hnone]
        change (if _ < hiddenBit then _ else _) = _
        rw [if_pos hbound]
        omega
    · -- A normal number has a hidden bit in front of its fraction.
      have happend : (1#1 ++ @UnpackedFloat.unpackMantissa binary64 b).toNat =
          hiddenBit + (@UnpackedFloat.unpackMantissa binary64 b).toNat := by
        rw [BitVec.toNat_append, ← Nat.shiftLeft_add_eq_or_of_lt (BitVec.isLt _)]
        simp [Nat.shiftLeft_eq, hiddenBit]
      have hbias : (((@UnpackedFloat.unpackExponent binary64 b).toNat : Int) -
          (binary64.exponentBias + binary64.mantissaBitsWithoutImplicit) + 1075).toNat =
          (@UnpackedFloat.unpackExponent binary64 b).toNat := by
        have : (binary64.exponentBias + binary64.mantissaBitsWithoutImplicit : Int) = 1075 := by decide
        omega
      rw [if_neg hsmall]
      change (if _ < hiddenBit then _ else _) = _
      rw [happend, hbias, if_neg (by omega)]
      omega

theorem Unsigned.eq_of_beq {f g : UnpackedFloat} (hf : Unsigned f) (hg : Unsigned g)
    (h : f.beq g = true) : f = g := by
  unfold UnpackedFloat.beq at h
  cases hf with
  | infinity =>
    cases hg with
    | infinity => rfl
    | finite | zero => cases h
  | zero =>
    cases hg with
    | zero => rfl
    | finite | infinity => cases h
  | finite m e hm =>
    cases hg with
    | finite m' e' hm' =>
      change (some ((compare e e').then (compare m m')) == some .eq) = true at h
      simp only [beq_iff_eq, Option.some.injEq, Ordering.then_eq_eq, Int.compare_eq_eq,
        Nat.compare_eq_eq] at h
      obtain ⟨rfl, rfl⟩ := h
      rfl
    | infinity | zero => cases h

theorem IsMagnitude.eq_of_beq {x y : Float} (hx : IsMagnitude x) (hy : IsMagnitude y)
    (h : (x == y) = true) : x = y := by
  have hunpacked : UnpackedFloat.unpack binary64 x.toBits.toBitVec =
      UnpackedFloat.unpack binary64 y.toBits.toBitVec :=
    (unsigned_unpack hx).eq_of_beq (unsigned_unpack hy) h
  apply toBits_inj
  apply UInt64.toNat_inj.mp
  calc x.toBits.toNat = bitsOf (UnpackedFloat.unpack binary64 x.toBits.toBitVec) :=
        (bitsOf_unpack hx).symm
    _ = bitsOf (UnpackedFloat.unpack binary64 y.toBits.toBitVec) := by rw [hunpacked]
    _ = y.toBits.toNat := bitsOf_unpack hy

end Scriptlet.Number
