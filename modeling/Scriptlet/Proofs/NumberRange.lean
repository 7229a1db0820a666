import Scriptlet.Number.Binary
import Mathlib.Algebra.Ring.Nat

namespace Scriptlet.Number

theorem le_roundDiv (num den : Nat) : num / den ≤ roundDiv num den := by
  unfold roundDiv
  grind

theorem roundDiv_le_succ (num den : Nat) : roundDiv num den ≤ num / den + 1 := by
  unfold roundDiv
  grind

theorem roundDiv_le_iff {num den m : Nat} (hden : 0 < den) (hm : m % 2 = 1) :
    roundDiv num den ≤ m ↔ 2 * num < (2 * m + 1) * den := by
  have hnum : den * (num / den) + num % den = num := Nat.div_add_mod num den
  have hmod : num % den < den := Nat.mod_lt num hden
  have hhalf : (2 * m + 1) * den = 2 * (den * m) + den := by grind
  rw [hhalf]
  rcases Nat.lt_trichotomy (num / den) m with hlt | heq | hgt
  · have hround : roundDiv num den ≤ m := Nat.le_trans (roundDiv_le_succ num den) hlt
    have hle : den * (num / den) + den ≤ den * m := Nat.mul_le_mul_left den hlt
    exact iff_of_true hround (by omega)
  · have hround : roundDiv num den = if 2 * (num % den) < den then m else m + 1 := by
      unfold roundDiv
      grind
    rw [heq] at hnum
    rw [hround]
    split
    · exact iff_of_true (Nat.le_refl m) (by omega)
    · exact iff_of_false (Nat.not_succ_le_self m) (by omega)
  · have hround : m < roundDiv num den := Nat.lt_of_lt_of_le hgt (le_roundDiv num den)
    have hle : den * m + den ≤ den * (num / den) := Nat.mul_le_mul_left den hgt
    exact iff_of_false (Nat.not_le.mpr hround) (by omega)

section

variable {n : Nat} (hn : n ≠ 0)

include hn

theorem scaled_bounds (k : Nat) :
    2 ^ k ≤ n * power 2 (k - n.log2) / power 2 (n.log2 - k) ∧
      n * power 2 (k - n.log2) / power 2 (n.log2 - k) < 2 ^ (k + 1) := by
  have hlow : 2 ^ n.log2 ≤ n := Nat.log2_self_le hn
  have hhigh : n < 2 ^ (n.log2 + 1) := Nat.lt_log2_self
  unfold power
  simp only [Nat.pow_eq]
  rw [Nat.le_div_iff_mul_le (Nat.two_pow_pos _), Nat.div_lt_iff_lt_mul (Nat.two_pow_pos _)]
  have hexponents (j : Nat) :
      2 ^ (k + j) * 2 ^ ((n.log2 : Int) - k).toNat =
        2 ^ (n.log2 + j) * 2 ^ ((k : Int) - n.log2).toNat := by
    rw [← Nat.pow_add, ← Nat.pow_add]
    congr 1
    omega
  constructor
  · have hscaled := Nat.mul_le_mul_right (2 ^ ((k : Int) - n.log2).toNat) hlow
    exact Nat.le_trans (Nat.le_of_eq (hexponents 0)) hscaled
  · have hscaled := Nat.mul_lt_mul_of_pos_right hhigh (Nat.two_pow_pos ((k : Int) - n.log2).toNat)
    exact Nat.lt_of_lt_of_eq hscaled (hexponents 1).symm

theorem scale_one : scale n 1 = max leastExponent (n.log2 - 52) := by
  have hwide := (scaled_bounds hn 53).1
  have hlog : Nat.log2 1 = 0 := by decide
  have hneg : -((n.log2 : Int) - 53) = (53 : Nat) - n.log2 := by omega
  unfold scale
  simp only [hlog, Nat.one_mul, Int.natCast_zero, Int.sub_zero, hneg]
  rw [if_neg]
  · congr 1
    omega
  · exact Nat.not_lt.mpr hwide

theorem nearestBits_one :
    nearestBits n 1 = (n.log2 + 1022) * hiddenBit +
      roundDiv (n * power 2 ((52 : Nat) - n.log2)) (power 2 (n.log2 - (52 : Nat))) := by
  have hscale : scale n 1 = n.log2 - (52 : Nat) := by
    rw [scale_one hn, leastExponent]
    omega
  have hneg : -((n.log2 : Int) - (52 : Nat)) = (52 : Nat) - n.log2 := by omega
  have hfield : ((n.log2 : Int) - (52 : Nat) - leastExponent).toNat = n.log2 + 1022 := by
    rw [leastExponent]
    omega
  unfold nearestBits
  simp only [if_neg hn, hscale, hneg, hfield, Nat.one_mul]

end

theorem nearestFinite?_eq_none {n : Nat} : nearestFinite? n = none ↔ 2 ^ 1024 - 2 ^ 970 ≤ n := by
  have hbits : nearestFinite? n = none ↔ infinityBits ≤ nearestBits n 1 := by
    simp only [nearestFinite?]
    split <;> simp_all
  -- With a name for the exponent the powers of two stay as they are.
  obtain ⟨u, hu⟩ : ∃ u : Nat, u = 970 := ⟨970, rfl⟩
  have htop : 1024 = 54 + u := by omega
  rw [hbits, ← hu, htop, Nat.pow_add]
  have hpos : 0 < 2 ^ u := Nat.two_pow_pos u
  by_cases hn : n = 0
  · subst hn
    exact iff_of_false (by decide) (by omega)
  have hlow : 2 ^ n.log2 ≤ n := Nat.log2_self_le hn
  have hhigh : n < 2 ^ (n.log2 + 1) := Nat.lt_log2_self
  obtain ⟨hquotient, hquotient'⟩ := scaled_bounds hn 52
  rw [nearestBits_one hn]
  rcases Nat.lt_trichotomy n.log2 (53 + u) with hlt | heq | hgt
  · -- The significand may round up to a power of two, which is still finite.
    have hround := roundDiv_le_succ (n * power 2 ((52 : Nat) - n.log2)) (power 2 (n.log2 - (52 : Nat)))
    have hn' : n < 2 ^ (53 + u) := Nat.lt_of_lt_of_le hhigh (Nat.pow_le_pow_right (by decide) hlt)
    rw [Nat.pow_add] at hn'
    refine iff_of_false (Nat.not_le.mpr ?_) (by omega)
    simp only [infinityBits, hiddenBit]
    omega
  · -- The largest significand is odd, so half a unit above it the number is rounded up.
    have hup : power 2 ((52 : Nat) - n.log2) = 1 := by
      rw [heq, hu]
      rfl
    have hdown : power 2 (n.log2 - (52 : Nat)) = 2 ^ (1 + u) := by
      have hexponent : ((53 + u : Nat) - (52 : Nat) : Int).toNat = 1 + u := by omega
      rw [heq, power, hexponent, Nat.pow_eq]
    rw [hup, hdown, Nat.mul_one, heq]
    have hround : roundDiv n (2 ^ (1 + u)) ≤ 2 ^ 53 - 1 ↔
        2 * n < (2 * (2 ^ 53 - 1) + 1) * 2 ^ (1 + u) :=
      roundDiv_le_iff (Nat.two_pow_pos _) (by decide)
    rw [Nat.pow_add 2 1 u] at hround ⊢
    simp only [infinityBits, hiddenBit]
    omega
  · have hround := le_roundDiv (n * power 2 ((52 : Nat) - n.log2)) (power 2 (n.log2 - (52 : Nat)))
    have hn' : 2 ^ (54 + u) ≤ n := Nat.le_trans (Nat.pow_le_pow_right (by decide) (by omega)) hlow
    rw [Nat.pow_add] at hn'
    refine iff_of_true ?_ (by omega)
    simp only [infinityBits, hiddenBit]
    omega

end Scriptlet.Number
