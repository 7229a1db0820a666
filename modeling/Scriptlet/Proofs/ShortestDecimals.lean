import Scriptlet.Proofs.NumberRange
import Scriptlet.Proofs.RoundingIntervals

namespace Scriptlet.Number

def Decimal.value (d : Decimal) : ℚ :=
  d.coefficient * 10 ^ d.exponent

theorem lt_pow_digitCount (n : Nat) : n < 10 ^ digitCount n := by
  unfold digitCount
  split
  · rename_i h
    rw [h]
    decide
  · exact (Nat.length_toDigits_le_iff (by decide) Nat.length_toDigits_pos).mp (Nat.le_refl _)

theorem pow_digitCount_le {n : Nat} (hn : 0 < n) : 10 ^ (digitCount n - 1) ≤ n := by
  rw [digitCount, if_neg (by omega)]
  by_cases hone : (Nat.toDigits 10 n).length - 1 = 0
  · rw [hone]
    exact hn
  · by_contra hlt
    have := (Nat.length_toDigits_le_iff (b := 10) (by decide) (Nat.pos_of_ne_zero hone)).mpr
      (Nat.not_le.mp hlt)
    omega

theorem decimalExponent_le {num den : Nat} (hnum : 0 < num) (hden : 0 < den) :
    (10 : ℚ) ^ decimalExponent num den * den ≤ num := by
  unfold decimalExponent
  split
  · rename_i hle
    have hpos : 0 < num / den := Nat.div_pos hle hden
    have hcount : 0 < digitCount (num / den) := by
      rw [digitCount, if_neg (by omega)]
      exact Nat.length_toDigits_pos
    have hpow : 10 ^ (digitCount (num / den) - 1) * den ≤ num :=
      le_trans (Nat.mul_le_mul_right den (pow_digitCount_le hpos)) (Nat.div_mul_le_self num den)
    rw [show (digitCount (num / den) : Int) - 1 = (digitCount (num / den) - 1 : Nat) by omega,
      zpow_natCast]
    exact_mod_cast hpow
  · set above := (den + num - 1) / num - 1 with habove
    have hcover : den ≤ num * (above + 1) := by
      have hmod := Nat.div_add_mod (den + num - 1) num
      have hlt := Nat.mod_lt (den + num - 1) hnum
      have hone : 1 ≤ (den + num - 1) / num := (Nat.one_le_div_iff hnum).mpr (by omega)
      rw [habove, Nat.sub_add_cancel hone]
      omega
    have hpow : den ≤ num * 10 ^ digitCount above :=
      le_trans hcover (Nat.mul_le_mul_left num (lt_pow_digitCount above))
    have hpow' : (den : ℚ) ≤ num * 10 ^ digitCount above := by exact_mod_cast hpow
    rw [zpow_neg, zpow_natCast, inv_mul_le_iff₀ (by positivity)]
    linarith

namespace Parts

variable {p : Parts} {d : Decimal}

theorem rounds_iff {q : ℚ} : p.Rounds q ↔
    (if p.significand % 2 = 0 then p.low ≤ q ∧ q ≤ p.high else p.low < q ∧ q < p.high) := by
  split
  · rename_i heven
    exact ⟨fun h => ⟨h.low_le, h.le_high⟩, fun h => ⟨h.1, h.2, fun hodd => by omega⟩⟩
  · rename_i hodd
    exact ⟨fun h => h.odd (by omega), fun h => ⟨h.1.le, h.2.le, fun _ => h⟩⟩

theorem contains_iff (hp : p.significand ≠ 0) :
    (neighbourhood p.significand p.exponent).contains d = true ↔ p.Rounds d.value := by
  have htwo (e : Int) : (power 2 e : ℚ) = 2 ^ e * power 2 (-e) := power_eq two_ne_zero e
  have hten (e : Int) : (power 10 e : ℚ) = 10 ^ e * power 10 (-e) := power_eq (by decide) e
  -- Both sides are compared after they are multiplied by what makes them whole.
  have hscale : (0 : ℚ) < power 2 (-(p.exponent - 2)) * power 10 (-d.exponent) := by
    exact_mod_cast Nat.mul_pos (power_pos (by decide) _) (power_pos (by decide) _)
  generalize hs : (power 2 (-(p.exponent - 2)) * power 10 (-d.exponent) : ℚ) = scale at hscale
  have hend (k : Nat) : ((k * power 2 (p.exponent - 2) * power 10 (-d.exponent) : Nat) : ℚ) =
      k * p.quarter * scale := by
    rw [Nat.cast_mul, Nat.cast_mul, htwo, ← hs, quarter]
    ring
  have hmiddle : ((d.coefficient * power 10 d.exponent * power 2 (-(p.exponent - 2)) : Nat) : ℚ) =
      d.value * scale := by
    rw [Nat.cast_mul, Nat.cast_mul, hten, ← hs, Decimal.value]
    ring
  have hlow : ((4 * p.significand - p.below : Nat) : ℚ) * p.quarter = p.low := by
    have := p.below_le_two
    rw [low, Nat.cast_sub (by omega)]
    push_cast
    rfl
  have hhigh : ((4 * p.significand + 2 : Nat) : ℚ) * p.quarter = p.high := by
    rw [high]
    push_cast
    rfl
  have hends : neighbourhood p.significand p.exponent =
      ⟨(4 * p.significand - p.below) * power 2 (p.exponent - 2),
        4 * p.significand * power 2 (p.exponent - 2),
        (4 * p.significand + 2) * power 2 (p.exponent - 2), power 2 (-(p.exponent - 2)),
        p.significand % 2 = 0⟩ := rfl
  have hle {m n : Nat} {x y : ℚ} (hm : (m : ℚ) = x * scale) (hn : (n : ℚ) = y * scale) :
      (m ≤ n ↔ x ≤ y) ∧ (m < n ↔ x < y) := by
    constructor
    · rw [← mul_le_mul_iff_left₀ hscale, ← hm, ← hn, Nat.cast_le]
    · rw [← mul_lt_mul_iff_left₀ hscale, ← hm, ← hn, Nat.cast_lt]
  rw [rounds_iff, Neighbourhood.contains, hends, ← hlow, ← hhigh]
  simp only [decide_eq_true_eq]
  split
  · rw [Bool.and_eq_true, decide_eq_true_eq, decide_eq_true_eq, (hle (hend _) hmiddle).1,
      (hle hmiddle (hend _)).1]
  · rw [Bool.and_eq_true, decide_eq_true_eq, decide_eq_true_eq, (hle (hend _) hmiddle).2,
      (hle hmiddle (hend _)).2]

theorem contains_of_onGrid {h : Neighbourhood} {n : Nat} (hd : h.onGrid? n = some d) :
    h.contains d = true := by
  unfold Neighbourhood.onGrid? at hd
  simp only at hd
  split at hd
  · rename_i hbelow habove
    obtain rfl := Option.some.inj hd
    set num := h.value * power 10 (-(decimalExponent h.value h.den + 1 - n))
    set den := h.den * power 10 (decimalExponent h.value h.den + 1 - n)
    have hle := le_roundDiv num den
    have hge := roundDiv_le_succ num den
    rcases Nat.eq_or_lt_of_le hle with heq | hlt
    · rw [← heq]
      exact hbelow
    · rw [show roundDiv num den = num / den + 1 by omega]
      exact habove
  · rename_i hbelow _
    exact Option.some.inj hd ▸ hbelow
  · rename_i habove
    exact Option.some.inj hd ▸ habove
  · cases hd

theorem grid_bounds {h : Neighbourhood} {v : ℚ} (hden : 0 < h.den)
    (hv : (h.value : ℚ) = v * h.den) (e : Int) {f : Nat}
    (hf : f = h.value * power 10 (-e) / (h.den * power 10 e)) :
    f * 10 ^ e ≤ v ∧ v < (f + 1) * 10 ^ e := by
  have hten : (power 10 e : ℚ) = 10 ^ e * power 10 (-e) := power_eq (by decide) e
  have hscale : (0 : ℚ) < h.den * power 10 (-e) := by
    exact_mod_cast Nat.mul_pos hden (power_pos (by decide) _)
  have hunit : 0 < h.den * power 10 e := Nat.mul_pos hden (power_pos (by decide) _)
  have hle : f * (h.den * power 10 e) ≤ h.value * power 10 (-e) := hf ▸ Nat.div_mul_le_self _ _
  have hlt : h.value * power 10 (-e) < (h.den * power 10 e) * (f + 1) :=
    hf ▸ Nat.lt_mul_div_succ _ hunit
  have hle' : (f : ℚ) * (h.den * power 10 e) ≤ h.value * power 10 (-e) := by exact_mod_cast hle
  have hlt' : (h.value : ℚ) * power 10 (-e) < (h.den * power 10 e) * (f + 1) := by
    exact_mod_cast hlt
  rw [hten, hv] at hle' hlt'
  constructor
  · apply le_of_mul_le_mul_right _ hscale
    linarith
  · apply lt_of_mul_lt_mul_right _ hscale.le
    linarith

theorem rounds_grid (hp : p.Canonical) {f g : ℚ} (hg : 10 ^ 16 * g ≤ p.value)
    (hle : f * g ≤ p.value) (hlt : p.value < (f + 1) * g) :
    p.Rounds (f * g) ∨ p.Rounds ((f + 1) * g) := by
  have hpos := p.quarter_pos
  have hinside {q : ℚ} (hlow : p.low < q) (hhigh : q < p.high) : p.Rounds q :=
    ⟨hlow.le, hhigh.le, fun _ => ⟨hlow, hhigh⟩⟩
  have hbelow : (1 : ℚ) ≤ p.below := by exact_mod_cast p.one_le_below
  have hsmall : (p.significand : ℚ) ≤ 2 * hiddenBit := by exact_mod_cast hp.lt.le
  rw [value_eq] at hg hle hlt
  unfold hiddenBit at hsmall
  push_cast at hsmall
  have hwidth : g < 4 * p.quarter := by nlinarith
  -- The lower point is taken only where the interval is as long below as above.
  by_cases hnear : p.below = 2 ∧ p.low < f * g
  · refine .inl (hinside hnear.2 ?_)
    unfold high
    nlinarith
  · refine .inr (hinside ?_ ?_)
    · unfold low
      nlinarith
    · have hhalf : (f + 1) * g < 4 * p.significand * p.quarter + 2 * p.quarter := by
        by_cases htwo : p.below = 2
        · have hfar : f * g ≤ p.low := not_lt.mp fun hlow => hnear ⟨htwo, hlow⟩
          rw [low, htwo] at hfar
          push_cast at hfar
          linarith
        · have htop : p.significand = hiddenBit := by
            by_contra hne
            exact htwo (if_neg fun h => hne h.1)
          rw [htop, hiddenBit] at hg hle ⊢
          push_cast at hg hle ⊢
          linarith
      unfold high
      linarith

theorem exists_onGrid (hp : p.Canonical) (hs : p.significand ≠ 0) :
    ∃ d, (neighbourhood p.significand p.exponent).onGrid? 17 = some d := by
  set h := neighbourhood p.significand p.exponent with hh
  have hden : 0 < h.den := power_pos (by decide) _
  have hvalue : (h.value : ℚ) = p.value * h.den := by
    have htwo (e : Int) : (power 2 e : ℚ) = 2 ^ e * power 2 (-e) := power_eq two_ne_zero e
    rw [value_eq, hh]
    simp only [neighbourhood]
    push_cast
    rw [htwo, quarter]
    ring
  have hpos : 0 < h.value := by
    have htwo := power_pos two_ne_zero (p.exponent - 2)
    exact Nat.mul_pos (by omega) htwo
  have hleast := decimalExponent_le hpos hden
  unfold Neighbourhood.onGrid?
  simp only
  set e := decimalExponent h.value h.den + 1 - (17 : Nat) with he
  obtain ⟨hle, hlt⟩ := grid_bounds hden hvalue e rfl
  have hgrid : (10 : ℚ) ^ 16 * 10 ^ e ≤ p.value := by
    have hpow : (10 : ℚ) ^ 16 * 10 ^ e = 10 ^ decimalExponent h.value h.den := by
      rw [← zpow_natCast, ← zpow_add₀ (by norm_num), he]
      congr 1
      push_cast
      ring
    rw [hvalue, ← hpow] at hleast
    exact le_of_mul_le_mul_right hleast (by exact_mod_cast hden)
  have hnear := rounds_grid hp hgrid hle hlt
  set f := h.value * power 10 (-e) / (h.den * power 10 e)
  have hbelow : h.contains ⟨f, e⟩ = true ↔ p.Rounds (f * 10 ^ e) := contains_iff hs
  have habove : h.contains ⟨f + 1, e⟩ = true ↔ p.Rounds ((f + 1) * 10 ^ e) := by
    rw [hh, contains_iff hs, Decimal.value]
    push_cast
    rfl
  rw [← hbelow, ← habove] at hnear
  cases hb : h.contains ⟨f, e⟩ <;> cases ha : h.contains ⟨f + 1, e⟩
  · simp [hb, ha] at hnear
  · exact ⟨_, rfl⟩
  · exact ⟨_, rfl⟩
  · exact ⟨_, rfl⟩

theorem rounds_shortest (hp : p.Canonical) (hs : p.significand ≠ 0) :
    p.Rounds (shortest p.significand p.exponent).value := by
  rw [← contains_iff hs]
  unfold shortest
  simp only
  cases hfound : (List.range 17).findSome?
      fun n => (neighbourhood p.significand p.exponent).onGrid? (n + 1) with
  | none =>
    obtain ⟨d, hd⟩ := exists_onGrid hp hs
    have hnone := List.findSome?_eq_none_iff.mp hfound 16 (by decide)
    rw [hd] at hnone
    cases hnone
  | some d =>
    obtain ⟨n, -, hn⟩ := List.exists_of_findSome?_eq_some hfound
    exact contains_of_onGrid hn

end Parts

end Scriptlet.Number
