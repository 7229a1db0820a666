import Mathlib.Algebra.Order.Field.Power
import Mathlib.Tactic.Linarith
import Mathlib.Tactic.NormNum
import Mathlib.Tactic.Ring
import Scriptlet.Number.Shortest
import Scriptlet.Proofs.Magnitudes

namespace Scriptlet.Number

theorem power_of_nonpos {base : Nat} {e : Int} (he : e ≤ 0) : power base e = 1 := by
  rw [power, Int.toNat_of_nonpos he]
  rfl

theorem power_eq {base : Nat} (hbase : base ≠ 0) (e : Int) :
    (power base e : ℚ) = (base : ℚ) ^ e * power base (-e) := by
  have hne : (base : ℚ) ≠ 0 := Nat.cast_ne_zero.mpr hbase
  obtain ⟨n, rfl | rfl⟩ := e.eq_nat_or_neg
  · simp [power]
  · simp [power, hne]

theorem power_pos {base : Nat} (hbase : base ≠ 0) (e : Int) : 0 < power base e :=
  Nat.pow_pos (Nat.pos_of_ne_zero hbase)

namespace Parts

structure Canonical (p : Parts) : Prop where
  negative : p.negative = false
  lt : p.significand < 2 * hiddenBit
  least : leastExponent ≤ p.exponent
  full : p.exponent ≠ leastExponent → hiddenBit ≤ p.significand

def bits (p : Parts) : Nat :=
  (p.exponent - leastExponent).toNat * hiddenBit + p.significand

def value (p : Parts) : ℚ :=
  p.significand * 2 ^ p.exponent

def quarter (p : Parts) : ℚ :=
  2 ^ (p.exponent - 2)

def below (p : Parts) : Nat :=
  if p.significand = hiddenBit ∧ leastExponent < p.exponent then 1 else 2

def low (p : Parts) : ℚ :=
  (4 * p.significand - p.below) * p.quarter

def high (p : Parts) : ℚ :=
  (4 * p.significand + 2) * p.quarter

structure Rounds (p : Parts) (q : ℚ) : Prop where
  low_le : p.low ≤ q
  le_high : q ≤ p.high
  odd : p.significand % 2 = 1 → p.low < q ∧ q < p.high

variable {p p' : Parts} {q : ℚ}

theorem quarter_pos (p : Parts) : 0 < p.quarter :=
  zpow_pos two_pos _

theorem one_le_below (p : Parts) : 1 ≤ p.below := by
  unfold below
  split <;> decide

theorem below_le_two (p : Parts) : p.below ≤ 2 := by
  unfold below
  split <;> decide

theorem value_eq (p : Parts) : p.value = 4 * p.significand * p.quarter := by
  have hexponent : (2 : ℚ) ^ p.exponent = 4 * p.quarter := by
    unfold quarter
    rw [zpow_sub₀ two_ne_zero]
    norm_num
    ring
  rw [value, hexponent]
  ring

theorem rounds_value (p : Parts) : p.Rounds p.value := by
  have hpos := p.quarter_pos
  have hbelow : (1 : ℚ) ≤ p.below := by exact_mod_cast p.one_le_below
  have hlow : p.low < p.value := by
    rw [value_eq, low]
    nlinarith
  have hhigh : p.value < p.high := by
    rw [value_eq, high]
    nlinarith
  exact ⟨hlow.le, hhigh.le, fun _ => ⟨hlow, hhigh⟩⟩

def Before (p p' : Parts) : Prop :=
  p.exponent < p'.exponent ∨ p.exponent = p'.exponent ∧ p.significand < p'.significand

theorem Canonical.before_or (hp : p.Canonical) (hp' : p'.Canonical) :
    p = p' ∨ p.Before p' ∨ p'.Before p := by
  obtain ⟨negative, significand, exponent⟩ := p
  obtain ⟨negative', significand', exponent'⟩ := p'
  obtain rfl : negative = false := hp.negative
  obtain rfl : negative' = false := hp'.negative
  unfold Before
  simp only [mk.injEq, true_and]
  omega

theorem high_le_low (hp : p.Canonical) (hp' : p'.Canonical) (h : p.Before p') :
    p.high ≤ p'.low ∧ (p.high = p'.low → p.significand % 2 = 1 ∨ p'.significand % 2 = 1) := by
  have hpos := p.quarter_pos
  have hbelow : (p'.below : ℚ) ≤ 2 := by exact_mod_cast p'.below_le_two
  unfold high low
  rcases h with hlt | ⟨heq, hlt⟩
  · have htwice : 2 * p.quarter ≤ p'.quarter := by
      unfold quarter
      rw [← zpow_one_add₀ two_ne_zero]
      exact zpow_le_zpow_right₀ one_le_two (by omega)
    have hleast : leastExponent < p'.exponent := lt_of_le_of_lt hp.least hlt
    have hfull := hp'.full (ne_of_gt hleast)
    have hsmall : (p.significand : ℚ) + 1 ≤ 2 * hiddenBit := by exact_mod_cast hp.lt
    -- Only at a power of two does the interval reach down to that of the number before.
    rcases Nat.eq_or_lt_of_le hfull with htop | hover
    · have hone : p'.below = 1 := if_pos ⟨htop.symm, hleast⟩
      rw [hone, ← htop]
      refine ⟨?_, fun hends => ?_⟩
      · unfold hiddenBit at *
        push_cast at *
        nlinarith
      · left
        by_contra heven
        have hless : (p.significand : ℚ) + 2 ≤ 2 * hiddenBit := by
          have := hp.lt
          have : p.significand + 2 ≤ 2 * hiddenBit := by
            unfold hiddenBit at *
            omega
          exact_mod_cast this
        unfold hiddenBit at *
        push_cast at *
        nlinarith
    · have hmore : (hiddenBit : ℚ) + 1 ≤ p'.significand := by exact_mod_cast hover
      have hapart : (4 * p.significand + 2) * p.quarter <
          (4 * p'.significand - p'.below) * p'.quarter := by
        unfold hiddenBit at *
        push_cast at *
        nlinarith
      exact ⟨hapart.le, fun hends => absurd hends hapart.ne⟩
  · have hsame : p'.quarter = p.quarter := by rw [quarter, quarter, heq]
    have hmore : (p.significand : ℚ) + 1 ≤ p'.significand := by exact_mod_cast hlt
    rw [hsame]
    refine ⟨by nlinarith, fun hends => ?_⟩
    by_contra heven
    have htwo : (p.significand : ℚ) + 2 ≤ p'.significand := by
      have : p.significand + 2 ≤ p'.significand := by omega
      exact_mod_cast this
    nlinarith

theorem not_before (hp : p.Canonical) (hp' : p'.Canonical) (h : p.Rounds q) (h' : p'.Rounds q) :
    ¬p.Before p' := by
  intro hbefore
  obtain ⟨hle, hends⟩ := high_le_low hp hp' hbefore
  have heq : p.high = p'.low := le_antisymm hle (le_trans h'.low_le h.le_high)
  rcases hends heq with hodd | hodd
  · exact absurd (lt_of_lt_of_le (h.odd hodd).2 hle) (not_lt_of_ge h'.low_le)
  · exact absurd (lt_of_le_of_lt hle (h'.odd hodd).1) (not_lt_of_ge h.le_high)

theorem Rounds.eq (hp : p.Canonical) (hp' : p'.Canonical) (h : p.Rounds q) (h' : p'.Rounds q) :
    p = p' := by
  rcases hp.before_or hp' with heq | hbefore | hbefore
  · exact heq
  · exact absurd hbefore (not_before hp hp' h h')
  · exact absurd hbefore (not_before hp' hp h' h)

end Parts

namespace IsMagnitude

variable {x y : Float} {p : Parts} {b : Bool}

theorem shape_finite (hx : IsMagnitude x) (h : shape x = .finite p) :
    p.Canonical ∧ x.toBits.toNat = p.bits := by
  unfold IsMagnitude at hx
  unfold shape at h
  generalize x.toBits.toNat = bits at hx h
  simp only [infinityBits, hiddenBit] at hx h
  have hsign : ¬signBit ≤ bits := by
    unfold signBit
    omega
  simp only [hsign, decide_false] at h
  split at h
  · split at h <;> cases h
  · split at h
    · obtain rfl := Shape.finite.inj h
      refine ⟨⟨rfl, ?_, le_refl _, fun hne => absurd rfl hne⟩, ?_⟩
      · simp only [hiddenBit]
        omega
      · simp only [Parts.bits, hiddenBit, leastExponent]
        omega
    · obtain rfl := Shape.finite.inj h
      refine ⟨⟨rfl, ?_, ?_, fun _ => ?_⟩, ?_⟩
      · simp only [hiddenBit]
        omega
      · simp only [leastExponent]
        omega
      · simp only [hiddenBit]
        omega
      · simp only [Parts.bits, hiddenBit, leastExponent]
        omega

theorem eq_of_shape_finite (hx : IsMagnitude x) (hy : IsMagnitude y) (h : shape x = .finite p)
    (h' : shape y = .finite p) : x = y :=
  toBits_inj (UInt64.toNat_inj.mp ((hx.shape_finite h).2.trans (hy.shape_finite h').2.symm))

theorem shape_or (hx : IsMagnitude x) :
    (∃ p, shape x = .finite p) ∨ shape x = .infinite false ∧ x.toBits.toNat = infinityBits := by
  unfold IsMagnitude at hx
  unfold shape
  generalize x.toBits.toNat = bits at hx ⊢
  simp only [infinityBits, hiddenBit] at hx ⊢
  have hsign : ¬signBit ≤ bits := by
    unfold signBit
    omega
  simp only [hsign, decide_false]
  split
  · rw [if_pos (by omega)]
    exact .inr ⟨rfl, by omega⟩
  · split
    · exact .inl ⟨_, rfl⟩
    · exact .inl ⟨_, rfl⟩

end IsMagnitude

end Scriptlet.Number
