import Mathlib.Algebra.Ring.Nat
import Scriptlet.Number.Text
import Scriptlet.Number.Reading

namespace Scriptlet.Number

theorem digitValue_digitChar {d : Nat} (h : d < 16) : digitValue d.digitChar = d := by
  have hall : ∀ i : Fin 16, digitValue (Nat.digitChar i) = i := by decide
  exact hall ⟨d, h⟩

theorem foldl_digits (base n : Nat) (ds : List Char) :
    ds.foldl (fun n c => base * n + digitValue c) n = n * base ^ ds.length + ofDigits base ds := by
  unfold ofDigits
  induction ds generalizing n with
  | nil => simp
  | cons d ds ih =>
    rw [List.foldl_cons, List.foldl_cons, ih, ih (base * 0 + digitValue d), List.length_cons, pow_succ]
    grind

theorem ofDigits_append (base : Nat) (cs ds : List Char) :
    ofDigits base (cs ++ ds) = ofDigits base cs * base ^ ds.length + ofDigits base ds := by
  rw [ofDigits, List.foldl_append, foldl_digits]
  rfl

theorem ofDigits_zeros (base n : Nat) : ofDigits base (zeros n) = 0 := by
  induction n with
  | zero => rfl
  | succ n ih =>
    have hzero : ofDigits base ['0'] = 0 := rfl
    rw [zeros, List.replicate_succ', ofDigits_append, hzero, ← zeros, ih, Nat.zero_mul]

theorem ofDigits_zeros_append (base n : Nat) (ds : List Char) :
    ofDigits base (zeros n ++ ds) = ofDigits base ds := by
  rw [ofDigits_append, ofDigits_zeros, Nat.zero_mul, Nat.zero_add]

theorem ofDigits_append_zeros (base n : Nat) (ds : List Char) :
    ofDigits base (ds ++ zeros n) = ofDigits base ds * base ^ n := by
  rw [ofDigits_append, ofDigits_zeros, Nat.add_zero, zeros, List.length_replicate]

theorem ofDigits_toDigits {base : Nat} (h : 1 < base) (h16 : base ≤ 16) (n : Nat) :
    ofDigits base (Nat.toDigits base n) = n := by
  induction n using Nat.strongRecOn with
  | ind n ih =>
    have hsingle {d : Nat} (hd : d < base) : ofDigits base [d.digitChar] = d := by
      change base * 0 + digitValue d.digitChar = d
      rw [digitValue_digitChar (Nat.lt_of_lt_of_le hd h16), Nat.mul_zero, Nat.zero_add]
    by_cases hn : n < base
    · rw [Nat.toDigits_of_lt_base hn, hsingle hn]
    · have hdiv : n / base < n := Nat.div_lt_self (by omega) h
      rw [Nat.toDigits_of_base_le h (Nat.not_lt.mp hn), ofDigits_append, ih _ hdiv,
        hsingle (Nat.mod_lt n (by omega)), List.length_singleton, pow_one, Nat.mul_comm]
      exact Nat.div_add_mod n base

theorem isDigit_of_mem_zeros {n : Nat} {c : Char} (h : c ∈ zeros n) : c.isDigit := by
  rw [List.eq_of_mem_replicate h]
  rfl

theorem isDigit_of_mem_toDigits {n : Nat} {c : Char} (h : c ∈ Nat.toDigits 10 n) : c.isDigit :=
  Nat.isDigit_of_mem_toDigits (by decide) (by decide) h

end Scriptlet.Number
