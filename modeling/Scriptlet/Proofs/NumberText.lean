import Mathlib.Data.Nat.Cast.Field
import Scriptlet.Proofs.Numerals
import Scriptlet.Proofs.ShortestDecimals

namespace Scriptlet.Number

def IsNumeral (c : Char) : Prop :=
  c.isDigit ∨ c = '.' ∨ c = 'e' ∨ c = '+' ∨ c = '-'

instance (c : Char) : Decidable (IsNumeral c) :=
  inferInstanceAs (Decidable (_ ∨ _))

def pointed (fraction : List Char) : List Char :=
  if fraction = [] then [] else '.' :: fraction

inductive Spells : List Char → ℚ → Prop
  | numeral {whole fraction ending : List Char} {e : Int} (hwhole : ∀ c ∈ whole, c.isDigit)
      (hfraction : ∀ c ∈ fraction, c.isDigit) (hending : ∀ c ∈ ending, IsNumeral c)
      (he : exponent? ending = some e) (hne : whole ≠ [] ∨ ending ≠ []) :
      Spells (whole ++ pointed fraction ++ ending)
        (ofDigits 10 (whole ++ fraction) * 10 ^ (e - fraction.length))

def textValue (text : List Char) : ℚ :=
  let whole := text.takeWhile Char.isDigit
  match text.dropWhile Char.isDigit with
  | '.' :: rest =>
    let fraction := rest.takeWhile Char.isDigit
    ofDigits 10 (whole ++ fraction) *
      10 ^ ((exponent? (rest.dropWhile Char.isDigit)).getD 0 - fraction.length)
  | rest => ofDigits 10 whole * 10 ^ (exponent? rest).getD 0

theorem takeWhile_digits {ds rest : List Char} (hds : ∀ c ∈ ds, c.isDigit)
    (hrest : ∀ c ∈ rest.head?, ¬c.isDigit) :
    (ds ++ rest).takeWhile Char.isDigit = ds ∧ (ds ++ rest).dropWhile Char.isDigit = rest := by
  rw [List.takeWhile_append_of_pos hds, List.dropWhile_append_of_pos hds]
  cases rest with
  | nil => simp
  | cons c rest =>
    have hc : ¬c.isDigit = true := hrest c rfl
    rw [List.takeWhile_cons_of_neg hc, List.dropWhile_cons_of_neg hc, List.append_nil]
    exact ⟨rfl, rfl⟩

theorem head_of_exponent {ending : List Char} {e : Int} (h : exponent? ending = some e) :
    ∀ c ∈ ending.head?, c = 'e' := by
  unfold exponent? at h
  split at h
  · exact fun _ hc => (Option.some.inj hc).symm
  · exact fun _ hc => (Option.some.inj hc).symm
  · exact fun _ hc => (Option.some.inj hc).symm
  · nofun
  · cases h

namespace Spells

variable {text : List Char} {q q' : ℚ}

theorem textValue_eq (h : Spells text q) : textValue text = q := by
  cases h with
  | @numeral whole fraction ending e hwhole hfraction _ he =>
    have hnodigit : ∀ c ∈ ending.head?, ¬c.isDigit := by
      intro c hc
      rw [head_of_exponent he c hc]
      decide
    unfold textValue pointed
    split
    · rename_i hnil
      obtain ⟨htake, hdrop⟩ := takeWhile_digits hwhole hnodigit
      rw [List.append_nil, htake, hdrop, hnil, List.append_nil, List.length_nil]
      simp only
      split
      · cases head_of_exponent he '.' rfl
      · rw [he]
        simp
    · have hpoint : ∀ c ∈ ('.' :: (fraction ++ ending)).head?, ¬c.isDigit := by
        rintro _ ⟨⟩
        decide
      obtain ⟨htake, hdrop⟩ := takeWhile_digits hwhole hpoint
      obtain ⟨htake', hdrop'⟩ := takeWhile_digits hfraction hnodigit
      rw [List.append_assoc, List.cons_append, htake, hdrop]
      simp only
      rw [htake', hdrop', he]
      rfl

theorem unique (h : Spells text q) (h' : Spells text q') : q = q' :=
  h.textValue_eq.symm.trans h'.textValue_eq

theorem isNumeral (h : Spells text q) : text ≠ [] ∧ ∀ c ∈ text, IsNumeral c := by
  cases h with
  | numeral hwhole hfraction hending _ hne =>
    constructor
    · simp only [ne_eq, List.append_eq_nil_iff]
      tauto
    · intro c hc
      rw [List.mem_append, List.mem_append] at hc
      unfold pointed at hc
      rcases hc with (hc | hc) | hc
      · exact .inl (hwhole c hc)
      · split at hc
        · cases hc
        · rcases List.mem_cons.mp hc with rfl | hc
          · exact .inr (.inl rfl)
          · exact .inl (hfraction c hc)
      · exact hending c hc

end Spells

theorem spells_toDigits (n : Nat) : Spells (Nat.toDigits 10 n) n := by
  have hdigits : ∀ c ∈ Nat.toDigits 10 n, c.isDigit := fun _ => isDigit_of_mem_toDigits
  have h : Spells (Nat.toDigits 10 n ++ pointed [] ++ []) _ :=
    .numeral hdigits nofun nofun rfl (.inl Nat.toDigits_ne_nil)
  simpa [pointed, ofDigits_toDigits] using h

theorem exponent_signed (place : Int) :
    exponent? ('e' :: (if place < 0 then '-' else '+') ::
      (zeros (2 - (Nat.toDigits 10 place.natAbs).length) ++ Nat.toDigits 10 place.natAbs)) =
        some place := by
  have hread (n : Nat) : ofDigits 10 (Nat.toDigits 10 n) = n :=
    ofDigits_toDigits (by decide) (by decide) n
  split
  · simp only [exponent?, ofDigits_zeros_append, hread]
    congr 1
    omega
  · simp only [exponent?, ofDigits_zeros_append, hread]
    congr 1
    omega

theorem ofDigits_zeros_mul (ds : List Char) (k : Nat) (e : Int) :
    (ofDigits 10 (ds ++ zeros k) : ℚ) * 10 ^ (e - k) = ofDigits 10 ds * 10 ^ e := by
  rw [ofDigits_append_zeros]
  push_cast
  rw [mul_assoc, ← zpow_natCast, ← zpow_add₀ (by norm_num), add_sub_cancel]

section

variable {digits : List Char} (hdigits : ∀ c ∈ digits, c.isDigit) (hne : digits ≠ []) (place : Int)

include hdigits hne

theorem spells_positional :
    Spells (positional digits place) (ofDigits 10 digits * 10 ^ (place + 1 - digits.length)) := by
  have hzero : ∀ c ∈ ['0'], c.isDigit := by simp
  have hlength : 0 < digits.length := List.length_pos_iff.mpr hne
  unfold positional
  split
  -- Zeros stand in front of the digits, behind them, or nowhere.
  · have hfraction : ∀ c ∈ zeros (-place - 1).toNat ++ digits, c.isDigit := by
      rw [List.forall_mem_append]
      exact ⟨fun _ => isDigit_of_mem_zeros, hdigits⟩
    have h : Spells (['0'] ++ pointed (zeros (-place - 1).toNat ++ digits) ++ []) _ :=
      .numeral hzero hfraction nofun rfl (.inl nofun)
    have hplace : (0 : Int) - (zeros (-place - 1).toNat ++ digits).length =
        place + 1 - digits.length := by
      rw [zeros, List.length_append, List.length_replicate]
      omega
    rw [hplace, ← List.append_assoc, ofDigits_append, show ['0'] ++ zeros _ = zeros (_ + 1) from rfl,
      ofDigits_zeros, Nat.zero_mul, Nat.zero_add] at h
    simpa [pointed, hne] using h
  · simp only
    set n := place.toNat + 1 with hn
    by_cases hlong : digits.length ≤ n
    · have hwhole : ∀ c ∈ digits ++ zeros (n - digits.length), c.isDigit := by
        rw [List.forall_mem_append]
        exact ⟨hdigits, fun _ => isDigit_of_mem_zeros⟩
      have h : Spells (digits ++ zeros (n - digits.length) ++ pointed ['0'] ++ []) _ :=
        .numeral hwhole hzero nofun rfl (.inl (List.append_ne_nil_of_left_ne_nil hne _))
      have hplace : (0 : Int) - ['0'].length =
          place + 1 - digits.length - (n - digits.length + 1 : Nat) := by
        rw [List.length_singleton]
        omega
      have hzeros : digits ++ zeros (n - digits.length) ++ ['0'] =
          digits ++ zeros (n - digits.length + 1) := by
        rw [List.append_assoc, zeros, ← List.replicate_succ', zeros]
      rw [hplace, hzeros, ofDigits_zeros_mul] at h
      rw [List.take_of_length_le hlong, List.drop_of_length_le hlong]
      simpa [pointed] using h
    · have hwhole : ∀ c ∈ digits.take n, c.isDigit := fun c hc => hdigits c (List.mem_of_mem_take hc)
      have hfraction : ∀ c ∈ digits.drop n, c.isDigit :=
        fun c hc => hdigits c (List.mem_of_mem_drop hc)
      have hfirst : digits.take n ≠ [] := by
        rw [ne_eq, List.take_eq_nil_iff, not_or]
        exact ⟨Nat.succ_ne_zero _, hne⟩
      have hrest : digits.drop n ≠ [] := by
        rw [ne_eq, List.drop_eq_nil_iff]
        exact hlong
      have h : Spells (digits.take n ++ pointed (digits.drop n) ++ []) _ :=
        .numeral hwhole hfraction nofun rfl (.inl hfirst)
      have hplace : (0 : Int) - (digits.drop n).length = place + 1 - digits.length := by
        rw [List.length_drop]
        omega
      rw [hplace, List.take_append_drop] at h
      have hzeros : zeros (n - digits.length) = [] := by
        rw [Nat.sub_eq_zero_of_le (by omega)]
        rfl
      rw [hzeros, List.append_nil]
      simpa [pointed, hrest] using h

theorem spells_scientific :
    Spells (scientific digits place) (ofDigits 10 digits * 10 ^ (place + 1 - digits.length)) := by
  have hwhole : ∀ c ∈ digits.take 1, c.isDigit := fun c hc => hdigits c (List.mem_of_mem_take hc)
  have hfraction : ∀ c ∈ digits.drop 1, c.isDigit := fun c hc => hdigits c (List.mem_of_mem_drop hc)
  have hending : ∀ c ∈ 'e' :: (if place < 0 then '-' else '+') ::
      (zeros (2 - (Nat.toDigits 10 place.natAbs).length) ++ Nat.toDigits 10 place.natAbs),
      IsNumeral c := by
    simp only [List.forall_mem_cons, List.forall_mem_append]
    refine ⟨by decide, ?_, fun c hc => .inl (isDigit_of_mem_zeros hc),
      fun c hc => .inl (isDigit_of_mem_toDigits hc)⟩
    split <;> decide
  have h := Spells.numeral hwhole hfraction hending (exponent_signed place) (.inr nofun)
  have hplace : place - (digits.drop 1).length = place + 1 - digits.length := by
    have hlength : 0 < digits.length := List.length_pos_iff.mpr hne
    rw [List.length_drop]
    omega
  have hpoint : pointed (digits.drop 1) =
      if digits.length ≤ 1 then [] else '.' :: digits.drop 1 := by
    simp only [pointed, List.drop_eq_nil_iff]
  rw [hplace, List.take_append_drop, hpoint] at h
  simpa [scientific] using h

end

theorem eq_append_zeros (ds : List Char) :
    ∃ k, ds = (ds.reverse.dropWhile (· = '0')).reverse ++ zeros k := by
  have hzeros : ds.reverse.takeWhile (· = '0') = zeros (ds.reverse.takeWhile (· = '0')).length :=
    List.eq_replicate_iff.mpr ⟨rfl, fun c hc => by
      simpa using List.all_eq_true.mp List.all_takeWhile c hc⟩
  refine ⟨(ds.reverse.takeWhile (· = '0')).length, ?_⟩
  calc
    ds = (ds.reverse.takeWhile (· = '0') ++ ds.reverse.dropWhile (· = '0')).reverse := by
      rw [List.takeWhile_append_dropWhile, List.reverse_reverse]
    _ = _ := by
      rw [List.reverse_append, hzeros]
      simp [zeros]

theorem leading_value (d : Decimal) : (∀ c ∈ (leading d).1, c.isDigit) ∧
    ofDigits 10 (leading d).1 * 10 ^ ((leading d).2 + 1 - (leading d).1.length) = d.value := by
  obtain ⟨k, hk⟩ := eq_append_zeros (Nat.toDigits 10 d.coefficient)
  have hplace : (leading d).2 = d.exponent + (Nat.toDigits 10 d.coefficient).length - 1 := rfl
  have hdigits : Nat.toDigits 10 d.coefficient = (leading d).1 ++ zeros k := hk
  constructor
  · intro c hc
    have hmem : c ∈ Nat.toDigits 10 d.coefficient := hdigits ▸ List.mem_append_left _ hc
    exact isDigit_of_mem_toDigits hmem
  · rw [hplace, hdigits, ← ofDigits_zeros_mul _ k, ← hdigits,
      ofDigits_toDigits (by decide) (by decide), Decimal.value, hdigits, List.length_append, zeros,
      List.length_replicate]
    congr 2
    push_cast
    ring

namespace Parts

variable {p : Parts}

theorem whole_value (hp : p.negative = false) {n : Int} (hn : p.whole? = some n) :
    ∃ m : Nat, n = m ∧ (m : ℚ) = p.value := by
  have htwo (e : Int) : (power 2 e : ℚ) = 2 ^ e * power 2 (-e) := power_eq two_ne_zero e
  unfold whole? at hn
  simp only [hp] at hn
  split at hn
  · rename_i hexponent
    refine ⟨_, (Option.some.inj hn).symm, ?_⟩
    have hone : power 2 (-p.exponent) = 1 := power_of_nonpos (by omega)
    rw [value, Nat.cast_mul, htwo, hone, Nat.cast_one, mul_one]
  · rename_i hexponent
    split at hn
    · rename_i hwhole
      refine ⟨_, (Option.some.inj hn).symm, ?_⟩
      have hone : power 2 p.exponent = 1 := power_of_nonpos (by omega)
      have hunit : (power 2 (-p.exponent) : ℚ) ≠ 0 := by
        exact_mod_cast (power_pos two_ne_zero (-p.exponent)).ne'
      have hscale : (1 : ℚ) = 2 ^ p.exponent * power 2 (-p.exponent) := by
        rw [← htwo, hone, Nat.cast_one]
      rw [Nat.cast_div (Nat.dvd_of_mod_eq_zero hwhole) hunit, value, div_eq_iff hunit, mul_assoc,
        ← hscale, mul_one]
    · cases hn

theorem whole_of_zero (hp : p.significand = 0) : p.whole? ≠ none := by
  unfold whole?
  simp only [hp]
  split
  · nofun
  · simp

theorem finiteLiteral_spells (hp : p.Canonical) (hs : p.significand ≠ 0) :
    ∃ q, Spells (finiteLiteral p) q ∧ p.Rounds q := by
  obtain ⟨hdigits, hvalue⟩ := leading_value (shortest p.significand p.exponent)
  have hrounds := rounds_shortest hp hs
  have hne : (leading (shortest p.significand p.exponent)).1 ≠ [] := by
    intro hnil
    rw [← hvalue, hnil] at hrounds
    have hlow := hrounds.low_le
    have hpos := p.quarter_pos
    have hbelow : (p.below : ℚ) ≤ 2 := by exact_mod_cast p.below_le_two
    have hone : (1 : ℚ) ≤ p.significand := by exact_mod_cast Nat.pos_of_ne_zero hs
    unfold low at hlow
    simp [ofDigits] at hlow
    nlinarith
  refine ⟨_, ?_, hrounds⟩
  rw [← hvalue]
  unfold finiteLiteral
  rw [if_neg hs, hp.negative]
  simp only [Bool.false_eq_true, if_false]
  split
  · exact spells_positional hdigits hne _
  · exact spells_scientific hdigits hne _

end Parts

variable {x y : Float}

theorem spells_display {p : Parts} (hp : p.Canonical) (h : shape x = .finite p) :
    ∃ q, Spells (display x).toList q ∧ p.Rounds q := by
  unfold display whole?
  rw [h]
  simp only
  cases hwhole : p.whole? with
  | some n =>
    obtain ⟨m, rfl, hm⟩ := Parts.whole_value hp.negative hwhole
    refine ⟨m, ?_, hm ▸ p.rounds_value⟩
    have htext : (toString (m : Int)).toList = Nat.toDigits 10 m := Nat.toList_repr
    simp only
    rw [htext]
    exact spells_toDigits m
  | none =>
    have hs : p.significand ≠ 0 := fun hzero => Parts.whole_of_zero hzero hwhole
    unfold literal
    rw [h]
    simp only [String.toList_ofList]
    exact Parts.finiteLiteral_spells hp hs

theorem display_infinite (h : shape x = .infinite false) : display x = "inf" := by
  unfold display whole? literal
  rw [h]
  rfl

namespace IsMagnitude

theorem display_chars (hx : IsMagnitude x) :
    display x = "inf" ∨ (display x).toList ≠ [] ∧ ∀ c ∈ (display x).toList, IsNumeral c := by
  rcases hx.shape_or with ⟨p, hp⟩ | ⟨hinf, -⟩
  · obtain ⟨q, hq, -⟩ := spells_display (hx.shape_finite hp).1 hp
    exact .inr hq.isNumeral
  · exact .inl (display_infinite hinf)

theorem display_ne_infinite (hx : IsMagnitude x) {p : Parts} (h : shape x = .finite p) :
    display x ≠ "inf" := by
  obtain ⟨q, hq, -⟩ := spells_display (hx.shape_finite h).1 h
  intro htext
  rw [htext] at hq
  exact absurd (hq.isNumeral.2 'i' (by decide)) (by decide)

theorem display_inj (hx : IsMagnitude x) (hy : IsMagnitude y) (h : display x = display y) :
    x = y := by
  rcases hx.shape_or with ⟨p, hp⟩ | ⟨hinf, hbits⟩
  · rcases hy.shape_or with ⟨p', hp'⟩ | ⟨hinf', -⟩
    · obtain ⟨hcanonical, -⟩ := hx.shape_finite hp
      obtain ⟨hcanonical', -⟩ := hy.shape_finite hp'
      obtain ⟨q, hq, hrounds⟩ := spells_display hcanonical hp
      obtain ⟨q', hq', hrounds'⟩ := spells_display hcanonical' hp'
      rw [← h] at hq'
      obtain rfl := hq.unique hq'
      obtain rfl := hrounds.eq hcanonical hcanonical' hrounds'
      exact hx.eq_of_shape_finite hy hp hp'
    · exact absurd (h.trans (display_infinite hinf')) (hx.display_ne_infinite hp)
  · rcases hy.shape_or with ⟨p', hp'⟩ | ⟨-, hbits'⟩
    · exact absurd (h.symm.trans (display_infinite hinf)) (hy.display_ne_infinite hp')
    · exact toBits_inj (UInt64.toNat_inj.mp (hbits.trans hbits'.symm))

end IsMagnitude

end Scriptlet.Number
