import Mathlib.Algebra.Ring.Nat
import Scriptlet.Proofs.Numerals
import Scriptlet.Text.Quoted

namespace Scriptlet.Text

def ofHexDigits (digits : List Char) : Char :=
  .ofNat (Number.ofDigits 16 digits)

def readQuotedChar : List Char → Option (Char × List Char)
  | '\\' :: 'n' :: rest => some ('\n', rest)
  | '\\' :: 'r' :: rest => some ('\r', rest)
  | '\\' :: 't' :: rest => some ('\t', rest)
  | '\\' :: 'x' :: rest => some (ofHexDigits (rest.take 2), rest.drop 2)
  | '\\' :: 'u' :: rest => some (ofHexDigits (rest.take 4), rest.drop 4)
  | '\\' :: 'U' :: rest => some (ofHexDigits (rest.take 8), rest.drop 8)
  | '\\' :: c :: rest => some (c, rest)
  | c :: rest => some (c, rest)
  | [] => none

theorem length_hexPadded {width n : Nat} (hwidth : 0 < width) (h : n < 16 ^ width) :
    (hexPadded width n).length = width := by
  have hlength : (Nat.toDigits 16 n).length ≤ width :=
    (Nat.length_toDigits_le_iff (by decide) hwidth).mpr h
  rw [hexPadded, List.length_append, List.length_replicate]
  omega

theorem ofHexDigits_hexPadded (width : Nat) (c : Char) : ofHexDigits (hexPadded width c.toNat) = c := by
  unfold ofHexDigits hexPadded
  change Char.ofNat (Number.ofDigits 16 (Number.zeros _ ++ Nat.toDigits 16 c.toNat)) = c
  rw [Number.ofDigits_zeros_append, Number.ofDigits_toDigits (by decide) (by decide),
    Char.ofNat_toNat]

theorem hexPadded_append {width : Nat} {c : Char} (hwidth : 0 < width) (h : c.toNat < 16 ^ width)
    (rest : List Char) :
    ofHexDigits ((hexPadded width c.toNat ++ rest).take width) = c ∧
      (hexPadded width c.toNat ++ rest).drop width = rest := by
  have hlength := length_hexPadded hwidth h
  rw [List.take_left' hlength, List.drop_left' hlength]
  exact ⟨ofHexDigits_hexPadded width c, rfl⟩

theorem readQuotedChar_codeEscape (c : Char) (rest : List Char) :
    readQuotedChar (codeEscape c.toNat ++ rest) = some (c, rest) := by
  unfold codeEscape
  split
  · rename_i h
    obtain ⟨hc, hrest⟩ := hexPadded_append (Nat.succ_pos 1) h rest
    simp only [List.cons_append, readQuotedChar, hc, hrest]
  · split
    · rename_i h
      obtain ⟨hc, hrest⟩ := hexPadded_append (Nat.succ_pos 3) h rest
      simp only [List.cons_append, readQuotedChar, hc, hrest]
    · have h : c.toNat < 16 ^ 8 := UInt32.toNat_lt c.val
      obtain ⟨hc, hrest⟩ := hexPadded_append (Nat.succ_pos 7) h rest
      simp only [List.cons_append, readQuotedChar, hc, hrest]

def IsQuote (q : Char) : Prop :=
  q = '\'' ∨ q = '"'

variable {q : Char} (hq : IsQuote q)

include hq

theorem readQuotedChar_quotedChar (c : Char) (rest : List Char) :
    readQuotedChar (quotedChar q c ++ rest) = some (c, rest) := by
  unfold quotedChar
  split
  · rename_i hc
    rcases hc with rfl | rfl
    · rcases hq with rfl | rfl <;> rfl
    · rfl
  · rename_i hplain
    split
    · rename_i hc
      rw [hc]
      rfl
    · split
      · rename_i hc
        rw [hc]
        rfl
      · split
        · rename_i hc
          rw [hc]
          rfl
        · split
          · have hc : c ≠ '\\' := fun h => hplain (.inr h)
            rw [List.singleton_append]
            unfold readQuotedChar
            split <;> simp_all
          · exact readQuotedChar_codeEscape c rest

theorem quotedChar_ne_quote (c : Char) (xs ys : List Char) : quotedChar q c ++ xs ≠ q :: ys := by
  have hbackslash : '\\' ≠ q := by
    rcases hq with rfl | rfl <;> decide
  intro h
  have hhead := congrArg List.head? h
  unfold quotedChar codeEscape at hhead
  repeat' split at hhead
  all_goals
    obtain heq := Option.some.inj hhead
    first | exact hbackslash heq | simp_all

theorem quotedChars_append_inj {cs ds xs ys : List Char}
    (h : cs.flatMap (quotedChar q) ++ q :: xs = ds.flatMap (quotedChar q) ++ q :: ys) :
    cs = ds ∧ xs = ys := by
  induction cs generalizing ds with
  | nil =>
    cases ds with
    | nil => exact ⟨rfl, (List.cons.inj h).2⟩
    | cons d ds =>
      rw [List.flatMap_cons, List.append_assoc] at h
      exact absurd h.symm (quotedChar_ne_quote hq d _ _)
  | cons c cs ih =>
    rw [List.flatMap_cons, List.append_assoc] at h
    cases ds with
    | nil => exact absurd h (quotedChar_ne_quote hq c _ _)
    | cons d ds =>
      rw [List.flatMap_cons, List.append_assoc] at h
      have hread := congrArg readQuotedChar h
      rw [readQuotedChar_quotedChar hq, readQuotedChar_quotedChar hq, Option.some_inj,
        Prod.mk.injEq] at hread
      obtain ⟨rfl, hrest⟩ := ih hread.2
      exact ⟨by rw [hread.1], hrest⟩

omit hq

theorem quoted_eq (s : String) : ∃ q, IsQuote q ∧
    (quoted s).toList = q :: (s.toList.flatMap (quotedChar q) ++ [q]) := by
  unfold quoted
  simp only [String.toList_ofList]
  split
  · exact ⟨'"', .inr rfl, rfl⟩
  · exact ⟨'\'', .inl rfl, rfl⟩

theorem quoted_append_inj {s t : String} {xs ys : List Char}
    (h : (quoted s).toList ++ xs = (quoted t).toList ++ ys) : s = t ∧ xs = ys := by
  obtain ⟨q, hq, hs⟩ := quoted_eq s
  obtain ⟨q', -, ht⟩ := quoted_eq t
  rw [hs, ht, List.cons_append, List.cons_append, List.cons.injEq] at h
  obtain ⟨rfl, h⟩ := h
  rw [List.append_assoc, List.append_assoc] at h
  obtain ⟨hchars, hrest⟩ := quotedChars_append_inj hq h
  exact ⟨String.toList_inj.mp hchars, hrest⟩

end Scriptlet.Text
