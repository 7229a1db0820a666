import Mathlib.Algebra.Ring.Nat
import Scriptlet.Proofs.QuotedText

namespace Scriptlet

inductive Sexp
  | word (w : String)
  | quoted (s : String)
  | group (es : List Sexp)

namespace Sexp

mutual

def chars : Sexp → List Char
  | word w => w.toList
  | quoted s => (Text.quoted s).toList
  | group es => '(' :: ([' '].intercalate (rows es) ++ [')'])
termination_by structural e => e

def rows : List Sexp → List (List Char)
  | [] => []
  | e :: es => e.chars :: rows es
termination_by structural es => es

end

theorem rows_eq (es : List Sexp) : rows es = es.map chars := by
  induction es with
  | nil => rfl
  | cons e es ih => rw [rows, ih, List.map_cons]

def row (sep : Char) (es : List Sexp) : List Char :=
  [sep].intercalate (es.map chars)

def IsPlain (c : Char) : Prop :=
  c ≠ ' ' ∧ c ≠ '(' ∧ c ≠ ')' ∧ c ≠ '\n' ∧ ¬Text.IsQuote c

instance (c : Char) : Decidable (IsPlain c) :=
  inferInstanceAs (Decidable (c ≠ ' ' ∧ c ≠ '(' ∧ c ≠ ')' ∧ c ≠ '\n' ∧ ¬(c = '\'' ∨ c = '"')))

def IsWord (w : String) : Prop :=
  w.toList ≠ [] ∧ ∀ c ∈ w.toList, IsPlain c

instance (w : String) : Decidable (IsWord w) :=
  @instDecidableAnd _ _ _ (List.decidableBAll IsPlain w.toList)

inductive Clear : Sexp → Prop
  | word {w : String} (hw : IsWord w) : Clear (word w)
  | quoted (s : String) : Clear (quoted s)
  | group {es : List Sexp} (hes : ∀ e ∈ es, Clear e) : Clear (group es)

def Stops (xs : List Char) : Prop :=
  ∀ c ∈ xs.head?, ¬IsPlain c

def EndsRow (xs : List Char) : Prop :=
  ∀ c ∈ xs.head?, c = ')'

theorem EndsRow.stops {xs : List Char} (h : EndsRow xs) : Stops xs := by
  intro c hc
  rw [h c hc]
  decide

theorem chars_group (es : List Sexp) : (group es).chars = '(' :: (row ' ' es ++ [')']) := by
  rw [chars, rows_eq]
  rfl

theorem row_cons (sep : Char) (e : Sexp) (es : List Sexp) :
    row sep (e :: es) = e.chars ++ if es = [] then [] else sep :: row sep es := by
  cases es with
  | nil => simp [row]
  | cons f es => simp [row]

inductive Opens : Sexp → Char → Prop
  | word {w : String} {c : Char} (hc : IsPlain c) : Opens (word w) c
  | quoted {s : String} {c : Char} (hc : Text.IsQuote c) : Opens (quoted s) c
  | group {es : List Sexp} : Opens (group es) '('

theorem Clear.opens {e : Sexp} (h : e.Clear) : ∃ c cs, e.chars = c :: cs ∧ Opens e c := by
  cases h with
  | @word w hw =>
    obtain ⟨c, cs, hcs⟩ := List.exists_cons_of_ne_nil hw.1
    exact ⟨c, cs, by rw [chars, hcs], .word (hw.2 c (hcs ▸ List.mem_cons_self))⟩
  | quoted s =>
    obtain ⟨q, hq, hs⟩ := Text.quoted_eq s
    exact ⟨q, _, by rw [chars, hs], .quoted hq⟩
  | group => exact ⟨'(', _, chars_group _, .group⟩

theorem Clear.opens_of_append {e : Sexp} (h : e.Clear) {c : Char} {cs xs ys : List Char}
    (heq : c :: cs ++ xs = e.chars ++ ys) : Opens e c := by
  obtain ⟨d, ds, hd, hopens⟩ := h.opens
  rw [hd] at heq
  exact (List.cons.inj heq).1 ▸ hopens

theorem Opens.eq_word {e : Sexp} {c : Char} (h : e.Opens c) (hc : IsPlain c) :
    ∃ w, e = .word w := by
  cases h with
  | word => exact ⟨_, rfl⟩
  | quoted hquote => exact absurd hquote hc.2.2.2.2
  | group => exact absurd rfl hc.2.1

theorem Opens.eq_quoted {e : Sexp} {c : Char} (h : e.Opens c) (hc : Text.IsQuote c) :
    ∃ s, e = .quoted s := by
  cases h with
  | word hplain => exact absurd hc hplain.2.2.2.2
  | quoted => exact ⟨_, rfl⟩
  | group => rcases hc with h | h <;> cases h

theorem Opens.eq_group {e : Sexp} (h : e.Opens '(') : ∃ es, e = .group es := by
  cases h with
  | word hplain => exact absurd rfl hplain.2.1
  | quoted hquote => rcases hquote with h | h <;> cases h
  | group => exact ⟨_, rfl⟩

theorem Opens.ne_close {e : Sexp} {c : Char} (h : e.Opens c) : c ≠ ')' := by
  cases h with
  | word hc => exact hc.2.2.1
  | quoted hc => rcases hc with rfl | rfl <;> decide
  | group => decide

theorem word_append_inj {w w' : String} (hw : IsWord w) (hw' : IsWord w') {xs ys : List Char}
    (hxs : Stops xs) (hys : Stops ys) (h : w.toList ++ xs = w'.toList ++ ys) : w = w' ∧ xs = ys := by
  have hall {v : String} (hv : IsWord v) {zs : List Char} (hzs : Stops zs) :
      (v.toList ++ zs).takeWhile (fun c => decide (IsPlain c)) = v.toList := by
    rw [List.takeWhile_append_of_pos fun c hc => decide_eq_true (hv.2 c hc)]
    cases zs with
    | nil => rw [List.takeWhile_nil, List.append_nil]
    | cons z zs => rw [List.takeWhile_cons_of_neg (by simpa using hzs z rfl), List.append_nil]
  have heq : w.toList = w'.toList := by
    rw [← hall hw hxs, h, hall hw' hys]
  rw [heq] at h
  exact ⟨String.toList_inj.mp heq, List.append_cancel_left h⟩

theorem stops_rest {sep : Char} (hsep : ¬IsPlain sep) (es : List Sexp) {xs : List Char}
    (hxs : EndsRow xs) : Stops ((if es = [] then [] else sep :: row sep es) ++ xs) := by
  split
  · exact hxs.stops
  · intro c hc
    obtain rfl := Option.some.inj hc
    exact hsep

def Tells (a : Sexp) : Prop :=
  ∀ {b : Sexp} {xs ys : List Char}, b.Clear → Stops xs → Stops ys → a.chars ++ xs = b.chars ++ ys →
    a = b ∧ xs = ys

theorem row_cons_ne {sep : Char} {e : Sexp} (he : e.Clear) (es : List Sexp) {xs ys : List Char}
    (hxs : EndsRow xs) : xs ≠ row sep (e :: es) ++ ys := by
  obtain ⟨c, cs, hc, hopens⟩ := he.opens
  rw [row_cons, hc]
  rintro rfl
  exact hopens.ne_close (hxs c rfl)

theorem row_append_inj_of {as bs : List Sexp} {sep : Char} (hsep : sep = ' ' ∨ sep = '\n')
    (htells : ∀ a ∈ as, a.Tells) (has : ∀ a ∈ as, a.Clear) (hbs : ∀ b ∈ bs, b.Clear)
    {xs ys : List Char} (hxs : EndsRow xs) (hys : EndsRow ys)
    (h : row sep as ++ xs = row sep bs ++ ys) : as = bs ∧ xs = ys := by
  have hplain : ¬IsPlain sep := by
    rcases hsep with rfl | rfl <;> decide
  have hclose {zs : List Char} (hzs : EndsRow zs) (cs : List Char) : zs ≠ sep :: cs := by
    rintro rfl
    rcases hsep with rfl | rfl <;> cases hzs _ rfl
  induction as generalizing bs with
  | nil =>
    cases bs with
    | nil => exact ⟨rfl, h⟩
    | cons b bs => exact absurd h (row_cons_ne (List.forall_mem_cons.mp hbs).1 bs hxs)
  | cons a as ih =>
    cases bs with
    | nil => exact absurd h.symm (row_cons_ne (List.forall_mem_cons.mp has).1 as hys)
    | cons b bs =>
      obtain ⟨ha, has'⟩ := List.forall_mem_cons.mp has
      obtain ⟨hb, hbs'⟩ := List.forall_mem_cons.mp hbs
      obtain ⟨hfirst, htells'⟩ := List.forall_mem_cons.mp htells
      rw [row_cons, row_cons, List.append_assoc, List.append_assoc] at h
      obtain ⟨rfl, hrest⟩ := hfirst hb (stops_rest hplain as hxs) (stops_rest hplain bs hys) h
      -- A separator is no end of a row, so either both rows go on or both are over.
      by_cases hnil : as = [] <;> by_cases hnil' : bs = []
      · rw [if_pos hnil, if_pos hnil'] at hrest
        exact ⟨by rw [hnil, hnil'], hrest⟩
      · rw [if_pos hnil, if_neg hnil'] at hrest
        exact absurd hrest (hclose hxs _)
      · rw [if_neg hnil, if_pos hnil'] at hrest
        exact absurd hrest.symm (hclose hys _)
      · rw [if_neg hnil, if_neg hnil', List.cons_append, List.cons_append] at hrest
        obtain ⟨rfl, hend⟩ := ih htells' has' hbs' (List.cons.inj hrest).2
        exact ⟨rfl, hend⟩

theorem Clear.tells {a : Sexp} (ha : a.Clear) : a.Tells := by
  -- The first character tells words, strings and groups apart, and each is closed in its own way.
  induction ha with
  | @word w hw =>
    intro b xs ys hb hxs hys h
    obtain ⟨c, cs, hc, hopens⟩ := (Clear.word hw).opens
    rw [hc] at h
    cases hopens with
    | word hplain =>
      obtain ⟨w', rfl⟩ := (hb.opens_of_append h).eq_word hplain
      cases hb with
      | word hw' =>
        rw [← hc] at h
        obtain ⟨rfl, hrest⟩ := word_append_inj hw hw' hxs hys h
        exact ⟨rfl, hrest⟩
  | quoted s =>
    intro b xs ys hb _ _ h
    obtain ⟨c, cs, hc, hopens⟩ := (Clear.quoted s).opens
    rw [hc] at h
    cases hopens with
    | quoted hquote =>
      obtain ⟨t, rfl⟩ := (hb.opens_of_append h).eq_quoted hquote
      rw [← hc] at h
      obtain ⟨rfl, hrest⟩ := Text.quoted_append_inj h
      exact ⟨rfl, hrest⟩
  | group hes ih =>
    intro b xs ys hb _ _ h
    rw [chars_group] at h
    obtain ⟨fs, rfl⟩ := (hb.opens_of_append h).eq_group
    cases hb with
    | group hfs =>
      rw [chars_group, List.cons_append, List.cons_append, List.append_assoc,
        List.append_assoc] at h
      have hend (zs : List Char) : EndsRow ([')'] ++ zs) := fun _ hc => (Option.some.inj hc).symm
      obtain ⟨rfl, hrest⟩ := row_append_inj_of (.inl rfl) (fun a ha => ih a ha) hes hfs (hend xs)
        (hend ys) (List.cons.inj h).2
      exact ⟨rfl, (List.cons.inj hrest).2⟩

theorem row_inj {as bs : List Sexp} {sep : Char} (hsep : sep = ' ' ∨ sep = '\n')
    (has : ∀ a ∈ as, a.Clear) (hbs : ∀ b ∈ bs, b.Clear) (h : row sep as = row sep bs) : as = bs := by
  have hends : EndsRow [] := nofun
  rw [← List.append_nil (row sep as), ← List.append_nil (row sep bs)] at h
  exact (row_append_inj_of hsep (fun a ha => (has a ha).tells) has hbs hends hends h).1

end Sexp

end Scriptlet
