import Scriptlet.Syntax.Cursor

namespace Scriptlet.Cursor

def Passes : Cursor → List Token → Cursor → Prop
  | c, [], d => c = d
  | c, t :: ts, d =>
    c.current = t ∧ t.kind ≠ .endOfInput ∧ ∃ c', c.advance = .ok c' ∧ Passes c' ts d

@[simp]
theorem passes_nil {c d : Cursor} : c.Passes [] d ↔ c = d := Iff.rfl

theorem passes_cons {c d : Cursor} {t : Token} {ts : List Token} :
    c.Passes (t :: ts) d ↔
      c.current = t ∧ t.kind ≠ .endOfInput ∧ ∃ c', c.advance = .ok c' ∧ c'.Passes ts d := Iff.rfl

theorem passes_append {c d : Cursor} {ts us : List Token} :
    c.Passes (ts ++ us) d ↔ ∃ c', c.Passes ts c' ∧ c'.Passes us d := by
  induction ts generalizing c with
  | nil => simp
  | cons t ts ih =>
    simp only [List.cons_append, passes_cons, ih]
    constructor
    · rintro ⟨ht, hk, c₁, h₁, c₂, h₂, h⟩
      exact ⟨c₂, ⟨ht, hk, c₁, h₁, h₂⟩, h⟩
    · rintro ⟨c₂, ⟨ht, hk, c₁, h₁, h₂⟩, h⟩
      exact ⟨ht, hk, c₁, h₁, c₂, h₂, h⟩

theorem Passes.append {c c' d : Cursor} {ts us : List Token} (h : c.Passes ts c')
    (h' : c'.Passes us d) : c.Passes (ts ++ us) d :=
  passes_append.mpr ⟨c', h, h'⟩

theorem Passes.cons_inv {c d : Cursor} {t : Token} {ts : List Token} (h : c.Passes (t :: ts) d) :
    ∃ c', c.Passes [t] c' ∧ c'.Passes ts d :=
  passes_append.mp (show c.Passes ([t] ++ ts) d from h)

theorem advance_current {c c' : Cursor} (h : c.advance = .ok c') : c'.current = c.next := by
  unfold advance at h
  cases hp : pull (some c.next) c.rest c.error with
  | error e => simp [hp, bind, Except.bind] at h
  | ok p =>
    simp only [hp, bind, Except.bind, pure, Except.pure, Except.ok.injEq] at h
    rw [← h]

theorem Passes.next {c d : Cursor} {t u : Token} {ts : List Token} (h : c.Passes (t :: u :: ts) d) :
    c.next = u := by
  obtain ⟨-, -, c', hc, hu, -⟩ := h
  rw [← advance_current hc, hu]

def Faces : Cursor → List Token → Token → Prop
  | c, [], e => c.error = none ∧ c.current = e
  | c, t :: ts, e => c.error = none ∧ c.current = t ∧ ∃ c', c.advance = .ok c' ∧ Faces c' ts e

section

variable {c d : Cursor} {e t : Token} {ts us : List Token}

theorem Faces.error (h : c.Faces ts e) : c.error = none := by
  cases ts with
  | nil => exact h.1
  | cons t ts => exact h.1

theorem Faces.current_nil (h : c.Faces [] e) : c.current = e :=
  h.2

theorem Faces.advance (h : c.Faces (t :: ts) e) :
    c.current = t ∧ ∃ c', c.advance = .ok c' ∧ c'.Faces ts e :=
  h.2

theorem faces_of_eq (herror : c.error = none) (h : c.current :: c.next :: c.rest = ts ++ e :: us) :
    c.Faces ts e := by
  induction ts generalizing c us with
  | nil => exact ⟨herror, (List.cons.inj h).1⟩
  | cons t ts ih =>
    obtain ⟨current, next, rest, error⟩ := c
    obtain rfl : error = none := herror
    obtain ⟨ht, h⟩ := List.cons.inj h
    refine ⟨rfl, ht, ?_⟩
    cases rest with
    | cons u rest => exact ⟨⟨next, u, rest, none⟩, rfl, ih rfl h⟩
    | nil =>
      have hend : next :: next.endBehind :: [] = ts ++ e :: (us ++ [next.endBehind]) := by
        simpa using congrArg (· ++ [next.endBehind]) h
      exact ⟨⟨next, next.endBehind, [], none⟩, rfl, ih rfl hend⟩

theorem Faces.passes (h : c.Faces (ts ++ us) e) (hts : ∀ t ∈ ts, t.kind ≠ .endOfInput) :
    ∃ d, c.Passes ts d ∧ d.Faces us e := by
  induction ts generalizing c with
  | nil => exact ⟨c, rfl, h⟩
  | cons t ts ih =>
    obtain ⟨ht, c', hc, h'⟩ := h.advance
    obtain ⟨d, hp, hd⟩ := ih h' (fun t ht => hts t (List.mem_cons_of_mem _ ht))
    exact ⟨d, ⟨ht, hts t (List.mem_cons_self ..), c', hc, hp⟩, hd⟩

theorem Passes.faces (he : e.kind = .endOfInput) (hp : c.Passes us d) (h : c.Faces ts e) :
    ∃ vs, ts = us ++ vs ∧ d.Faces vs e := by
  induction us generalizing c ts with
  | nil => exact ⟨ts, rfl, hp ▸ h⟩
  | cons u us ih =>
    obtain ⟨hu, hk, c', hc, hp⟩ := hp
    cases ts with
    | nil =>
      rw [h.current_nil] at hu
      exact absurd (hu ▸ he) hk
    | cons t ts =>
      obtain ⟨ht, c'', hc', h'⟩ := h.advance
      rw [hc, Except.ok.injEq] at hc'
      subst hc'
      obtain ⟨vs, rfl, hd⟩ := ih hp h'
      exact ⟨vs, by rw [← hu, ht, List.cons_append], hd⟩

theorem ofStream_faces (he : e.kind = .endOfInput) :
    ∃ c, ofStream ⟨ts ++ e :: us, none⟩ = .ok c ∧ c.Faces ts e := by
  cases ts with
  | cons t ts =>
    cases ts with
    | cons u ts => exact ⟨⟨t, u, ts ++ e :: us, none⟩, rfl, faces_of_eq rfl rfl⟩
    | nil => exact ⟨⟨t, e, us, none⟩, rfl, faces_of_eq rfl rfl⟩
  | nil =>
    cases us with
    | cons u us => exact ⟨⟨e, u, us, none⟩, rfl, rfl, rfl⟩
    | nil =>
      refine ⟨⟨e, e, [], none⟩, ?_, rfl, rfl⟩
      simp [ofStream, pull, Token.endBehind, he, bind, Except.bind, pure, Except.pure]

end

end Scriptlet.Cursor
