import Scriptlet.Proofs.NestingThreshold

/-!
The bound on the length of sequences makes no difference as long as there are fewer tokens than that.
An error that says that the parser can follow no further does not tell a sequence that is too long from
rules that are too deep. So the rules are parsed once more with a mark where there is no room for them.
-/

namespace Scriptlet

open Scriptlet.Parser

def Rule.parseOr (last : Rule → Parser Node) : Nat → Rule → Parser Node
  | 0 => last
  | room + 1 => fun rule s c => Grammar.expand (parseOr last room) rule s c

theorem Rule.parse_eq_parseOr (room : Nat) : parse room = parseOr (fun _ => exhausted) room := by
  induction room with
  | zero => rfl
  | succ room ih =>
    funext rule s c
    rw [parse, parseOr, ih]

def Program.declarationsOr (last : Rule → Parser Node) (room : Nat) (maxNesting : Int) (length : Nat)
    (c : Cursor) : Except ParseError (List Node × Cursor) :=
  manyUntil [.endOfInput] (Rule.parseOr last room .declaration) length []
    ⟨maxNesting, 0, false, length⟩ c

def marked (N : Int) (_ : Rule) : Parser Node := do
  throw (.nesting (N + 1) (← current).pos)

def ParseError.unmark (N : Int) : ParseError → ParseError
  | .nesting limit pos => if limit = N then .nesting limit pos else .exhausted pos
  | e => e

namespace Reading

variable {σ : Reading} {last last' : Rule → Parser Node} {N : Int}

theorem parallel_parseOr (h : σ.Parallel last last') (room : Nat) :
    σ.Parallel (Rule.parseOr last room) (Rule.parseOr last' room) := by
  induction room with
  | zero => exact h
  | succ room ih => exact fun rule s s' c c' hs hc => beside_expand ih hs hc rule

theorem parallel_more_room (h : ∀ recur, σ.Parallel last recur) (room more : Nat) :
    σ.Parallel (Rule.parseOr last room) (Rule.parse (room + more)) := by
  induction room with
  | zero => exact h _
  | succ room ih =>
    rw [Nat.add_right_comm]
    exact fun rule s s' c c' hs hc => beside_expand ih hs hc rule

section

variable {same : ParseError → ParseError → Prop} {lost : ParseError → Prop}
  {hsame : ∀ e, (∀ limit pos, e ≠ .nesting limit pos) → same e e} {length length' : Nat}

theorem around_stream (hnesting : ∀ pos, same (.nesting N pos) (.nesting N pos))
    (hlength : (streamReading same lost hsame).Turns length length') :
    (streamReading same lost hsame).Around ⟨N, 0, false, length⟩ ⟨N, 0, false, length'⟩ where
  nesting := rfl
  inFunction := rfl
  length := hlength
  limit _ := id
  deep hp := .inr ⟨rfl, Option.some.inj hp ▸ hnesting _⟩

theorem beside_stream {recur recur' : Rule → Parser Node}
    (hrec : (streamReading same lost hsame).Parallel recur recur')
    {s s' : Surroundings} (hs : (streamReading same lost hsame).Around s s') (c : Cursor) :
    Beside (streamReading same lost hsame) Eq Eq
      (manyUntil [.endOfInput] (recur .declaration) s.length [] s c)
      (manyUntil [.endOfInput] (recur' .declaration) s'.length [] s' c) := by
  have hloops := loops_manyUntil (List.mem_singleton_self _)
    (fun c c' => hrec .declaration _ _ c c' hs) hs.length .nil (.inl (rfl : c = c))
  exact (hloops.beside fun _ _ => id).mono (fun _ _ => id) fun _ _ =>
    Node.likes_eq Pairing.exact_identity

theorem Beside.eq_of_not_lost {α : Type}
    {hsame : ∀ e : ParseError, (∀ limit pos, e ≠ .nesting limit pos) → e = e}
    {x x' : Except ParseError (α × Cursor)} (h : Beside (streamReading Eq lost hsame) Eq Eq x x')
    (hne : ∀ e, lost e → x ≠ .error e) : x' = x := by
  cases h with
  | result h hd => rw [h, hd]
  | same h => rw [show _ = _ from h]
  | lost h => exact absurd rfl (hne _ h)

end

end Reading

namespace Program

open Reading

variable {room length length' : Nat} {N : Int} {c : Cursor}

theorem declarations_unmark (room : Nat) (N : Int) (length : Nat) (c : Cursor) :
    declarations room N length c =
      (declarationsOr (marked N) room N length c).mapError (ParseError.unmark N) := by
  have hsame (e : ParseError) (h : ∀ limit pos, e ≠ .nesting limit pos) : e = e.unmark N := by
    cases e with
    | nesting limit pos => exact absurd rfl (h limit pos)
    | _ => rfl
  let σ := streamReading (fun e e' => e = e'.unmark N) (fun _ => False) hsame
  have hlast : σ.Parallel (fun _ => exhausted) (marked N) := by
    rintro rule s s' c _ - rfl
    have hmark : N + 1 ≠ N := by omega
    exact .same (if_neg hmark).symm
  have hbeside := beside_stream (parallel_parseOr hlast room)
    (around_stream (N := N) (fun _ => (if_pos rfl).symm) (.inl (rfl : length = length))) c
  rw [← Rule.parse_eq_parseOr] at hbeside
  unfold declarations declarationsOr
  generalize manyUntil _ _ length [] _ c = x at hbeside ⊢
  generalize manyUntil _ _ length [] _ c = x' at hbeside ⊢
  cases hbeside with
  | result h hd => rw [h, hd]; rfl
  | same h => rw [h]; rfl
  | lost h => exact h.elim

theorem declarations_of_unmarked {x : Except ParseError (List Node × Cursor)}
    (hx : declarationsOr (marked N) room N length c = x)
    (hne : ∀ pos, x ≠ .error (.nesting (N + 1) pos)) (more : Nat) :
    declarations (room + more) N length c = x := by
  let σ := streamReading Eq (fun e => ∃ pos, e = .nesting (N + 1) pos) fun _ _ => rfl
  have hlast (recur : Rule → Parser Node) : σ.Parallel (marked N) recur := by
    intro rule s s' c c' _ _
    have hlost : σ.lost (.nesting (N + 1) c.current.pos) := ⟨_, rfl⟩
    exact .lost hlost _
  have hbeside := beside_stream (parallel_more_room hlast room more)
    (around_stream (N := N) (fun _ => rfl) (.inl (rfl : length = length))) c
  rw [← declarationsOr, hx] at hbeside
  refine hbeside.eq_of_not_lost ?_
  rintro _ ⟨pos, rfl⟩
  exact hne pos

theorem marked_ne_exhausted (hlength : c.ahead.length < length) (pos : Position) :
    declarationsOr (marked N) room N length c ≠ .error (.exhausted pos) := by
  intro h
  -- With more room the error would be the same, but then there is enough.
  have hmore := declarations_of_unmarked h (fun _ => nofun) (5 * c.ahead.length + 5)
  obtain ⟨us, d, hp, -, hused⟩ := reason_of_declarations hmore
  have := hp.ahead.length_le
  simp only at hused
  omega

theorem declarations_length (hlength : c.ahead.length < length) (hlength' : c.ahead.length < length') :
    declarations room N length c = declarations room N length' c := by
  wlog hle : length ≤ length' generalizing length length'
  · exact (this hlength' hlength (by omega)).symm
  let σ := streamReading Eq (fun e => ∃ pos, e = .exhausted pos) fun _ _ => rfl
  have hturns : σ.Turns length length' := .inr ⟨hle, fun _ => ⟨_, rfl⟩⟩
  have hlast : σ.Parallel (marked N) (marked N) := by
    rintro rule s s' c _ - rfl
    exact .same rfl
  have hbeside := beside_stream (parallel_parseOr hlast room)
    (around_stream (N := N) (fun _ => rfl) hturns) c
  rw [declarations_unmark, declarations_unmark]
  congr 1
  have hne (pos : Position) : declarationsOr (marked N) room N length c ≠ .error (.exhausted pos) :=
    marked_ne_exhausted hlength pos
  refine (hbeside.eq_of_not_lost ?_).symm
  rintro _ ⟨pos, rfl⟩
  exact hne pos

end Program

end Scriptlet
