import Scriptlet.Proofs.TreeShape

namespace Scriptlet

structure TokenStream.Consists (P : Token → Prop) (E : ScanError → Prop) (s : TokenStream) : Prop where
  tokens : ∀ t ∈ s.tokens, P t
  error : ∀ e, s.error = some e → E e
  closed : s.error = none → ∃ t, s.tokens.getLast? = some t ∧ t.kind = .endOfInput

structure Cursor.Sees (P : Token → Prop) (E : ScanError → Prop) (c : Cursor) : Prop where
  current : P c.current
  ahead : TokenStream.Consists P E ⟨c.next :: c.rest, c.error⟩

def ParseError.Located (P : Token → Prop) (E : ScanError → Prop) : ParseError → Prop
  | scan e => E e
  | fault _ pos | nesting _ pos | exhausted pos => ∃ t, P t ∧ pos = t.pos

variable {P : Token → Prop} {E : ScanError → Prop} {s : TokenStream} {error : Option ScanError}

namespace TokenStream.Consists

theorem pull {t : Token} {ts : List Token} (h : Consists P E ⟨t :: ts, error⟩) :
    match Cursor.pull (some t) ts error with
    | .ok (u, us) => Consists P E ⟨u :: us, error⟩
    | .error e => E e := by
  obtain ⟨htokens, herror, hclosed⟩ := h
  cases ts with
  | cons u us =>
    refine ⟨fun v hv => htokens v (List.mem_cons_of_mem t hv), herror, fun hnone => ?_⟩
    obtain ⟨v, hlast, hv⟩ := hclosed hnone
    exact ⟨v, by rwa [List.getLast?_cons_cons] at hlast, hv⟩
  | nil =>
    cases error with
    | some e => exact herror e rfl
    | none =>
      obtain ⟨v, hlast, hv⟩ := hclosed rfl
      obtain rfl := Option.some.inj hlast
      have hend : Token.endBehind t = t := if_pos hv
      simp only [Cursor.pull, Option.elim, hend]
      exact ⟨htokens, herror, hclosed⟩

theorem ofStream (h : s.Consists P E) :
    match Cursor.ofStream s with
    | .ok c => c.Sees P E
    | .error e => E e := by
  obtain ⟨ts, error⟩ := s
  cases ts with
  | nil =>
    cases error with
    | some e => exact h.error e rfl
    | none =>
      obtain ⟨t, hlast, -⟩ := h.closed rfl
      cases hlast
  | cons t ts =>
    have hpull := h.pull
    have hstream : Cursor.ofStream ⟨t :: ts, error⟩ =
        (Cursor.pull (some t) ts error).map fun r => ⟨t, r.1, r.2, error⟩ := by
      change Except.bind (Cursor.pull (some t) ts error) _ = _
      cases Cursor.pull (some t) ts error <;> rfl
    rw [hstream]
    rcases hnext : Cursor.pull (some t) ts error with e | ⟨u, us⟩
    · rwa [hnext] at hpull
    · rw [hnext] at hpull
      exact ⟨h.tokens t List.mem_cons_self, hpull⟩

end TokenStream.Consists

namespace Cursor.Sees

variable {c d : Cursor} {us : List Token}

theorem advance (h : c.Sees P E) :
    match c.advance with
    | .ok d => d.Sees P E
    | .error e => E e := by
  have hpull := h.ahead.pull
  have hadvance : c.advance =
      (Cursor.pull (some c.next) c.rest c.error).map fun r => ⟨c.next, r.1, r.2, c.error⟩ := by
    change Except.bind (Cursor.pull (some c.next) c.rest c.error) _ = _
    cases Cursor.pull (some c.next) c.rest c.error <;> rfl
  rw [hadvance]
  rcases hnext : Cursor.pull (some c.next) c.rest c.error with e | ⟨u, us⟩
  · rwa [hnext] at hpull
  · rw [hnext] at hpull
    exact ⟨h.ahead.tokens c.next List.mem_cons_self, hpull⟩

theorem passes (h : c.Sees P E) (hp : c.Passes us d) :
    (∀ t ∈ us, P t ∧ t.kind ≠ .endOfInput) ∧ d.Sees P E := by
  induction us generalizing c with
  | nil => exact ⟨List.forall_mem_nil _, hp ▸ h⟩
  | cons t us ih =>
    obtain ⟨rfl, hkind, c', hadvance, hp⟩ := hp
    have hstep := h.advance
    rw [hadvance] at hstep
    obtain ⟨hus, hd⟩ := ih hstep hp
    exact ⟨List.forall_mem_cons.mpr ⟨⟨h.current, hkind⟩, hus⟩, hd⟩

end Cursor.Sees

theorem Parser.Reason.located {maxNesting : Int} {b : Allowance} {us : List Token} {c : Cursor}
    {e : ParseError} (h : Reason maxNesting b us c e) (hc : c.Sees P E) (hseen : ∀ t ∈ b.seen, P t)
    (hus : ∀ t ∈ us, P t) : e.Located P E := by
  cases e with
  | scan e =>
    have hadvance := hc.advance
    rwa [show c.advance = .error e from h] at hadvance
  | fault f pos =>
    obtain ⟨t, ht, rfl⟩ := h
    refine ⟨t, ?_, rfl⟩
    simp only [List.mem_append, List.mem_singleton] at ht
    rcases ht with (ht | ht) | rfl
    · exact hseen t ht
    · exact hus t ht
    · exact hc.current
  | nesting limit pos => exact ⟨c.current, hc.current, h.2.1⟩
  | exhausted pos => exact ⟨c.current, hc.current, h.1⟩

theorem Program.ofTokens_located (room : Nat) (maxNesting : Int) (h : s.Consists P E) :
    match ofTokens room maxNesting s with
    | .ok p => ∀ n ∈ p.statements, Formed (fun t => P t ∧ t.kind ≠ .endOfInput) false .declaration n
    | .error e => e.Located P E := by
  have hstream := h.ofStream
  split
  · rename_i p hp
    obtain ⟨c, d, us, hc, hpasses, hformed⟩ := formed_of_ofTokens hp
    rw [hc] at hstream
    exact fun n hn => (hformed n hn).imp (hstream.passes hpasses).1
  · rename_i e he
    rcases exists_reason_of_ofTokens he with ⟨err, hc, rfl⟩ | ⟨c, us, d, hc, hpasses, hreason⟩
    · rw [hc] at hstream
      exact hstream
    · rw [hc] at hstream
      obtain ⟨hus, hd⟩ := hstream.passes hpasses
      exact hreason.located hd (List.forall_mem_nil _) fun t ht => (hus t ht).1

end Scriptlet
