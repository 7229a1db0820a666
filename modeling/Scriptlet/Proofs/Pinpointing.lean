import Scriptlet.Proofs.NestingThreshold
import Scriptlet.Proofs.ViablePrefixes

namespace Scriptlet

open Cursor Scriptlet.Parser

def EqualsPaired (ts : List Token) : Prop :=
  ∀ pre e post, ts = pre ++ e :: post → e.kind = .symbol .equal →
    ∃ front v x, pre = front ++ [v, x] ∧ v.kind = .keyword .varWord ∧ x.kind = .identifier

namespace EqualsPaired

variable {ts us : List Token} {v x e : Token}

theorem of_ne (h : ∀ t ∈ ts, t.kind ≠ .symbol .equal) : EqualsPaired ts := by
  rintro pre e post rfl he
  exact absurd he (h e (by simp))

theorem declared (hv : v.kind = .keyword .varWord) (hx : x.kind = .identifier) :
    EqualsPaired [v, x, e] := by
  intro pre e' post h he
  rcases pre with _ | ⟨a, _ | ⟨b, _ | ⟨c, pre⟩⟩⟩
  · rw [← (List.cons.inj h).1, hv] at he
    cases he
  · rw [← (List.cons.inj (List.cons.inj h).2).1, hx] at he
    cases he
  · obtain ⟨rfl, hrest⟩ := List.cons.inj h
    obtain ⟨rfl, -⟩ := List.cons.inj hrest
    exact ⟨[], _, _, rfl, hv, hx⟩
  · simpa using congrArg List.length h

theorem append (hus : EqualsPaired us) (hts : EqualsPaired ts) : EqualsPaired (us ++ ts) := by
  intro pre e post h he
  rcases List.append_eq_append_iff.mp h with ⟨more, rfl, hmore⟩ | ⟨more, rfl, hmore⟩
  · obtain ⟨front, v, x, rfl, hv, hx⟩ := hts more e post hmore he
    exact ⟨us ++ front, v, x, by simp, hv, hx⟩
  · cases more with
    | nil =>
      obtain ⟨front, v, x, hfront, -⟩ := hts [] e post hmore.symm he
      simpa using congrArg List.length hfront
    | cons w more =>
      obtain ⟨rfl, -⟩ := List.cons.inj hmore
      exact hus pre e more rfl he

theorem drop (h : EqualsPaired (us ++ ts))
    (hus : ∀ pre v post, us = pre ++ v :: post → post.length < 2 → v.kind ≠ .keyword .varWord) :
    EqualsPaired ts := by
  rintro pre e post rfl he
  obtain ⟨front, v, x, hfront, hv, hx⟩ := h (us ++ pre) e post (by simp) he
  rcases List.append_eq_append_iff.mp hfront with ⟨more, rfl, hmore⟩ | ⟨more, hmore, hpre⟩
  · exact ⟨more, v, x, hmore, hv, hx⟩
  -- Then `us` ends with `var` and the name, or with `var`.
  · cases more with
    | nil => exact ⟨[], v, x, hpre.symm, hv, hx⟩
    | cons w more =>
      obtain ⟨rfl, hpre⟩ := List.cons.inj hpre
      have hlength := congrArg List.length hpre
      simp only [List.length_append, List.length_cons, List.length_nil] at hlength
      exact absurd hv (hus front v more hmore (by omega))

end EqualsPaired

namespace Cursor

variable {c c' d d' : Cursor} {t : Token} {us vs : List Token}

theorem Passes.ahead_eq (h : c.Passes us d) : c.ahead = us ++ d.ahead := by
  induction us generalizing c with
  | nil =>
    obtain rfl : c = d := h
    rfl
  | cons u us ih =>
    obtain ⟨rfl, hu, c', hc, hrest⟩ := h
    rw [ahead_cons hc hu, ih hrest, List.cons_append]

theorem Passes.unique (h : c.Passes us d) (h' : c.Passes vs d) : us = vs :=
  List.append_cancel_right (h.ahead_eq.symm.trans h'.ahead_eq)

theorem Passes.current_eq (h : c.Passes us d) (h' : c'.Passes us d') (hd : d'.current = d.current) :
    c'.current = c.current := by
  cases us with
  | nil =>
    obtain rfl : c = d := h
    obtain rfl : c' = d' := h'
    exact hd
  | cons u us => exact h'.1.trans h.1.symm

theorem Passes.next_eq (h : c.Passes us d) (h' : c'.Passes us d') (hd : d'.current = d.current)
    (hus : us ≠ []) : c'.next = c.next := by
  match us with
  | [] => exact absurd rfl hus
  | [u] =>
    obtain ⟨-, -, d, hc, rfl⟩ := h
    obtain ⟨-, -, d', hc', rfl⟩ := h'
    rw [← advance_current hc, ← advance_current hc', hd]
  | u :: v :: us => rw [h.next, h'.next]

theorem current_ne_equal (h : EqualsPaired c.ahead) : c.current.kind ≠ .symbol .equal := by
  intro hc
  have hahead : c.ahead = c.current :: (c.next :: c.rest).takeWhile (·.kind ≠ .endOfInput) := by
    rw [ahead, List.takeWhile_cons, if_pos (by rw [hc]; decide)]
  obtain ⟨front, v, x, hfront, -⟩ := h [] c.current _ hahead hc
  simpa using congrArg List.length hfront

theorem Passes.equalsPaired {k : TokenKind} (h : c.Passes [t] d) (ht : t.kind = k)
    (hk : k ≠ .keyword .varWord) (hc : EqualsPaired c.ahead) : EqualsPaired d.ahead := by
  rw [h.ahead_eq] at hc
  refine hc.drop fun pre v post heq _ => ?_
  have hv : v ∈ [t] := heq ▸ by simp
  rwa [List.mem_singleton.mp hv, ht]

end Cursor

namespace Parser

def Pinpoints {α : Type} (p : Parser α) (s : Surroundings) (c : Cursor)
    (E : SyntaxFault → List Token → Token → Prop) : Prop :=
  match p s c with
  | .ok (a, d) => EqualsPaired d.ahead ∧ ∃ us, c.Passes us d ∧
    ∀ c' d', c'.Passes us d' → d'.current = d.current → p s c' = .ok (a, d')
  | .error (.fault g pos) => ∃ us d, c.Passes us d ∧ pos = d.current.pos ∧ g.found = d.current.kind ∧
    E g us d.current ∧ ∀ c' d', c'.Passes us d' → d'.current = d.current →
      p s c' = .error (.fault g pos) ∨ ∃ e, p s c' = .error (.scan e)
  | .error _ => True

section

variable {α β : Type} {p : Parser α} {q : Parser β} {s s' : Surroundings} {c d : Cursor} {b : Allowance}
  {t : Token} {E E' : SyntaxFault → List Token → Token → Prop} {Q : α → List Token → Cursor → Prop}

theorem Ensures.of_ok {a : α} (h : Ensures p s c b Q) (hp : p s c = .ok (a, d)) :
    ∃ us, c.Passes us d ∧ Q a us d := by
  unfold Ensures at h
  rwa [hp] at h

theorem Pinpoints.of_scan {e : ScanError} (h : p s c = .error (.scan e)) : Pinpoints p s c E := by
  unfold Pinpoints
  rw [h]
  trivial

theorem Pinpoints.mono (h : Pinpoints p s c E)
    (hE : ∀ g us d, c.Passes us d → E g us d.current → E' g us d.current) : Pinpoints p s c E' := by
  unfold Pinpoints at h ⊢
  split at h
  · exact h
  · obtain ⟨us, d, hp, hpos, hfound, hg, hsame⟩ := h
    exact ⟨us, d, hp, hpos, hfound, hE _ us d hp hg, hsame⟩
  · trivial

theorem Pinpoints.transport {f : α → β} (h : Pinpoints p s' c E)
    (hq : ∀ c' : Cursor, c'.current = c.current →
      q s c' = (p s' c').map fun r => (f r.1, r.2)) : Pinpoints q s c E := by
  unfold Pinpoints at h ⊢
  rw [hq c rfl]
  cases hpc : p s' c with
  | ok r =>
    obtain ⟨a, d⟩ := r
    simp only [hpc] at h ⊢
    obtain ⟨heq, us, hp, hsame⟩ := h
    refine ⟨heq, us, hp, fun c' d' hp' hd => ?_⟩
    rw [hq c' (hp.current_eq hp' hd), hsame c' d' hp' hd]
    rfl
  | error e =>
    cases e with
    | fault g pos =>
      simp only [hpc] at h ⊢
      obtain ⟨us, d, hp, hpos, hfound, hg, hsame⟩ := h
      refine ⟨us, d, hp, hpos, hfound, hg, fun c' d' hp' hd => ?_⟩
      rw [hq c' (hp.current_eq hp' hd)]
      rcases hsame c' d' hp' hd with h | ⟨e, h⟩
      · exact .inl (by rw [h]; rfl)
      · exact .inr ⟨e, by rw [h]; rfl⟩
    | _ => trivial

theorem Pinpoints.congr {q : Parser α} (h : Pinpoints p s' c E)
    (hq : ∀ c' : Cursor, c'.current = c.current → q s c' = p s' c') : Pinpoints q s c E :=
  h.transport (f := id) fun c' hc' => by
    rw [hq c' hc']
    cases p s' c' <;> rfl

theorem Pinpoints.map {f : α → β} (h : Pinpoints p s c E) : Pinpoints (do return f (← p)) s c E :=
  h.transport fun c' _ => by
    rw [bind_apply]
    cases p s c' <;> rfl

theorem Pinpoints.congr_next {q : Parser α} (h : Pinpoints p s c E) (hE : ∀ g, ¬E g [] c.current)
    (hb : Ensures p s c b Q) (hQ : ∀ a d, ¬Q a [] d)
    (hq : ∀ c' : Cursor, c'.current = c.current → c'.next = c.next → q s c' = p s c') :
    Pinpoints q s c E := by
  unfold Pinpoints at h ⊢
  rw [hq c rfl rfl]
  cases hpc : p s c with
  | ok r =>
    obtain ⟨a, d⟩ := r
    simp only [hpc] at h ⊢
    obtain ⟨heq, us, hp, hsame⟩ := h
    obtain ⟨us', hp', hfound⟩ := hb.of_ok hpc
    obtain rfl := hp.unique hp'
    have hus : us ≠ [] := fun hnil => hQ a d (hnil ▸ hfound)
    refine ⟨heq, us, hp, fun c' d' hp' hd => ?_⟩
    rw [hq c' (hp.current_eq hp' hd) (hp.next_eq hp' hd hus)]
    exact hsame c' d' hp' hd
  | error e =>
    cases e with
    | fault g pos =>
      simp only [hpc] at h ⊢
      obtain ⟨us, d, hp, hpos, hfound, hg, hsame⟩ := h
      have hus : us ≠ [] := by
        rintro rfl
        obtain rfl : c = d := hp
        exact hE g hg
      refine ⟨us, d, hp, hpos, hfound, hg, fun c' d' hp' hd => ?_⟩
      rw [hq c' (hp.current_eq hp' hd) (hp.next_eq hp' hd hus)]
      exact hsame c' d' hp' hd
    | _ => trivial

theorem Pinpoints.bind {f : α → Parser β} (hp : Pinpoints p s c E) (hb : Ensures p s c b Q)
    (hf : ∀ a us d, c.Passes us d → EqualsPaired d.ahead → Q a us d →
      Pinpoints (f a) s d fun g vs t => E g (us ++ vs) t) : Pinpoints (p >>= f) s c E := by
  unfold Pinpoints at hp ⊢
  rw [bind_apply]
  cases hpc : p s c with
  | error e =>
    cases e with
    | fault g pos =>
      simp only [hpc] at hp ⊢
      obtain ⟨us, d, hus, hpos, hfound, hg, hsame⟩ := hp
      refine ⟨us, d, hus, hpos, hfound, hg, fun c' d' hus' hd => ?_⟩
      rw [bind_apply]
      rcases hsame c' d' hus' hd with h | ⟨e, h⟩
      · exact .inl (by rw [h])
      · exact .inr ⟨e, by rw [h]⟩
    | _ => trivial
  | ok r =>
    obtain ⟨a, d⟩ := r
    simp only [hpc] at hp ⊢
    obtain ⟨heq, us, hus, hsame⟩ := hp
    obtain ⟨us', hus', hq⟩ := hb.of_ok hpc
    obtain rfl := hus.unique hus'
    have h := hf a us d hus heq hq
    unfold Pinpoints at h
    -- Behind the same tokens `p` comes to the same place in front of the same token.
    have hsplit {vs : List Token} {e : Cursor} (hvs : d.Passes vs e) (c' e' : Cursor)
        (hp' : c'.Passes (us ++ vs) e') (he : e'.current = e.current) :
        ∃ d', d'.Passes vs e' ∧ (p >>= f) s c' = f a s d' := by
      obtain ⟨d', hus', hvs'⟩ := passes_append.mp hp'
      refine ⟨d', hvs', ?_⟩
      rw [bind_apply, hsame c' d' hus' (hvs.current_eq hvs' he)]
    split at h
    · obtain ⟨heq', vs, hvs, hsame'⟩ := h
      refine ⟨heq', us ++ vs, hus.append hvs, fun c' e' hp' he => ?_⟩
      obtain ⟨d', hvs', hrun⟩ := hsplit hvs c' e' hp' he
      rw [hrun]
      exact hsame' d' e' hvs' he
    · obtain ⟨vs, e, hvs, hpos, hfound, hg, hsame'⟩ := h
      refine ⟨us ++ vs, e, hus.append hvs, hpos, hfound, hg, fun c' e' hp' he => ?_⟩
      obtain ⟨d', hvs', hrun⟩ := hsplit hvs c' e' hp' he
      rw [hrun]
      exact hsame' d' e' hvs' he
    · trivial

theorem pinpoints_pure {a : α} (hc : EqualsPaired c.ahead) : Pinpoints (pure a) s c E := by
  refine ⟨hc, [], rfl, fun c' d' hp _ => ?_⟩
  obtain rfl : c' = d' := hp
  rfl

theorem pinpoints_fault {g : SyntaxFault} (hfound : g.found = c.current.kind)
    (hg : E g [] c.current) : Pinpoints (fault g c.current.pos : Parser α) s c E :=
  ⟨[], c, rfl, rfl, hfound, hg, fun _ _ _ _ => .inl rfl⟩

theorem pinpoints_exhausted : Pinpoints (exhausted : Parser α) s c E := trivial

theorem Pinpoints.step (hp : c.Passes [t] d) (h : Pinpoints q s' d fun g vs u => E g (t :: vs) u)
    {r : Parser β} (hr : ∀ c' d', c'.Passes [t] d' → r s c' = q s' d') : Pinpoints r s c E := by
  unfold Pinpoints at h ⊢
  rw [hr c d hp]
  split at h
  · obtain ⟨heq, us, hus, hsame⟩ := h
    refine ⟨heq, t :: us, hp.append hus, fun c' e' hp' he => ?_⟩
    obtain ⟨d', ht, hus'⟩ := hp'.cons_inv
    rw [hr c' d' ht]
    exact hsame d' e' hus' he
  · obtain ⟨us, e, hus, hpos, hfound, hg, hsame⟩ := h
    refine ⟨t :: us, e, hp.append hus, hpos, hfound, hg, fun c' e' hp' he => ?_⟩
    obtain ⟨d', ht, hus'⟩ := hp'.cons_inv
    rw [hr c' d' ht]
    exact hsame d' e' hus' he
  · trivial

theorem pinpoints_current_bind {f : Token → Parser α} (h : Pinpoints (f c.current) s c E) :
    Pinpoints (current >>= f) s c E :=
  h.congr fun c' hc => by rw [bind_apply, current_apply, hc]

theorem pinpoints_currentKind_bind {f : TokenKind → Parser α}
    (h : Pinpoints (f c.current.kind) s c E) : Pinpoints (currentKind >>= f) s c E :=
  h.congr fun c' hc => by rw [bind_apply, currentKind_apply, hc]

theorem pinpoints_read_bind {f : Surroundings → Parser α} (h : Pinpoints (f s) s c E) :
    Pinpoints (read >>= f) s c E :=
  h.congr fun _ _ => rfl

theorem Pinpoints.nested (h : Pinpoints p { s with nesting := s.nesting + 1 } c E) :
    Pinpoints (nested p) s c E := by
  by_cases hs : s.maxNesting ≤ s.nesting
  · unfold Pinpoints
    rw [nested_apply, if_pos hs]
    trivial
  · exact h.congr fun c' _ => nested_of (by omega)

theorem Pinpoints.inFunction (h : Pinpoints p { s with inFunction := true } c E) :
    Pinpoints (inFunction p) s c E :=
  h.congr fun _ _ => rfl

theorem pinpoints_take_bind {f : Token → Parser α} {k : TokenKind} (hc : c.current.kind = k)
    (hk : k ≠ .endOfInput) (h : ∀ d, c.Passes [c.current] d →
      Pinpoints (f c.current) s d fun g vs t => E g (c.current :: vs) t) :
    Pinpoints (take >>= f) s c E := by
  cases hd : c.advance with
  | error e => exact .of_scan (by rw [bind_apply, take_apply, hd])
  | ok d =>
    have hp : c.Passes [c.current] d := ⟨rfl, hc ▸ hk, d, hd, rfl⟩
    exact (h d hp).step hp fun c' d' hp' => by rw [bind_apply, take_of hp']

theorem require_apply (kind : TokenKind) (slot : Slot) (s : Surroundings) (c : Cursor) :
    require kind slot s c =
      if c.current.kind = kind then take s c
      else .error (.fault (.missing kind slot c.current) c.current.pos) := by
  change (if c.current.kind = kind then take else fault _ _ : Parser Token) s c = _
  split <;> rfl

theorem pinpoints_require_bind {kind : TokenKind} {slot : Slot} {f : Token → Parser α}
    (hk : kind ≠ .endOfInput)
    (hE : c.current.kind ≠ kind → E (.missing kind slot c.current) [] c.current)
    (h : ∀ t d, c.Passes [t] d → t.kind = kind → Pinpoints (f t) s d fun g vs u => E g (t :: vs) u) :
    Pinpoints (require kind slot >>= f) s c E := by
  by_cases hc : c.current.kind = kind
  · have htake : Pinpoints (take >>= f) s c E :=
      pinpoints_take_bind hc hk fun d hp => h _ d hp hc
    refine htake.congr fun c' hc' => ?_
    rw [bind_apply, bind_apply, require_apply, if_pos (by rw [hc', hc])]
  · have hfault : Pinpoints (fault (.missing kind slot c.current) c.current.pos : Parser α) s c E :=
      pinpoints_fault rfl (hE hc)
    refine hfault.congr fun c' hc' => ?_
    rw [bind_apply, require_apply, if_neg (by rwa [hc']), hc']
    rfl

theorem pinpoints_accept_bind {kind : TokenKind} {f : Bool → Parser α} (hk : kind ≠ .endOfInput)
    (hno : c.current.kind ≠ kind → Pinpoints (f false) s c E)
    (hyes : ∀ t d, c.Passes [t] d → t.kind = kind →
      Pinpoints (f true) s d fun g vs u => E g (t :: vs) u) :
    Pinpoints (accept kind >>= f) s c E := by
  by_cases hc : c.current.kind = kind
  · have htake : Pinpoints (take >>= fun _ => f true) s c E :=
      pinpoints_take_bind hc hk fun d hp => hyes _ d hp hc
    refine htake.congr fun c' hc' => ?_
    cases hd : c'.advance with
    | error e =>
      have haccept : accept kind s c' = .error (.scan e) := by
        change (if c'.current.kind = kind then _ else _ : Parser Bool) s c' = _
        rw [if_pos (by rw [hc', hc]), bind_apply, take_apply, hd]
      rw [bind_apply, haccept, bind_apply, take_apply, hd]
    | ok d' =>
      have hp : c'.Passes [c'.current] d' := ⟨rfl, by rw [hc', hc]; exact hk, d', hd, rfl⟩
      rw [bind_apply, accept_of hp (by rw [hc', hc]), bind_apply, take_of hp]
  · exact (hno hc).congr fun c' hc' => by rw [bind_apply, accept_of_ne (by rwa [hc'])]

end

end Parser

end Scriptlet
