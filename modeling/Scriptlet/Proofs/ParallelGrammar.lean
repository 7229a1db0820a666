import Scriptlet.Proofs.ParallelReading
import Scriptlet.Proofs.TreeShape

namespace Scriptlet

open Scriptlet.Parser

namespace Reading

variable {σ : Reading}

def behind (σ : Reading) : Rule → Cursor → Cursor → Prop
  | .declaration | .statement => σ.after
  | .expression | .assignment | .unary => σ.near

def Parallel (σ : Reading) (recur recur' : Rule → Parser Node) : Prop :=
  ∀ rule s s' c c', σ.Around s s' → σ.near c c' →
    Beside σ (σ.behind rule) (Node.Like σ.pairing) (recur rule s c) (recur' rule s' c')

section

open Grammar

variable {s s' : Surroundings} {c c' : Cursor} (hs : σ.Around s s') (hc : σ.near c c')

include hc

theorem beside_endStatement (slot : Slot) :
    Beside σ σ.after (fun _ _ => True) (endStatement slot s c) (endStatement slot s' c') := by
  apply Beside.bind_currentKind hc
  split
  · exact beside_pure trivial (.inl hc)
  · have hkind : TokenKind.symbol .semicolon ≠ .endOfInput := nofun
    have hsemicolon : Beside σ _ _ (require (.symbol .semicolon) slot s c)
        (require (.symbol .semicolon) slot s' c') := beside_require hc hkind slot
    apply (hsemicolon.mono (fun _ _ hend => hend.imp_right And.right) fun _ _ => id).bind
    intro _ _ d d' _ hd
    exact beside_pure trivial hd

theorem beside_parameter (params : List String) :
    Beside σ σ.near Eq (parameter params s c) (parameter params s' c') := by
  apply (beside_require_near hc (by decide) (by decide) _).bind
  intro t t' d d' ht hd
  rw [← ht.text]
  split
  · exact beside_fault (.duplicateParameter _) ht.pos
  · exact beside_pure rfl hd

theorem beside_parametersFrom {n n' : Nat} (hn : σ.Turns n n') (params : List String) :
    Beside σ σ.near Eq (parametersFrom n params s c) (parametersFrom n' params s' c') := by
  induction n generalizing n' params c c' with
  | zero => exact beside_exhausted_left hn hc (by rintro rfl; rfl)
  | succ n ih =>
    obtain ⟨k, rfl, hk⟩ := hn.pred
    apply (beside_parameter hc params).bind
    rintro x _ d d' rfl hd
    apply (beside_accept hd (by decide) (by decide)).bind
    rintro yes _ e e' rfl he
    cases yes with
    | false => exact beside_pure rfl he
    | true => exact ih he hk _

include hs

theorem beside_parameters : Beside σ σ.near Eq (parameters s c) (parameters s' c') := by
  apply (beside_require_near hc (by decide) (by decide) _).bind
  intro t t' d d' _ hd
  have hlist : Beside σ σ.near Eq (parameterList s d) (parameterList s' d') := by
    apply Beside.bind_currentKind hd
    split
    · exact beside_pure rfl hd
    · exact beside_parametersFrom hd hs.length []
  apply hlist.bind
  rintro params _ e e' rfl he
  apply (beside_require_near he (by decide) (by decide) _).bind
  intro _ _ f f' _ hf
  exact beside_pure rfl hf

end

inductive Loops (σ : Reading) (more : List Node → Nat → Cursor → Except ParseError (List Node × Cursor))
    (total : Nat) :
    Except ParseError (List Node × Cursor) → Except ParseError (List Node × Cursor) → Prop
  | together {x x' : Except ParseError (List Node × Cursor)}
      (h : Beside σ σ.near (List.Forall₂ (Node.Like σ.pairing)) x x') : Loops σ more total x x'
  | ahead {ns ns' : List Node} {d d' : Cursor} {k : Nat}
      (hns : List.Forall₂ (Node.Like σ.pairing) ns ns') (hd : σ.apart d d')
      (hk : k + ns.length = total) : Loops σ more total (.ok (ns, d)) (more ns' k d')

theorem Loops.beside {more : List Node → Nat → Cursor → Except ParseError (List Node × Cursor)}
    {total : Nat} {x x' : Except ParseError (List Node × Cursor)} (h : Loops σ more total x x')
    (hapart : ∀ d d', ¬σ.apart d d') : Beside σ σ.near (List.Forall₂ (Node.Like σ.pairing)) x x' := by
  cases h with
  | together h => exact h
  | ahead _ hd _ => exact absurd hd (hapart _ _)

section

open Grammar

variable {s s' : Surroundings} {c c' : Cursor}

theorem require_of_ne {kind : TokenKind} {slot : Slot} (hc : c.current.kind ≠ kind) :
    require kind slot s c = .error (.fault (.missing kind slot c.current) c.current.pos) := by
  unfold require
  rw [bind_apply, current_apply]
  simp only [if_neg hc]
  rfl

theorem manyUntil_item {stops : List TokenKind} {item : Parser Node} {n : Nat} {items : List Node}
    (hc : c.current.kind ∉ stops) :
    manyUntil stops item (n + 1) items s c =
      (item >>= fun i => manyUntil stops item n (i :: items)) s c := by
  have hnot : stops.contains c.current.kind = false := by simpa using hc
  rw [manyUntil, bind_apply, currentKind_apply]
  simp only [hnot, Bool.false_eq_true, if_false]

theorem loops_manyUntil {stops : List TokenKind} {item item' : Parser Node}
    (heof : .endOfInput ∈ stops)
    (hitem : ∀ c c', σ.near c c' → Beside σ σ.after (Node.Like σ.pairing) (item s c) (item' s' c'))
    {n n' : Nat} (hn : σ.Turns n n') {items items' : List Node}
    (hitems : List.Forall₂ (Node.Like σ.pairing) items items') (hc : σ.after c c') :
    Loops σ (fun ns k d => manyUntil stops item' k ns.reverse s' d) (n' + items.length)
      (manyUntil stops item n items s c) (manyUntil stops item' n' items' s' c') := by
  -- The induction is on the turns of the first loop, for all items that were read before.
  induction n generalizing n' items items' c c' with
  | zero =>
    rcases hc with hc | hc
    · exact .together (beside_exhausted_left hn hc (by rintro rfl; rfl))
    · exact .together (.lost ((σ.apart_ended hc).lost _) _)
  | succ n ih =>
    rcases hc with hc | hc
    · obtain ⟨k, rfl, hk⟩ := hn.pred
      have hkind := (σ.current_corresponds hc).kind
      by_cases hstop : c.current.kind ∈ stops
      · rw [manyUntil_of (Nat.succ_pos n) hstop, manyUntil_of (Nat.succ_pos k) (hkind ▸ hstop)]
        exact .together (.result (List.forall₂_reverse_iff.mpr hitems) hc)
      · rw [manyUntil_item hstop, manyUntil_item (hkind ▸ hstop), bind_apply, bind_apply]
        have hnode := hitem c c' hc
        generalize item s c = x at hnode
        generalize item' s' c' = x' at hnode
        cases hnode with
        | @result m m' d d' hm hd =>
          have htotal : k + (m :: items).length = k + 1 + items.length := by
            rw [List.length_cons]
            omega
          exact htotal ▸ ih hk (.cons hm hitems) hd
        | same h => exact .together (.same h)
        | lost h => exact .together (.lost h _)
    · -- The first loop stops at its end, and the second one has all its turns left.
      have hreverse := List.forall₂_reverse_iff.mpr hitems
      rw [manyUntil_of (Nat.succ_pos n) ((σ.apart_ended hc).left ▸ heof)]
      have hahead : Loops σ (fun ns k d => manyUntil stops item' k ns.reverse s' d) (n' + items.length)
          (.ok (items.reverse, c)) (manyUntil stops item' n' items'.reverse.reverse s' c') :=
        .ahead hreverse hc (by rw [List.length_reverse])
      rwa [List.reverse_reverse] at hahead

end

section

open Grammar

variable {recur recur' : Rule → Parser Node} (hrec : σ.Parallel recur recur') {s s' : Surroundings}
  {c c' : Cursor} (hs : σ.Around s s') (hc : σ.near c c')

include hrec hs hc

theorem beside_expression :
    Beside σ σ.near (Node.Like σ.pairing) (recur .expression s c) (recur' .expression s' c') :=
  hrec .expression s s' c c' hs hc

theorem beside_body :
    Beside σ σ.near (fun r r' => σ.pairing.position (some r.1) (some r'.1) ∧
      List.Forall₂ (Node.Like σ.pairing) r.2 r'.2) (body recur s c) (body recur' s' c') := by
  let stops : List TokenKind := [.symbol .rightBrace, .endOfInput]
  apply (beside_require_near hc (by decide) (by decide) _).bind
  intro brace brace' d d' hbrace hd
  obtain ⟨more, total, hitems⟩ : ∃ more total, Loops σ more total
      (nested (do manyUntil stops (recur .declaration) (← read).length []) s d)
      (nested (do manyUntil stops (recur' .declaration) (← read).length []) s' d') :=
    ⟨_, _, nested_cases hs hd (fun h => .together (.same h)) (fun x h => .together (.lost h x))
      (loops_manyUntil (by decide) (fun c c' => hrec .declaration _ _ c c' hs.deeper) hs.length .nil
        (.inl hd))⟩
  rw [bind_apply, bind_apply]
  generalize nested _ s d = x at hitems ⊢
  generalize nested _ s' d' = x' at hitems ⊢
  cases hitems with
  | together h =>
    cases h with
    | same h => exact .same h
    | lost h => exact .lost h _
    | result hns he =>
      apply (beside_require_near he (by decide) (by decide) _).bind
      intro _ _ f f' _ hf
      exact beside_pure ⟨hbrace.pos, hns⟩ hf
  | @ahead ns ns' e e' k hns he _ =>
    -- The first parser misses the brace that would close the block.
    have hmissing : e.current.kind ≠ .symbol .rightBrace := by
      rw [(σ.apart_ended he).left]
      decide
    simp only [bind_apply, require_of_ne hmissing]
    exact .lost ((σ.apart_ended he).lost _) _

theorem beside_definition {p p' : Position} (hp : σ.pairing.position (some p) (some p'))
    (x : Option String) :
    Beside σ σ.near (Definition.Like σ.pairing) (definition recur p x s c)
      (definition recur' p' x s' c') := by
  apply (beside_parameters hs hc).bind
  rintro params _ d d' rfl hd
  have hbody : Beside σ σ.near _ (inFunction (body recur) s d) (inFunction (body recur') s' d') :=
    beside_body hrec hs.function hd
  apply hbody.bind
  rintro ⟨q, ns⟩ ⟨q', ns'⟩ e e' ⟨hq, hns⟩ he
  exact beside_pure (.mk x params hp hq hns) he

omit hrec hs in
theorem beside_literal {value : Token → Value} (hk : c.current.kind ≠ .endOfInput)
    (hsemi : c.current.kind ≠ .symbol .semicolon)
    (hvalue : ∀ t t', t.Like σ.pairing t' → (value t).Like σ.pairing (value t')) :
    Beside σ σ.near (Node.Like σ.pairing) (literal value s c) (literal value s' c') := by
  apply (beside_take_near hc hk hsemi).bind
  rintro t t' d d' ht ⟨-, hd⟩
  exact beside_pure (.literal ht.pos (hvalue t t' ht)) hd

omit hrec hs hc in
theorem like_literalValue {t t' : Token} (ht : t.Like σ.pairing t') :
    (literalValue t).Like σ.pairing (literalValue t') := by
  have heq : literalValue t = literalValue t' := by
    unfold literalValue
    rw [ht.value]
  rw [← heq]
  exact .of_isLiteral (literalValue_isLiteral t)

theorem beside_group (hk : c.current.kind = .symbol .leftParen) :
    Beside σ σ.near (Node.Like σ.pairing) (group recur s c) (group recur' s' c') := by
  apply (beside_take_near hc (by rw [hk]; decide) (by rw [hk]; decide)).bind
  rintro _ _ d d' _ ⟨-, hd⟩
  apply (beside_expression hrec hs hd).bind
  intro n n' e e' hn he
  apply (beside_require_near he (by decide) (by decide) _).bind
  intro _ _ f f' _ hf
  exact beside_pure hn hf

theorem beside_primary :
    Beside σ σ.near (Node.Like σ.pairing) (primary recur s c) (primary recur' s' c') := by
  have ht := σ.current_corresponds hc
  apply Beside.bind_current
  rw [← ht.kind]
  generalize hk : c.current.kind = kind
  have hne {k : TokenKind} (h : k ≠ .endOfInput) (hk : c.current.kind = k) :
      c.current.kind ≠ .endOfInput := hk ▸ h
  have hns {k : TokenKind} (h : k ≠ .symbol .semicolon) (hk : c.current.kind = k) :
      c.current.kind ≠ .symbol .semicolon := hk ▸ h
  split
  · exact beside_literal hc (hne (by decide) hk) (hns (by decide) hk) fun _ _ => like_literalValue
  · exact beside_literal hc (hne (by decide) hk) (hns (by decide) hk) fun _ _ => like_literalValue
  · exact beside_literal hc (hne (by decide) hk) (hns (by decide) hk) fun _ _ _ => .bool true
  · exact beside_literal hc (hne (by decide) hk) (hns (by decide) hk) fun _ _ _ => .bool false
  · exact beside_literal hc (hne (by decide) hk) (hns (by decide) hk) fun _ _ _ => .nil
  · apply (beside_take_near hc (hne (by decide) hk) (hns (by decide) hk)).bind
    rintro t t' d d' ht ⟨-, hd⟩
    rw [← ht.text]
    exact beside_pure (.name _ ht.pos) hd
  · exact beside_group hrec hs hc hk
  · apply (beside_take_near hc (hne (by decide) hk) (hns (by decide) hk)).bind
    rintro t t' d d' ht ⟨-, hd⟩
    apply (beside_definition hrec hs hd ht.pos none).bind
    intro _ _ e e' hdef he
    exact beside_pure (.function hdef) he
  · exact beside_fault (.noExpression (σ.near_current hc)) ht.pos

theorem beside_manyCommas {n n' : Nat} (hn : σ.Turns n n') {items items' : List Node}
    (hitems : List.Forall₂ (Node.Like σ.pairing) items items') :
    Beside σ σ.near (List.Forall₂ (Node.Like σ.pairing))
      (manyCommas (recur .expression) n items s c)
      (manyCommas (recur' .expression) n' items' s' c') := by
  induction n generalizing n' items items' c c' with
  | zero => exact beside_exhausted_left hn hc (by rintro rfl; rfl)
  | succ n ih =>
    obtain ⟨k, rfl, hk⟩ := hn.pred
    apply (beside_accept hc (by decide) (by decide)).bind
    rintro yes _ d d' rfl hd
    cases yes with
    | false => exact beside_pure (List.forall₂_reverse_iff.mpr hitems) hd
    | true =>
      apply (beside_expression hrec hs hd).bind
      intro m m' e e' hm he
      exact ih he hk (.cons hm hitems)

theorem beside_arguments :
    Beside σ σ.near (List.Forall₂ (Node.Like σ.pairing)) (arguments recur s c)
      (arguments recur' s' c') := by
  apply Beside.bind_currentKind hc
  split
  · exact beside_pure .nil hc
  · apply Beside.bind_read
    apply (beside_expression hrec hs hc).bind
    intro n n' d d' hn hd
    exact beside_manyCommas hrec hs hd hs.length (.cons hn .nil)

theorem beside_callsFrom {n n' : Nat} (hn : σ.Turns n n') {callee callee' : Node}
    (hcallee : callee.Like σ.pairing callee') :
    Beside σ σ.near (Node.Like σ.pairing) (callsFrom recur n callee s c)
      (callsFrom recur' n' callee' s' c') := by
  induction n generalizing n' callee callee' c c' with
  | zero => exact beside_exhausted_left hn hc (by rintro rfl; rfl)
  | succ n ih =>
    obtain ⟨k, rfl, hk⟩ := hn.pred
    apply Beside.bind_currentKind hc
    split
    · rename_i hparen
      apply (beside_take_near hc (by rw [hparen]; decide) (by rw [hparen]; decide)).bind
      rintro t t' d d' ht ⟨-, hd⟩
      apply (beside_arguments hrec hs hd).bind
      intro ns ns' e e' hns he
      apply (beside_require_near he (by decide) (by decide) _).bind
      intro _ _ f f' _ hf
      exact ih hf hk (.call ht.pos hcallee hns)
    · exact beside_pure hcallee hc

theorem beside_unary :
    Beside σ σ.near (Node.Like σ.pairing) (unary recur s c) (unary recur' s' c') := by
  apply Beside.bind_currentKind hc
  split
  · rename_i hop
    have hne : c.current.kind ≠ .endOfInput := by rcases hop with h | h <;> rw [h] <;> decide
    have hns : c.current.kind ≠ .symbol .semicolon := by
      rcases hop with h | h <;> rw [h] <;> decide
    apply (beside_take_near hc hne hns).bind
    rintro t t' d d' ht ⟨-, hd⟩
    apply (Beside.nested hs hd (hrec .unary _ _ d d' hs.deeper hd)).bind
    intro n n' e e' hn he
    rw [← ht.text]
    exact beside_pure (.unary _ ht.pos hn) he
  · apply Beside.bind_read
    apply (beside_primary hrec hs hc).bind
    intro n n' d d' hn hd
    exact beside_callsFrom hrec hs hd hs.length hn

end

section

open Grammar

variable {s s' : Surroundings} {c c' : Cursor} {operand operand' : Parser Node}

theorem beside_chainFrom {ops : List TokenKind} (heof : .endOfInput ∉ ops)
    (hsemicolon : .symbol .semicolon ∉ ops)
    (hoperand : ∀ c c', σ.near c c' →
      Beside σ σ.near (Node.Like σ.pairing) (operand s c) (operand' s' c'))
    {n n' : Nat} (hn : σ.Turns n n') {left left' : Node} (hleft : left.Like σ.pairing left')
    (hc : σ.near c c') :
    Beside σ σ.near (Node.Like σ.pairing) (chainFrom ops operand n left s c)
      (chainFrom ops operand' n' left' s' c') := by
  induction n generalizing n' left left' c c' with
  | zero => exact beside_exhausted_left hn hc (by rintro rfl; rfl)
  | succ n ih =>
    obtain ⟨k, rfl, hk⟩ := hn.pred
    apply Beside.bind_currentKind hc
    split
    · rename_i hop
      have hmem := List.contains_iff_mem.mp hop
      apply (beside_take_near hc (fun h => heof (h ▸ hmem)) fun h => hsemicolon (h ▸ hmem)).bind
      rintro t t' d d' ht ⟨-, hd⟩
      apply (hoperand d d' hd).bind
      intro m m' e e' hm he
      rw [← ht.text]
      exact ih hk (.binary _ ht.pos hleft hm) he
    · exact beside_pure hleft hc

theorem beside_levels (hs : σ.Around s s') {ls : List (List TokenKind)}
    (hls : ∀ ops ∈ ls, .endOfInput ∉ ops ∧ .symbol .semicolon ∉ ops)
    (hoperand : ∀ c c', σ.near c c' →
      Beside σ σ.near (Node.Like σ.pairing) (operand s c) (operand' s' c'))
    (hc : σ.near c c') :
    Beside σ σ.near (Node.Like σ.pairing) (ls.foldr chain operand s c)
      (ls.foldr chain operand' s' c') := by
  induction ls generalizing c c' with
  | nil => exact hoperand c c' hc
  | cons ops ls ih =>
    obtain ⟨⟨heof, hsemicolon⟩, hls⟩ := List.forall_mem_cons.mp hls
    apply Beside.bind_read
    apply (ih hls hc).bind
    intro n n' d d' hn hd
    exact beside_chainFrom heof hsemicolon (fun c c' => ih hls) hs.length hn hd

end

section

open Grammar

variable {recur recur' : Rule → Parser Node} (hrec : σ.Parallel recur recur') {s s' : Surroundings}
  {c c' : Cursor} (hs : σ.Around s s') (hc : σ.near c c')

include hrec hs hc

theorem beside_assignment :
    Beside σ σ.near (Node.Like σ.pairing) (assignment recur s c) (assignment recur' s' c') := by
  apply (beside_levels hs (by decide) (fun c c' => hrec .unary s s' c c' hs) hc).bind
  intro n n' d d' hn hd
  apply Beside.bind_currentKind hd
  split
  · rename_i hequal
    apply (beside_take_near hd (by rw [hequal]; decide) (by rw [hequal]; decide)).bind
    rintro t t' e e' ht ⟨-, he⟩
    apply (hrec .assignment s s' e e' hs he).bind
    intro v v' f f' hv hf
    cases hn with
    | name x hp => exact beside_pure (.assign x hp hv) hf
    | _ => exact beside_fault .invalidTarget ht.pos
  · exact beside_pure hn hd

omit hc in
theorem beside_elseBranch (hc : σ.after c c') :
    Beside σ σ.after (Option.Rel (Node.Like σ.pairing)) (elseBranch recur s c)
      (elseBranch recur' s' c') := by
  rcases hc with hc | hc
  · apply (beside_accept hc (by decide) (by decide)).bind
    rintro yes _ d d' rfl hd
    cases yes with
    | false => exact beside_pure .none (.inl hd)
    | true =>
      exact (hrec .statement s s' d d' hs hd).bind fun _ _ _ _ hn he =>
        beside_pure (Option.Rel.some hn) he
  · have hleft : c.current.kind ≠ .keyword .elseWord := by
      rw [(σ.apart_ended hc).left]
      decide
    unfold elseBranch
    rw [bind_apply, bind_apply, accept_of_ne hleft, accept_of_ne (σ.apart_ended hc).right]
    exact beside_pure .none (.inr hc)

theorem beside_conditional (hk : c.current.kind = .keyword .ifWord) :
    Beside σ σ.after (Node.Like σ.pairing) (conditional recur s c) (conditional recur' s' c') := by
  apply (beside_take_near hc (by rw [hk]; decide) (by rw [hk]; decide)).bind
  rintro t t' d d' ht ⟨-, hd⟩
  apply (beside_expression hrec hs hd).bind
  intro n n' e e' hn he
  apply (beside_require_near he (by decide) (by decide) _).bind
  intro _ _ f f' _ hf
  apply (hrec .statement s s' f f' hs hf).bind
  intro m m' g g' hm hg
  apply (beside_elseBranch hrec hs hg).bind
  rintro b b' h h' (hb | _) hh
  · exact beside_pure (.twoBranches ht.pos hn hm hb) hh
  · exact beside_pure (.oneBranch ht.pos hn hm) hh

theorem beside_loop (hk : c.current.kind = .keyword .whileWord) :
    Beside σ σ.after (Node.Like σ.pairing) (loop recur s c) (loop recur' s' c') := by
  apply (beside_take_near hc (by rw [hk]; decide) (by rw [hk]; decide)).bind
  rintro t t' d d' ht ⟨-, hd⟩
  apply (beside_expression hrec hs hd).bind
  intro n n' e e' hn he
  apply (beside_require_near he (by decide) (by decide) _).bind
  intro _ _ f f' _ hf
  apply (hrec .statement s s' f f' hs hf).bind
  intro m m' g g' hm hg
  exact beside_pure (.loop ht.pos hn hm) hg

theorem beside_returnValue :
    Beside σ σ.near (Option.Rel (Node.Like σ.pairing)) (returnValue recur s c)
      (returnValue recur' s' c') := by
  apply Beside.bind_currentKind hc
  split
  · exact beside_pure .none hc
  · exact (beside_expression hrec hs hc).bind fun _ _ _ _ hn hd =>
      beside_pure (Option.Rel.some hn) hd

theorem beside_returnStatement (hk : c.current.kind = .keyword .returnWord) :
    Beside σ σ.after (Node.Like σ.pairing) (returnStatement recur s c)
      (returnStatement recur' s' c') := by
  apply Beside.bind_read
  rw [← hs.inFunction]
  split
  · apply (beside_take_near hc (by rw [hk]; decide) (by rw [hk]; decide)).bind
    rintro t t' d d' ht ⟨-, hd⟩
    apply (beside_returnValue hrec hs hd).bind
    intro v v' e e' hv he
    apply (beside_endStatement he _).bind
    intro _ _ f f' _ hf
    cases hv with
    | none => exact beside_pure (.ret ht.pos) hf
    | some hn => exact beside_pure (.retValue ht.pos hn) hf
  · apply Beside.bind_current
    exact beside_fault .returnOutside (σ.current_corresponds hc).pos

theorem beside_block :
    Beside σ σ.after (Node.Like σ.pairing) (block recur s c) (block recur' s' c') := by
  apply (beside_body hrec hs hc).bind
  rintro ⟨p, ns⟩ ⟨p', ns'⟩ d d' ⟨hp, hns⟩ hd
  exact beside_pure (.block hp hns) (.inl hd)

theorem beside_expressionStatement :
    Beside σ σ.after (Node.Like σ.pairing) (expressionStatement recur s c)
      (expressionStatement recur' s' c') := by
  apply (beside_expression hrec hs hc).bind
  intro n n' d d' hn hd
  apply (beside_endStatement hd _).bind
  intro _ _ e e' _ he
  exact beside_pure (.expression hn.pos hn) he

theorem beside_statement :
    Beside σ σ.after (Node.Like σ.pairing) (statement recur s c) (statement recur' s' c') := by
  apply Beside.bind_currentKind hc
  generalize hk : c.current.kind = kind
  split
  · exact beside_conditional hrec hs hc hk
  · exact beside_loop hrec hs hc hk
  · exact beside_returnStatement hrec hs hc hk
  · exact beside_block hrec hs hc
  · exact beside_expressionStatement hrec hs hc

theorem beside_functionDeclaration (hk : c.current.kind = .keyword .funWord)
    (hnext : c.next.kind = .identifier) :
    Beside σ σ.after (Node.Like σ.pairing) (functionDeclaration recur s c)
      (functionDeclaration recur' s' c') := by
  apply (beside_take_near hc (by rw [hk]; decide) (by rw [hk]; decide)).bind
  rintro t t' d d' ht ⟨hcurrent, hd⟩
  have hname : d.current.kind = .identifier := by rw [hcurrent, hnext]
  apply (beside_take_near hd (by rw [hname]; decide) (by rw [hname]; decide)).bind
  rintro x x' e e' hx ⟨-, he⟩
  rw [← hx.text]
  apply (beside_definition hrec hs he ht.pos (some x.text)).bind
  intro _ _ f f' hdef hf
  exact beside_pure (.declareFunction ht.pos hdef) (.inl hf)

theorem beside_varDeclaration (hk : c.current.kind = .keyword .varWord) :
    Beside σ σ.after (Node.Like σ.pairing) (varDeclaration recur s c)
      (varDeclaration recur' s' c') := by
  apply (beside_take_near hc (by rw [hk]; decide) (by rw [hk]; decide)).bind
  rintro t t' d d' ht ⟨-, hd⟩
  apply (beside_require_near hd (by decide) (by decide) _).bind
  intro x x' e e' hx he
  apply (beside_require_near he (by decide) (by decide) _).bind
  intro _ _ f f' _ hf
  apply (beside_expression hrec hs hf).bind
  intro n n' g g' hn hg
  apply (beside_endStatement hg _).bind
  intro _ _ h h' _ hh
  rw [← hx.text]
  exact beside_pure (.declareVar _ ht.pos hn) hh

theorem beside_declaration :
    Beside σ σ.after (Node.Like σ.pairing) (declaration recur s c) (declaration recur' s' c') := by
  have hnamed : (c.current.kind = .keyword .funWord ∧ c.next.kind = .identifier) ↔
      (c.current.kind = .keyword .funWord ∧ c'.next.kind = .identifier) :=
    and_congr_right fun hk => σ.near_next hc hk
  apply Beside.bind_currentKind hc
  change Beside σ σ.after _ ((if c.current.kind = _ ∧ c.next.kind = _ then _ else _ : Parser Node) s c)
    ((if c.current.kind = _ ∧ c'.next.kind = _ then _ else _ : Parser Node) s' c')
  by_cases hfun : c.current.kind = .keyword .funWord ∧ c.next.kind = .identifier
  · rw [if_pos hfun, if_pos (hnamed.mp hfun)]
    exact beside_functionDeclaration hrec hs hc hfun.1 hfun.2
  · rw [if_neg hfun, if_neg (mt hnamed.mpr hfun)]
    split
    · rename_i hvar
      exact beside_varDeclaration hrec hs hc hvar
    · exact hrec .statement s s' c c' hs hc

theorem beside_expand (rule : Rule) :
    Beside σ (σ.behind rule) (Node.Like σ.pairing) (expand recur rule s c)
      (expand recur' rule s' c') := by
  cases rule with
  | declaration => exact beside_declaration hrec hs hc
  | statement => exact .nested hs hc (beside_statement hrec hs.deeper hc)
  | expression => exact .nested hs hc (hrec .assignment _ _ c c' hs.deeper hc)
  | assignment => exact beside_assignment hrec hs hc
  | unary => exact beside_unary hrec hs hc

end

theorem parallel_parse (σ : Reading) (room : Nat) : σ.Parallel (Rule.parse room) (Rule.parse room) := by
  induction room with
  | zero => exact fun rule s s' c c' _ hc => beside_exhausted hc
  | succ room ih => exact fun rule s s' c c' hs hc => beside_expand ih hs hc rule

theorem loops_declarations (room : Nat) {N M : Int} {length length' : Nat} {c c' : Cursor}
    (hs : σ.Around ⟨N, 0, false, length⟩ ⟨M, 0, false, length'⟩) (hc : σ.near c c') :
    Loops σ (fun ns k d => manyUntil [.endOfInput] (Rule.parse room .declaration) k ns.reverse
        ⟨M, 0, false, length'⟩ d) length'
      (Program.declarations room N length c) (Program.declarations room M length' c') :=
  loops_manyUntil (List.mem_singleton_self _) (fun c c' => parallel_parse σ room .declaration _ _ c c' hs)
    hs.length .nil (.inl hc)

end Reading

end Scriptlet
