import Scriptlet.Proofs.OutlineReading
import Scriptlet.Syntax.Equality

namespace Scriptlet

mutual

def Node.literals : Node → List Value
  | .literal _ v => [v]
  | .name _ _ => []
  | .binary _ _ a b => a.literals ++ b.literals
  | .unary _ _ a => a.literals
  | .assign _ _ a => a.literals
  | .call _ f args => f.literals ++ Node.literalsIn args
  | .function d => d.literals
  | .program _ ss => Node.literalsIn ss
  | .expression _ a => a.literals
  | .declareVar _ _ a => a.literals
  | .declareFunction _ d => d.literals
  | .block _ ss => Node.literalsIn ss
  | .conditional _ c t e => c.literals ++ (t.literals ++ Node.literalsOf e)
  | .loop _ c b => c.literals ++ b.literals
  | .ret _ v => Node.literalsOf v
  | .hole _ _ => []
termination_by structural n => n

def Definition.literals : Definition → List Value
  | ⟨_, _, _, _, b⟩ => Node.literalsIn b
termination_by structural d => d

def Node.literalsIn : List Node → List Value
  | [] => []
  | a :: as => a.literals ++ Node.literalsIn as
termination_by structural ns => ns

def Node.literalsOf : Option Node → List Value
  | none => []
  | some a => a.literals
termination_by structural n => n

end

/-- The payloads `vs` of one tree face the payloads `ws` of another one. If all of them are of the same
kinds, then `P` holds. -/
structure Facing (vs ws : List Value) (P : Prop) : Prop where
  length : vs.length = ws.length
  of_kinds : List.Forall₂ (fun v w => v.sameKind w) vs ws → P

namespace Facing

variable {vs ws vs' ws' : List Value} {P Q : Prop}

theorem nil (h : P) : Facing [] [] P :=
  ⟨rfl, fun _ => h⟩

theorem mono (h : Facing vs ws P) (hPQ : P → Q) : Facing vs ws Q :=
  ⟨h.length, fun hkinds => hPQ (h.of_kinds hkinds)⟩

theorem append (h : Facing vs ws P) (h' : Facing vs' ws' Q) :
    Facing (vs ++ vs') (ws ++ ws') (P ∧ Q) := by
  refine ⟨by rw [List.length_append, List.length_append, h.length, h'.length], fun hkinds => ?_⟩
  have hleft := List.forall₂_take_append _ _ _ hkinds
  have hright := List.forall₂_drop_append _ _ _ hkinds
  rw [← h.length, List.take_left'] at hleft
  rw [← h.length, List.drop_left'] at hright
  · exact ⟨h.of_kinds hleft, h'.of_kinds hright⟩
  all_goals rfl

end Facing

theorem Value.Legible.like_of_alike {ρ : Pairing} {v w : Value} (hv : v.Legible) (hw : w.Legible)
    (h : v.alike w = true) (hkind : v.sameKind w = true) : v.Like ρ w := by
  cases hv with
  | nil =>
    cases hw with
    | nil => exact .nil
    | _ => cases hkind
  | bool b =>
    cases hw with
    | bool b' =>
      obtain rfl : b = b' := eq_of_beq h
      exact .bool b
    | _ => cases hkind
  | number hx =>
    cases hw with
    | number hy =>
      obtain rfl := hx.eq_of_beq hy h
      exact .number _
    | _ => cases hkind
  | string s =>
    cases hw with
    | string t =>
      obtain rfl : s = t := eq_of_beq h
      exact .string s
    | _ => cases hkind

abbrev Node.Matches (n m : Node) : Prop :=
  Facing n.literals m.literals (n.Like .layout m)

theorem Node.matches_of_sameList {r : Role} {ns ms : List Node}
    (hns : ∀ n ∈ ns, ∀ {m : Node}, m.Legible r → n.same m = true → n.Matches m)
    (hms : ∀ m ∈ ms, m.Legible r) (h : sameList ns ms = true) :
    Facing (literalsIn ns) (literalsIn ms) (List.Forall₂ (Node.Like .layout) ns ms) := by
  induction ns generalizing ms with
  | nil =>
    cases ms with
    | nil => exact .nil .nil
    | cons => cases h
  | cons n ns ih =>
    cases ms with
    | nil => cases h
    | cons m ms =>
      obtain ⟨hfirst, hrest⟩ := Bool.and_eq_true_iff.mp h
      obtain ⟨hn, hns⟩ := List.forall_mem_cons.mp hns
      obtain ⟨hm, hms⟩ := List.forall_mem_cons.mp hms
      exact ((hn hm hfirst).append (ih hns hms hrest)).mono fun ⟨hlike, hlikes⟩ => .cons hlike hlikes

theorem Definition.Headed.matches_of_same {d d' : Definition} (hd : d.Headed) (hd' : d'.Headed)
    (h : d.same d' = true) (hbody : Node.sameList d.body d'.body = true →
      Facing (Node.literalsIn d.body) (Node.literalsIn d'.body)
        (List.Forall₂ (Node.Like .layout) d.body d'.body)) :
    Facing d.literals d'.literals (d.Like .layout d') := by
  obtain ⟨pos, name, params, bodyPos, body⟩ := d
  obtain ⟨pos', name', params', bodyPos', body'⟩ := d'
  obtain ⟨hhead, hsame⟩ := Bool.and_eq_true_iff.mp h
  obtain ⟨hname, hparams⟩ := Bool.and_eq_true_iff.mp hhead
  obtain rfl := eq_of_beq hname
  obtain rfl := eq_of_beq hparams
  exact (hbody hsame).mono fun hlikes =>
    .mk _ _ (hd.pos.trans hd'.pos.symm) (hd.bodyPos.trans hd'.bodyPos.symm) hlikes

theorem Node.Legible.matches_of_same {r : Role} {n : Node} (h : n.Legible r) :
    ∀ {m : Node}, m.Legible r → n.same m = true → n.Matches m := by
  induction h with
  | literal hp hv =>
    intro m hm hsame
    cases hm with
    | literal hp' hw =>
      refine ⟨rfl, fun hkinds => .literal (hp.trans hp'.symm) ?_⟩
      obtain ⟨hkind, -⟩ := List.forall₂_cons.mp hkinds
      exact hv.like_of_alike hw hsame hkind
    | _ => cases hsame
  | name hp =>
    intro m hm hsame
    cases hm with
    | name hp' =>
      obtain rfl := eq_of_beq hsame
      exact .nil (.name _ (hp.trans hp'.symm))
    | _ => cases hsame
  | binary hp _ _ _ iha ihb =>
    intro m hm hsame
    cases hm with
    | binary hp' _ ha' hb' =>
      obtain ⟨hleft, hb⟩ := Bool.and_eq_true_iff.mp hsame
      obtain ⟨hop, ha⟩ := Bool.and_eq_true_iff.mp hleft
      obtain rfl := eq_of_beq hop
      exact ((iha ha' ha).append (ihb hb' hb)).mono fun ⟨la, lb⟩ => .binary _ (hp.trans hp'.symm) la lb
    | _ => cases hsame
  | unary hp _ _ ih =>
    intro m hm hsame
    cases hm with
    | unary hp' _ ha' =>
      obtain ⟨hop, ha⟩ := Bool.and_eq_true_iff.mp hsame
      obtain rfl := eq_of_beq hop
      exact (ih ha' ha).mono fun la => .unary _ (hp.trans hp'.symm) la
    | _ => cases hsame
  | assign hp _ _ ih =>
    intro m hm hsame
    cases hm with
    | assign hp' _ ha' =>
      obtain ⟨hname, ha⟩ := Bool.and_eq_true_iff.mp hsame
      obtain rfl := eq_of_beq hname
      exact (ih ha' ha).mono fun la => .assign _ (hp.trans hp'.symm) la
    | _ => cases hsame
  | call hp _ _ ih ihs =>
    intro m hm hsame
    cases hm with
    | call hp' ha' hns' =>
      obtain ⟨ha, hns⟩ := Bool.and_eq_true_iff.mp hsame
      exact ((ih ha' ha).append (matches_of_sameList ihs hns' hns)).mono
        fun ⟨la, las⟩ => .call (hp.trans hp'.symm) la las
    | _ => cases hsame
  | function hd _ _ ihs =>
    intro m hm hsame
    cases hm with
    | function hd' _ hbody' =>
      exact (hd.matches_of_same hd' hsame (matches_of_sameList ihs hbody')).mono .function
    | _ => cases hsame
  | expression _ hp _ ih =>
    intro m hm hsame
    cases hm with
    | expression _ hp' ha' => exact (ih ha' hsame).mono fun la => .expression (hp.trans hp'.symm) la
    | _ => cases hsame
  | block _ hp _ ihs =>
    intro m hm hsame
    cases hm with
    | block _ hp' hns' =>
      exact (matches_of_sameList ihs hns' hsame).mono fun las => .block (hp.trans hp'.symm) las
    | _ => cases hsame
  | oneBranch _ hp _ _ ihc ihn =>
    intro m hm hsame
    cases hm with
    | oneBranch _ hp' hc' hn' =>
      obtain ⟨hboth, -⟩ := Bool.and_eq_true_iff.mp hsame
      obtain ⟨hc, hn⟩ := Bool.and_eq_true_iff.mp hboth
      exact ((ihc hc' hc).append ((ihn hn' hn).append (.nil trivial))).mono
        fun ⟨lc, ln, _⟩ => .oneBranch (hp.trans hp'.symm) lc ln
    | twoBranches => cases (Bool.and_eq_true_iff.mp hsame).2
    | _ => cases hsame
  | twoBranches _ hp _ _ _ ihc ihn ihk =>
    intro m hm hsame
    cases hm with
    | twoBranches _ hp' hc' hn' hk' =>
      obtain ⟨hboth, hk⟩ := Bool.and_eq_true_iff.mp hsame
      obtain ⟨hc, hn⟩ := Bool.and_eq_true_iff.mp hboth
      exact ((ihc hc' hc).append ((ihn hn' hn).append (ihk hk' hk))).mono
        fun ⟨lc, ln, lk⟩ => .twoBranches (hp.trans hp'.symm) lc ln lk
    | oneBranch => cases (Bool.and_eq_true_iff.mp hsame).2
    | _ => cases hsame
  | loop _ hp _ _ ihc ihn =>
    intro m hm hsame
    cases hm with
    | loop _ hp' hc' hn' =>
      obtain ⟨hc, hn⟩ := Bool.and_eq_true_iff.mp hsame
      exact ((ihc hc' hc).append (ihn hn' hn)).mono fun ⟨lc, ln⟩ => .loop (hp.trans hp'.symm) lc ln
    | _ => cases hsame
  | ret _ hp =>
    intro m hm hsame
    cases hm with
    | ret _ hp' => exact .nil (.ret (hp.trans hp'.symm))
    | _ => cases hsame
  | retValue _ hp _ ih =>
    intro m hm hsame
    cases hm with
    | retValue _ hp' ha' => exact (ih ha' hsame).mono fun la => .retValue (hp.trans hp'.symm) la
    | _ => cases hsame
  | declareVar hp _ _ ih =>
    intro m hm hsame
    cases hm with
    | declareVar hp' _ ha' =>
      obtain ⟨hname, ha⟩ := Bool.and_eq_true_iff.mp hsame
      obtain rfl := eq_of_beq hname
      exact (ih ha' ha).mono fun la => .declareVar _ (hp.trans hp'.symm) la
    | _ => cases hsame
  | declareFunction hp hd _ _ _ ihs =>
    intro m hm hsame
    cases hm with
    | declareFunction hp' hd' _ _ hbody' =>
      exact (hd.matches_of_same hd' hsame (matches_of_sameList ihs hbody')).mono
        fun ld => .declareFunction (hp.trans hp'.symm) ld
    | _ => cases hsame

namespace Program

/-- Equal programs with literals of the same kinds mean the same. They have one outline, and run alike
from every machine: to values with the same text or to the same error, with the same output and after
as many steps. -/
theorem same_means_same {room room' : Nat} {maxNesting maxNesting' : Int}
    {source source' : String} {p p' : Program}
    (hp : ofTokens room maxNesting (.ofSource source) = .ok p)
    (hp' : ofTokens room' maxNesting' (.ofSource source') = .ok p')
    (hsame : p.node.same p'.node = true)
    (hkinds : List.Forall₂ (fun v w => v.sameKind w) p.node.literals p'.node.literals) :
    p.node.outline = p'.node.outline ∧
      ∀ (limits : Limits) (e : Scope) (m : Machine),
        let x := run limits p.statements e m
        let x' := run limits p'.statements e m
        ((∃ v v', x.1 = .ok v ∧ x'.1 = .ok v' ∧ v.text = v'.text) ∨
          ∃ s s', x.1 = .error s ∧ x'.1 = .error s' ∧ s.failure.Like .layout s'.failure) ∧
        x.2.output = x'.2.output ∧ x.2.steps = x'.2.steps := by
  have hns : List.Forall₂ (Node.Like .layout) p.statements p'.statements :=
    (Node.matches_of_sameList (fun n hn => (legible_of_ofTokens hp n hn).matches_of_same)
      (legible_of_ofTokens hp') hsame).of_kinds hkinds
  have hlike : p.node.Like .layout p'.node := .program rfl hns
  refine ⟨hlike.outline, fun limits e m => ?_⟩
  have hcounts : Pairing.layout.Counts limits.maxSteps := .inr fun _ _ => id
  obtain ⟨hends, hmachine, -⟩ := parallel_run hcounts rfl (List.forall₂_same.mpr fun _ _ => rfl) hns m m
    m.like_layout
  intro x x'
  refine ⟨?_, hmachine.output, hmachine.steps⟩
  change Ends _ _ x.1 x'.1 at hends
  generalize x.1 = r at hends ⊢
  generalize x'.1 = r' at hends ⊢
  cases hends with
  | value hv => exact .inl ⟨_, _, rfl, rfl, hv.text⟩
  | stop hs => exact .inr ⟨_, _, rfl, rfl, hs.failure⟩

theorem tokens_one : TokenStream.ofSource "1" =
    ⟨[⟨.number, "1", ⟨1, 1⟩, 0, some (.number (Number.ofDecimal ['1'] [] 0))⟩,
      .endOfInput ⟨1, 2⟩ 1], none⟩ := by
  unfold TokenStream.ofSource Scanner.ofSource
  rw [show "1".toList = ['1'] from rfl]
  iterate 2 rw [Scanner.stream_step rfl rfl]
  rw [Scanner.stream_finished rfl]
  rfl

theorem same_means_same_parentheses :
    ∃ p p', ofTokens 100 128 (.ofSource "1") = .ok p ∧ ofTokens 100 128 (.ofSource "(1)") = .ok p' ∧
      p.node.same p'.node = true ∧
      List.Forall₂ (fun v w => v.sameKind w) p.node.literals p'.node.literals ∧
      p.node.outline = p'.node.outline := by
  have hsource : TokenStream.ofSource "(1)" =
      ⟨[⟨.symbol .leftParen, "(", ⟨1, 1⟩, 0, none⟩,
        ⟨.number, "1", ⟨1, 2⟩, 1, some (.number (Number.ofDecimal ['1'] [] 0))⟩,
        ⟨.symbol .rightParen, ")", ⟨1, 3⟩, 2, none⟩, .endOfInput ⟨1, 4⟩ 3], none⟩ := by
    unfold TokenStream.ofSource Scanner.ofSource
    rw [show "(1)".toList = ['(', '1', ')'] from rfl]
    iterate 4 rw [Scanner.stream_step rfl rfl]
    rw [Scanner.stream_finished rfl]
    rfl
  have hp : ofTokens 100 128 (.ofSource "1") = .ok ⟨[.expression (some ⟨1, 1⟩)
      (.literal (some ⟨1, 1⟩) (.number (Number.ofDecimal ['1'] [] 0)))]⟩ := by
    rw [tokens_one]
    rfl
  have hp' : ofTokens 100 128 (.ofSource "(1)") = .ok ⟨[.expression (some ⟨1, 2⟩)
      (.literal (some ⟨1, 2⟩) (.number (Number.ofDecimal ['1'] [] 0)))]⟩ := by
    rw [hsource]
    rfl
  have hkinds : List.Forall₂ (fun v w : Value => v.sameKind w)
      [.number (Number.ofDecimal ['1'] [] 0)] [.number (Number.ofDecimal ['1'] [] 0)] := .cons rfl .nil
  have hsame : (Node.program (some .start) [.expression (some ⟨1, 1⟩)
      (.literal (some ⟨1, 1⟩) (.number (Number.ofDecimal ['1'] [] 0)))]).same
      (.program (some .start) [.expression (some ⟨1, 2⟩)
        (.literal (some ⟨1, 2⟩) (.number (Number.ofDecimal ['1'] [] 0)))]) = true := by
    decide +kernel
  exact ⟨_, _, hp, hp', hsame, hkinds, (same_means_same hp hp' hsame hkinds).1⟩

/-- The number one and the truth are equal trees, but neither their outlines nor their values are the
same. -/
theorem same_of_one_and_true :
    ∃ p p', ofTokens 100 128 (.ofSource "1") = .ok p ∧ ofTokens 100 128 (.ofSource "true") = .ok p' ∧
      p.node.same p'.node = true ∧ p.node.outline ≠ p'.node.outline ∧
      ∀ (e : Scope) (m : Machine), ∃ v v', (run {} p.statements e m).1 = .ok v ∧
        (run {} p'.statements e m).1 = .ok v' ∧ v.text = "1" ∧ v'.text = "true" := by
  have hsource : TokenStream.ofSource "true" =
      ⟨[⟨.keyword .trueWord, "true", ⟨1, 1⟩, 0, none⟩, .endOfInput ⟨1, 5⟩ 4], none⟩ := by
    unfold TokenStream.ofSource Scanner.ofSource
    rw [show "true".toList = ['t', 'r', 'u', 'e'] from rfl]
    iterate 2 rw [Scanner.stream_step rfl rfl]
    rw [Scanner.stream_finished rfl]
    rfl
  refine ⟨⟨[.expression (some ⟨1, 1⟩)
      (.literal (some ⟨1, 1⟩) (.number (Number.ofDecimal ['1'] [] 0)))]⟩,
    ⟨[.expression (some ⟨1, 1⟩) (.literal (some ⟨1, 1⟩) (.bool true))]⟩, ?_, ?_, ?_, ?_, ?_⟩
  · rw [tokens_one]
    rfl
  · rw [hsource]
    rfl
  · decide +kernel
  · decide +kernel
  · intro e m
    exact ⟨.number (Number.ofDecimal ['1'] [] 0), .bool true, rfl, rfl, by decide +kernel, rfl⟩

end Program

end Scriptlet
