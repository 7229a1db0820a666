import Scriptlet.Proofs.NodePlaces

namespace Scriptlet

/-- The nodes an equals sign between these tokens may belong to, with tokens right behind it that supply the
value. In front of it are `var` and a name, or else a name that may stand in parentheses. -/
inductive OwnsEquals (front behind : List Token) : Node → Prop
  | declareVar {v x : Token} {rs : List Token} {a : Node} (hfront : [v, x] <:+ front)
      (hv : v.kind = .keyword .varWord) (hx : x.kind = .identifier) (hbehind : rs <+: behind)
      (ha : a.Supplied rs) : OwnsEquals front behind (.declareVar v.pos x.text a)
  | assign {t : Token} {ls rs : List Token} {a : Node} (hfront : ls <:+ front)
      (hgroup : Grouped [t] ls) (ht : t.kind = .identifier) (hbehind : rs <+: behind)
      (ha : a.Supplied rs) : OwnsEquals front behind (.assign t.pos t.text a)

def EqualsOwned (ns : List Node) (ts : List Token) : Prop :=
  ∀ front eq behind, ts = front ++ eq :: behind → eq.kind = .symbol .equal →
    ∃ m ∈ ns, ∃ n, n.Within m ∧ OwnsEquals front behind n

theorem OwnsEquals.widen {front behind : List Token} {n : Node} (h : OwnsEquals front behind n)
    (pre post : List Token) : OwnsEquals (pre ++ front) (behind ++ post) n := by
  cases h with
  | declareVar hfront hv hx hbehind ha =>
    exact .declareVar (hfront.trans (List.suffix_append _ _)) hv hx
      (hbehind.trans (List.prefix_append _ _)) ha
  | assign hfront hgroup ht hbehind ha =>
    exact .assign (hfront.trans (List.suffix_append _ _)) hgroup ht
      (hbehind.trans (List.prefix_append _ _)) ha

namespace EqualsOwned

variable {ms ns : List Node} {ts us : List Token} {t : Token} {n : Node}

theorem of_ne (h : ∀ t ∈ ts, t.kind ≠ .symbol .equal) : EqualsOwned ns ts := by
  rintro front eq behind rfl heq
  exact absurd heq (h eq (by simp))

theorem append (hms : EqualsOwned ms ts) (hns : EqualsOwned ns us) :
    EqualsOwned (ms ++ ns) (ts ++ us) := by
  intro front eq behind h heq
  rcases List.append_eq_append_iff.mp h with ⟨more, rfl, hmore⟩ | ⟨more, rfl, hmore⟩
  · obtain ⟨m, hm, n, hn, howns⟩ := hns more eq behind hmore heq
    exact ⟨m, List.mem_append_right ms hm, n, hn, by simpa using howns.widen ts []⟩
  · cases more with
    | nil =>
      obtain ⟨m, hm, n, hn, howns⟩ := hns [] eq behind hmore.symm heq
      exact ⟨m, List.mem_append_right ms hm, n, hn, by simpa using howns.widen front []⟩
    | cons w more =>
      obtain ⟨rfl, rfl⟩ := List.cons.inj hmore
      obtain ⟨m, hm, n, hn, howns⟩ := hms front eq more rfl heq
      exact ⟨m, List.mem_append_left ns hm, n, hn, howns.widen [] us⟩

theorem cons (ht : t.kind ≠ .symbol .equal) (h : EqualsOwned ns ts) : EqualsOwned ns (t :: ts) :=
  have hfirst : EqualsOwned [] [t] := of_ne (List.forall_mem_singleton.mpr ht)
  hfirst.append h

theorem append_of_ne (h : EqualsOwned ns ts) (hus : ∀ t ∈ us, t.kind ≠ .symbol .equal) :
    EqualsOwned ns (ts ++ us) := by
  have hlast : EqualsOwned [] us := of_ne hus
  simpa using h.append hlast

theorem snoc (h : EqualsOwned ns ts) (ht : t.kind ≠ .symbol .equal) : EqualsOwned ns (ts ++ [t]) :=
  h.append_of_ne (List.forall_mem_singleton.mpr ht)

theorem of_parts (h : EqualsOwned n.parts ts) : EqualsOwned [n] ts := by
  intro front eq behind hts heq
  obtain ⟨m, hm, k, hk, howns⟩ := h front eq behind hts heq
  exact ⟨n, List.mem_singleton_self n, k, .part hm hk, howns⟩

theorem owned {eq : Token} (hts : ∀ t ∈ ts, t.kind ≠ .symbol .equal)
    (howns : ∀ rest, OwnsEquals ts (us ++ rest) n) (h : EqualsOwned n.parts us) :
    EqualsOwned [n] (ts ++ eq :: us) := by
  intro front eq' behind heq' heq
  refine ⟨n, List.mem_singleton_self n, ?_⟩
  rcases List.append_eq_append_iff.mp heq' with ⟨more, rfl, hmore⟩ | ⟨more, hfront, hmore⟩
  · cases more with
    | nil =>
      obtain ⟨rfl, rfl⟩ := List.cons.inj hmore
      exact ⟨n, .self, by simpa using howns []⟩
    | cons w more =>
      obtain ⟨rfl, rfl⟩ := List.cons.inj hmore
      obtain ⟨m, hm, k, hk, howns⟩ := h more eq' behind rfl heq
      exact ⟨k, .part hm hk, by simpa using howns.widen (ts ++ [eq]) []⟩
  · cases more with
    | nil =>
      obtain ⟨rfl, rfl⟩ := List.cons.inj hmore
      exact ⟨n, .self, by simpa [hfront] using howns []⟩
    | cons w more =>
      obtain ⟨rfl, -⟩ := List.cons.inj hmore
      exact absurd heq (hts eq' (by simp [hfront]))

end EqualsOwned

def Phrase.roots : (phrase : Phrase) → phrase.Tree → List Node
  | .primary, n | .call, n | .unary, n | .operation _, n | .target, n | .expression, n
  | .statement _, n | .declaration _, n => [n]
  | .arguments, ns | .argumentRow, ns | .declarations, ns => ns
  | .definition _ _, d => d.body

theorem Terminator.ne_equal {next : Follow} {es : List Token} (h : Terminator next es) :
    ∀ t ∈ es, t.kind ≠ .symbol .equal := by
  intro t ht
  rw [h.kind_eq t ht]
  decide

theorem Parameters.ne_equal {ts : List Token} {xs : List String} (h : Parameters ts xs) :
    ∀ t ∈ ts, t.kind ≠ .symbol .equal := by
  intro t ht heq
  have hmem := h.kind_mem t ht
  rw [heq] at hmem
  revert hmem
  decide

theorem Grouped.ne_equal {ts us : List Token} (h : Grouped ts us)
    (hts : ∀ t ∈ ts, t.kind ≠ .symbol .equal) : ∀ t ∈ us, t.kind ≠ .symbol .equal := by
  induction h with
  | bare => exact hts
  | group ho _ hc ih =>
    intro t ht
    rcases List.mem_append.mp ht with ht | ht
    · rcases List.mem_cons.mp ht with rfl | ht
      · simp [ho]
      · exact ih t ht
    · simp [List.mem_singleton.mp ht, hc]

theorem Derives.equalsOwned {f : Bool} {phrase : Phrase} {ts : List Token} {tree : phrase.Tree}
    (h : Derives f phrase ts tree) : EqualsOwned (phrase.roots tree) ts := by
  induction h with
  | literal ht => exact .of_ne (by rcases ht with ht | ht <;> simp [ht])
  | truth ht | falsity ht | nil ht | name ht | targetName ht => exact .of_ne (by simp [ht])
  | group ho _ hc ih | targetGroup ho _ hc ih => exact (ih.cons (by simp [ho])).snoc (by simp [hc])
  | lambda ht _ ih => exact .of_parts (ih.cons (by simp [ht]))
  | callee _ ih | plain _ ih | tightest _ ih | operand _ ih | operation _ ih | statement _ ih
  | arguments _ ih | lastArgument _ ih | lastDeclaration _ ih => exact ih
  | noArguments | noDeclarations => exact .of_ne (List.forall_mem_nil _)
  | call _ ho _ hc ih ihs => 
    exact .of_parts ((ih.append (ihs.cons (by simp [ho]))).snoc (by simp [hc]))
  | moreArguments _ hc _ ih ihs => exact ih.append (ihs.cons (by simp [hc]))
  | unary hop _ ih => exact .of_parts (ih.cons (by rcases hop with hop | hop <;> simp [hop]))
  | @binary _ l _ op _ _ _ _ _ hop _ iha ihb =>
    have hne : op.kind ≠ .symbol .equal := by
      intro heq
      rw [heq] at hop
      cases l <;> simp [Level.operators] at hop
    exact .of_parts (iha.append (ihb.cons hne))
  | assign h _ hn _ ihn =>
    -- The assignment owns the new sign, and the signs of its value keep their owners.
    obtain ⟨t, hgroup, ht, hname⟩ := h.supplied
    cases hname
    refine .owned (hgroup.ne_equal (by simp [ht])) (fun rest => ?_) ihn
    exact .assign List.suffix_rfl hgroup ht (List.prefix_append _ _) hn.supplied
  | @definition _ _ _ po pc bo bc params us _ _ hpo hxs hpc hbo _ hbc ih =>
    have hparams : EqualsOwned [] (po :: params) := .cons (by simp [hpo]) (.of_ne hxs.ne_equal)
    exact (hparams.append ((ih.cons (by simp [hbo])).cons (by simp [hpc]))).snoc (by simp [hbc])
  | expression _ he ih => exact .of_parts (ih.append_of_ne he.ne_equal)
  | ret ht he => exact .cons (by simp [ht]) (.of_ne he.ne_equal)
  | retValue ht _ he ih => exact .of_parts ((ih.append_of_ne he.ne_equal).cons (by simp [ht]))
  | block ho _ hc ih => exact .of_parts ((ih.cons (by simp [ho])).snoc (by simp [hc]))
  | oneBranch hi _ ht _ _ ihc ihn =>
    exact .of_parts ((ihc.cons (by simp [hi])).append (ihn.cons (by simp [ht])))
  | twoBranches hi _ ht _ he _ ihc ihn ihm =>
    exact .of_parts (((ihc.cons (by simp [hi])).append (ihn.cons (by simp [ht]))).append
      (ihm.cons (by simp [he])))
  | loop hw _ hd _ ihc ihn =>
    exact .of_parts ((ihc.cons (by simp [hw])).append (ihn.cons (by simp [hd])))
  | @declareVar _ _ v x eq ts es n hv hx _ h he ih =>
    have hvx : ∀ t ∈ [v, x], t.kind ≠ .symbol .equal := by simp [hv, hx]
    refine .owned hvx (fun rest => ?_) (ih.append_of_ne he.ne_equal)
    refine .declareVar List.suffix_rfl hv hx ?_ h.supplied
    exact (List.prefix_append _ _).trans (List.prefix_append _ _)
  | declareFunction hk hx _ ih => exact .of_parts ((ih.cons (by simp [hx])).cons (by simp [hk]))
  | moreDeclarations _ _ _ ih ihs => exact ih.append ihs

theorem Grouped.last {t : Token} {ts : List Token} (h : Grouped [t] ts) :
    ∃ c, [c] <:+ ts ∧ (c = t ∨ c.kind = .symbol .rightParen) := by
  cases h with
  | bare => exact ⟨t, List.suffix_rfl, .inl rfl⟩
  | @group o c us _ _ hc => exact ⟨c, List.suffix_append _ _, .inr hc⟩

def Node.AssignsTo (n : Node) (t : Token) : Prop :=
  t.kind = .identifier ∧ ∃ a, n = .assign t.pos t.text a

namespace Program

/-- In a parsed program each equals sign is that of a declaration, behind `var` and a name, or that of an
assignment: right in front of it is the name that is assigned to, or a parenthesis that closes behind it. -/
theorem ofTokens_equals {room : Nat} {N : Int} {ts front behind : List Token} {eq : Token} {p : Program}
    (h : ofTokens room N ⟨ts, none⟩ = .ok p)
    (hts : ts.takeWhile (·.kind ≠ .endOfInput) = front ++ eq :: behind)
    (heq : eq.kind = .symbol .equal) :
    ∃ n, n.Within p.node ∧ OwnsEquals front behind n ∧
      ((∃ v x a, [v, x] <:+ front ∧ v.kind = .keyword .varWord ∧ x.kind = .identifier ∧
          n = .declareVar v.pos x.text a) ∨
        ∃ t c, n.AssignsTo t ∧ [c] <:+ front ∧ (c = t ∨ c.kind = .symbol .rightParen)) := by
  obtain ⟨m, hm, n, hn, howns⟩ := (derives_takeWhile h).equalsOwned front eq behind hts heq
  refine ⟨n, .part hm hn, howns, ?_⟩
  cases howns with
  | declareVar hfront hv hx => exact .inl ⟨_, _, _, hfront, hv, hx, rfl⟩
  | assign hfront hgroup ht =>
    obtain ⟨c, hc, hkind⟩ := hgroup.last
    exact .inr ⟨_, c, ⟨ht, _, rfl⟩, hc.trans hfront, hkind⟩

open Token in
def groupedName : List Token :=
  [inFirstLine (.symbol .leftParen) "(" 1, inFirstLine .identifier "a" 2,
    inFirstLine (.symbol .rightParen) ")" 3]

open Token in
def groupedTarget : List Token :=
  groupedName ++ inFirstLine (.symbol .equal) "=" 5 :: [inFirstLine (.keyword .trueWord) "true" 7]

set_option maxRecDepth 2000 in
theorem ofTokens_groupedTarget : ofTokens 20 4 ⟨groupedTarget, none⟩ =
    .ok ⟨[.expression (some ⟨1, 2⟩) (.assign (some ⟨1, 2⟩) "a" (.literal (some ⟨1, 7⟩) (.bool true)))]⟩ :=
  rfl

theorem groupedTarget_equals : groupedTarget.takeWhile (·.kind ≠ .endOfInput) =
    groupedName ++ Token.inFirstLine (.symbol .equal) "=" 5 ::
      [Token.inFirstLine (.keyword .trueWord) "true" 7] :=
  rfl

theorem groupedName_undeclared {v x : Token} (h : [v, x] <:+ groupedName) :
    v.kind ≠ .keyword .varWord := by
  have hv : [v, x] = groupedName.drop 1 := List.suffix_iff_eq_drop.mp h
  rw [(List.cons.inj hv).1]
  decide

theorem ofTokens_equals_groupedTarget :
    ∃ p, ofTokens 20 4 ⟨groupedTarget, none⟩ = .ok p ∧ ∃ n t, n.Within p.node ∧
      OwnsEquals groupedName [Token.inFirstLine (.keyword .trueWord) "true" 7] n ∧ n.AssignsTo t := by
  refine ⟨_, ofTokens_groupedTarget, ?_⟩
  obtain ⟨n, hn, howns, ⟨v, x, -, hfront, hv, -⟩ | ⟨t, c, ht, -⟩⟩ :=
    ofTokens_equals ofTokens_groupedTarget groupedTarget_equals rfl
  · exact absurd hv (groupedName_undeclared hfront)
  · exact ⟨n, t, hn, howns, ht⟩

/-- Not every name that is assigned to stands right in front of its equals sign. -/
theorem not_forall_ofTokens_equals_behind_name :
    ¬∀ (room : Nat) (N : Int) (ts front behind : List Token) (eq : Token) (p : Program),
      ofTokens room N ⟨ts, none⟩ = .ok p →
      ts.takeWhile (·.kind ≠ .endOfInput) = front ++ eq :: behind → eq.kind = .symbol .equal →
      (∀ v x : Token, [v, x] <:+ front → v.kind ≠ .keyword .varWord) →
      ∃ (n : Node) (t : Token), n.Within p.node ∧ n.AssignsTo t ∧ [t] <:+ front := by
  intro hall
  obtain ⟨n, t, -, ⟨ht, -⟩, hfront⟩ := hall 20 4 groupedTarget groupedName _ _ _
    ofTokens_groupedTarget groupedTarget_equals rfl fun _ _ => groupedName_undeclared
  have hlast : [t] = groupedName.drop 2 := List.suffix_iff_eq_drop.mp hfront
  rw [(List.cons.inj hlast).1] at ht
  exact absurd ht (by decide)

end Program

end Scriptlet
