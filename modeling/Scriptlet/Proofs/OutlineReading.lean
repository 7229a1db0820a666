import Scriptlet.Proofs.Layout
import Scriptlet.Proofs.LegibleTrees
import Scriptlet.Proofs.NumberText
import Scriptlet.Proofs.SymbolicExpressions
import Scriptlet.Syntax.Outline

namespace Scriptlet

open Sexp (IsPlain IsWord)

theorem Sexp.isPlain_of {P : Char → Prop} {c : Char} (hc : P c)
    (hP : ¬P ' ' ∧ ¬P '(' ∧ ¬P ')' ∧ ¬P '\n' ∧ ¬P '\'' ∧ ¬P '"') : IsPlain c := by
  obtain ⟨hspace, hopen, hclose, hline, hsingle, hdouble⟩ := hP
  refine ⟨?_, ?_, ?_, ?_, ?_⟩
  · rintro rfl
    exact hspace hc
  · rintro rfl
    exact hopen hc
  · rintro rfl
    exact hclose hc
  · rintro rfl
    exact hline hc
  · rintro (rfl | rfl)
    · exact hsingle hc
    · exact hdouble hc

theorem Sexp.Clear.headed {w : String} {es : List Sexp} (hw : IsWord w) (hes : ∀ e ∈ es, e.Clear) :
    (Sexp.group (.word w :: es)).Clear :=
  .group (List.forall_mem_cons.mpr ⟨.word hw, hes⟩)

theorem IsName.isWord {x : String} (h : IsName x) : IsWord x :=
  ⟨h.1, fun c hc => Sexp.isPlain_of (P := fun d => Lexeme.isWordPart d) (h.2 c hc) (by decide)⟩

theorem IsOperator.isWord {op : String} (h : IsOperator op) : IsWord op := by
  have hall : ∀ s ∈ ["or", "and", "==", "!=", "<", "<=", ">", ">=", "+", "-", "*", "/", "not"],
      IsWord s := by decide
  exact hall op h

theorem Number.IsMagnitude.isWord {x : Float} (hx : IsMagnitude x) : IsWord (display x) := by
  rcases hx.display_chars with h | ⟨hne, hchars⟩
  · rw [h]
    decide
  · exact ⟨hne, fun c hc => Sexp.isPlain_of (hchars c hc) (by decide)⟩

theorem Number.IsMagnitude.display_ne {x : Float} (hx : IsMagnitude x) {s : String} (hs : s ≠ "inf")
    {c : Char} (hc : c ∈ s.toList) (hother : ¬IsNumeral c) : display x ≠ s := by
  rintro rfl
  rcases hx.display_chars with h | ⟨-, hchars⟩
  · exact hs h
  · exact hother (hchars c hc)

def Value.form : Value → Sexp
  | .string s => .quoted s
  | v => .word v.text

mutual

def Node.form : Node → Sexp
  | .literal _ v => .group [.word "Literal", v.form]
  | .name _ x => .group [.word "Identifier", .word x]
  | .binary _ op a b => .group [.word "BinaryOp", .word op, a.form, b.form]
  | .unary _ op a => .group [.word "UnaryOp", .word op, a.form]
  | .assign _ x a => .group [.word "Assignment", .word x, a.form]
  | .call _ f args => .group (.word "FunctionCall" :: f.form :: Node.forms args)
  | .function d => d.form
  | .program _ _ => .group []
  | .expression _ a => a.form
  | .declareVar _ x a => .group [.word "VarDeclaration", .word x, a.form]
  | .declareFunction _ d => d.form
  | .block _ ss => .group (.word "Block" :: Node.forms ss)
  | .conditional _ c t e => .group (.word "Conditional" :: c.form :: t.form :: Node.formOption e)
  | .loop _ c b => .group [.word "Loop", c.form, b.form]
  | .ret _ v => .group (.word "Return" :: Node.formOption v)
  | .hole _ _ => .group []
termination_by structural n => n

def Definition.form : Definition → Sexp
  | ⟨p, n, ps, q, b⟩ =>
    .group [.word "FunctionDefinition", .word (Definition.outlineName ⟨p, n, ps, q, b⟩),
      .group (ps.map .word), .group (.word "Block" :: Node.forms b)]
termination_by structural d => d

def Node.forms : List Node → List Sexp
  | [] => []
  | a :: as => a.form :: Node.forms as
termination_by structural ns => ns

def Node.formOption : Option Node → List Sexp
  | none => []
  | some a => [a.form]
termination_by structural n => n

end

theorem Node.outlines_eq (ns : List Node) : outlines ns = ns.map outline := by
  induction ns with
  | nil => rfl
  | cons n ns ih => rw [outlines, ih, List.map_cons]

theorem Node.forms_eq (ns : List Node) : forms ns = ns.map form := by
  induction ns with
  | nil => rfl
  | cons n ns ih => rw [forms, ih, List.map_cons]

theorem Definition.form_eq (d : Definition) : d.form =
    .group [.word "FunctionDefinition", .word d.outlineName, .group (d.params.map .word),
      .group (.word "Block" :: d.body.map Node.form)] := by
  cases d
  rw [Definition.form, Node.forms_eq]

theorem bracketed_chars {words : List String} {es : List Sexp}
    (h : words.map String.toList = es.map Sexp.chars) :
    (bracketed words).toList = (Sexp.group es).chars := by
  rw [bracketed, String.toList_append, String.toList_append, String.toList_intercalate, h,
    Sexp.chars_group, Sexp.row]
  rfl

theorem Value.outline_chars (v : Value) :
    v.outline.toList = (Sexp.group [.word "Literal", v.form]).chars := by
  cases v <;> exact bracketed_chars rfl

theorem Definition.outlineName_isWord {d : Definition} (h : ∀ x, d.name = some x → IsName x) :
    IsWord d.outlineName := by
  unfold outlineName
  split
  · decide
  · decide
  · rename_i x _ hx
    exact (h x hx).isWord

theorem Definition.outlineName_of_none {d : Definition} (h : d.name = none) :
    d.outlineName = "<anonymous>" := by
  unfold outlineName
  rw [h]

theorem Definition.outlineName_of_some {d : Definition} {x : String} (h : d.name = some x)
    (hx : IsName x) : d.outlineName = x := by
  unfold outlineName
  rw [h]
  split
  · rename_i heq
    cases heq
  · rename_i heq
    obtain rfl := Option.some.inj heq
    exact absurd rfl hx.1
  · rename_i heq
    exact (Option.some.inj heq).symm

theorem Definition.outlineName_eq_of_form {d d' : Definition} (h : d.form = d'.form) :
    d.outlineName = d'.outlineName := by
  rw [form_eq, form_eq] at h
  simp only [Sexp.group.injEq, List.cons.injEq, Sexp.word.injEq] at h
  exact h.2.1

namespace Definition.Headed

variable {d : Definition} (hd : d.Headed)

theorem outline_chars (hbody : ∀ n ∈ d.body, n.outline.toList = n.form.chars) :
    d.outline.toList = d.form.chars := by
  obtain ⟨p, name, params, q, body⟩ := d
  rw [Definition.outline, Definition.form, Node.outlines_eq, Node.forms_eq]
  have hparams : params.map String.toList = (params.map Sexp.word).map Sexp.chars := by
    rw [List.map_map]
    exact List.map_congr_left fun x _ => by rw [Function.comp_apply, Sexp.chars]
  have hblock : (outlined "Block" (body.map Node.outline)).toList =
      (Sexp.group (.word "Block" :: body.map Node.form)).chars := by
    apply bracketed_chars
    rw [List.map_cons, List.map_cons, List.map_map, List.map_map, Sexp.chars]
    congr 1
    exact List.map_congr_left hbody
  apply bracketed_chars
  simp only [List.map_cons, List.map_nil, Sexp.chars, hblock, bracketed_chars hparams]

include hd

theorem form_clear (hname : ∀ x, d.name = some x → IsName x)
    (hbody : ∀ n ∈ d.body, n.form.Clear) : d.form.Clear := by
  have hword := outlineName_isWord hname
  have hparams := hd.params
  obtain ⟨p, name, params, q, body⟩ := d
  rw [Definition.form, Node.forms_eq]
  have hps : (Sexp.group (params.map .word)).Clear := by
    apply Sexp.Clear.group
    rw [List.forall_mem_map]
    exact fun x hx => .word (hparams x hx).isWord
  have hblock : (Sexp.group (.word "Block" :: body.map Node.form)).Clear := by
    apply Sexp.Clear.headed (by decide)
    rw [List.forall_mem_map]
    exact hbody
  refine .headed (by decide) ?_
  simp only [List.mem_cons, List.not_mem_nil, or_false, forall_eq_or_imp, forall_eq]
  exact ⟨.word hword, hps, hblock⟩

theorem like {d' : Definition} (hd' : d'.Headed) (hname : d.name = d'.name) (h : d.form = d'.form)
    (hbody : d.body.map Node.form = d'.body.map Node.form →
      List.Forall₂ (Node.Like .layout) d.body d'.body) : d.Like .layout d' := by
  rw [form_eq, form_eq] at h
  simp only [Sexp.group.injEq, List.cons.injEq, true_and, and_true] at h
  obtain ⟨-, hparams, hforms⟩ := h
  have hlikes := hbody hforms
  replace hparams : d.params = d'.params :=
    List.map_injective_iff.mpr (fun _ _ => Sexp.word.inj) hparams
  obtain ⟨pos, bodyPos, -⟩ := hd
  obtain ⟨pos', bodyPos', -⟩ := hd'
  cases d
  cases d'
  simp only at hname hparams pos pos' bodyPos bodyPos' hlikes
  subst hname hparams
  exact .mk _ _ (pos.trans pos'.symm) (bodyPos.trans bodyPos'.symm) hlikes

end Definition.Headed

namespace Value.Legible

variable {v w : Value}

theorem form_clear (h : v.Legible) : v.form.Clear := by
  cases h with
  | nil => exact .word (by decide)
  | bool b => cases b <;> exact .word (by decide)
  | number hx => exact .word hx.isWord
  | string s => exact .quoted s

theorem number_form_ne {x : Float} (hx : Number.IsMagnitude x) :
    Value.form (.number x) ≠ .word "nil" ∧ ∀ b, Value.form (.number x) ≠ Value.form (.bool b) := by
  have hne {s : String} (hs : s ≠ "inf") {c : Char} (hc : c ∈ s.toList)
      (hother : ¬Number.IsNumeral c) : Value.form (.number x) ≠ .word s :=
    fun h => hx.display_ne hs hc hother (Sexp.word.inj h)
  have hl : 'l' ∈ "nil".toList := by decide
  have hf : 'f' ∈ "false".toList := by decide
  have ht : 't' ∈ "true".toList := by decide
  refine ⟨hne (by decide) hl (by decide), fun b => ?_⟩
  cases b
  · exact hne (by decide) hf (by decide)
  · exact hne (by decide) ht (by decide)

theorem like {ρ : Pairing} (hv : v.Legible) (hw : w.Legible) (h : v.form = w.form) : v.Like ρ w := by
  -- Numbers are none of the words and strings are quoted, so the type of a literal shows.
  cases hv with
  | nil =>
    cases hw with
    | nil => exact .nil
    | bool b => cases b <;> exact absurd (Sexp.word.inj h) (by decide)
    | number hy => exact absurd h.symm (number_form_ne hy).1
    | string => cases h
  | bool b =>
    cases hw with
    | nil => cases b <;> exact absurd (Sexp.word.inj h) (by decide)
    | bool b' =>
      cases b <;> cases b'
      · exact .bool false
      · exact absurd (Sexp.word.inj h) (by decide)
      · exact absurd (Sexp.word.inj h) (by decide)
      · exact .bool true
    | number hy => exact absurd h.symm ((number_form_ne hy).2 b)
    | string => cases h
  | number hx =>
    cases hw with
    | nil => exact absurd h (number_form_ne hx).1
    | bool b => exact absurd h ((number_form_ne hx).2 b)
    | number hy =>
      obtain rfl := hx.display_inj hy (Sexp.word.inj h)
      exact .number _
    | string => cases h
  | string s =>
    cases hw with
    | string t =>
      obtain rfl := Sexp.quoted.inj h
      exact .string _
    | nil | bool | number => cases h

end Value.Legible

namespace Node.Legible

variable {r : Role} {n m : Node}

theorem outline_chars (h : n.Legible r) : n.outline.toList = n.form.chars := by
  induction h with
  | literal => exact Value.outline_chars _
  | name => exact bracketed_chars rfl
  | binary _ _ _ _ iha ihb =>
    apply bracketed_chars
    simp only [List.map_cons, List.map_nil, iha, ihb, Sexp.chars]
  | unary _ _ _ ih | assign _ _ _ ih | declareVar _ _ _ ih =>
    apply bracketed_chars
    simp only [List.map_cons, List.map_nil, ih, Sexp.chars]
  | call _ _ _ ih ihs =>
    rw [outline, form, outlines_eq, forms_eq]
    apply bracketed_chars
    simp only [List.map_cons, List.map_map, ih, Sexp.chars]
    congr 2
    exact List.map_congr_left ihs
  | function _ _ _ ihs | declareFunction _ _ _ _ _ ihs =>
    exact Definition.Headed.outline_chars ihs
  | expression _ _ _ ih => exact ih
  | block _ _ _ ihs =>
    rw [outline, form, outlines_eq, forms_eq]
    apply bracketed_chars
    simp only [List.map_cons, List.map_map, Sexp.chars]
    congr 1
    exact List.map_congr_left ihs
  | oneBranch _ _ _ _ ihc ihn | loop _ _ _ _ ihc ihn =>
    apply bracketed_chars
    simp only [List.map_cons, List.map_nil, formOption, outlineOption, ihc, ihn, Sexp.chars]
  | twoBranches _ _ _ _ _ ihc ihn ihm =>
    apply bracketed_chars
    simp only [List.map_cons, List.map_nil, formOption, outlineOption, ihc, ihn, ihm, Sexp.chars]
  | ret => exact bracketed_chars rfl
  | retValue _ _ _ ih =>
    apply bracketed_chars
    simp only [List.map_cons, List.map_nil, formOption, outlineOption, ih, Sexp.chars]

theorem form_clear (h : n.Legible r) : n.form.Clear := by
  induction h with
  | literal _ hv => exact .headed (by decide) (List.forall_mem_singleton.mpr hv.form_clear)
  | name _ hx => exact .headed (by decide) (List.forall_mem_singleton.mpr (.word hx.isWord))
  | binary _ hop _ _ iha ihb =>
    refine .headed (by decide) ?_
    simp only [List.mem_cons, List.not_mem_nil, or_false, forall_eq_or_imp, forall_eq]
    exact ⟨.word hop.isWord, iha, ihb⟩
  | unary _ hop _ ih =>
    refine .headed (by decide) ?_
    simp only [List.mem_cons, List.not_mem_nil, or_false, forall_eq_or_imp, forall_eq]
    exact ⟨.word hop.isWord, ih⟩
  | assign _ hx _ ih | declareVar _ hx _ ih =>
    refine .headed (by decide) ?_
    simp only [List.mem_cons, List.not_mem_nil, or_false, forall_eq_or_imp, forall_eq]
    exact ⟨.word hx.isWord, ih⟩
  | call _ _ _ ih ihs =>
    rw [form, forms_eq]
    refine .headed (by decide) (List.forall_mem_cons.mpr ⟨ih, ?_⟩)
    rw [List.forall_mem_map]
    exact ihs
  | function hd hname _ ihs => exact hd.form_clear (fun x hx => by simp [hname] at hx) ihs
  | declareFunction _ hd hx hname _ ihs =>
    refine hd.form_clear (fun y hy => ?_) ihs
    rw [hname] at hy
    exact Option.some.inj hy ▸ hx
  | expression _ _ _ ih => exact ih
  | block _ _ _ ihs =>
    rw [form, forms_eq]
    refine .headed (by decide) ?_
    rw [List.forall_mem_map]
    exact ihs
  | oneBranch _ _ _ _ ihc ihn | loop _ _ _ _ ihc ihn =>
    refine .headed (by decide) ?_
    simp only [formOption, List.mem_cons, List.not_mem_nil, or_false, forall_eq_or_imp, forall_eq]
    exact ⟨ihc, ihn⟩
  | twoBranches _ _ _ _ _ ihc ihn ihm =>
    refine .headed (by decide) ?_
    simp only [formOption, List.mem_cons, List.not_mem_nil, or_false, forall_eq_or_imp, forall_eq]
    exact ⟨ihc, ihn, ihm⟩
  | ret => exact .headed (by decide) nofun
  | retValue _ _ _ ih => exact .headed (by decide) (List.forall_mem_singleton.mpr ih)

def expressionWords : List String :=
  ["Literal", "Identifier", "BinaryOp", "UnaryOp", "Assignment", "FunctionCall",
    "FunctionDefinition"]

theorem form_ne (h : n.Legible .expression) {w : String} (hw : w ∉ expressionWords)
    (es : List Sexp) : n.form ≠ .group (.word w :: es) := by
  have hhead {w' : String} {es' : List Sexp} (hw' : w' ∈ expressionWords) :
      Sexp.group (.word w' :: es') ≠ .group (.word w :: es) := by
    rintro heq
    obtain ⟨heq, -⟩ := List.cons.inj (Sexp.group.inj heq)
    exact hw (Sexp.word.inj heq ▸ hw')
  cases h with
  | literal | name | binary | unary | assign | call => exact hhead (by decide)
  | @function d =>
    rw [form, Definition.form_eq]
    exact hhead (by decide)
  | expression hr | block hr | oneBranch hr | twoBranches hr | loop hr | ret hr | retValue hr =>
    exact absurd rfl hr

theorem form_ne_declared (h : n.Legible .expression) {d : Definition} {x : String} (hx : IsName x)
    (hname : d.name = some x) : n.form ≠ d.form := by
  intro heq
  rw [Definition.form_eq] at heq
  cases h with
  | @function d' _ hname' =>
    rw [form, Definition.form_eq] at heq
    simp only [Sexp.group.injEq, List.cons.injEq, Sexp.word.injEq, true_and] at heq
    rw [Definition.outlineName_of_none hname', Definition.outlineName_of_some hname hx] at heq
    obtain ⟨rfl, -⟩ := heq
    exact absurd (hx.2 '<' (by decide)) (by decide)
  | expression hr | block hr | oneBranch hr | twoBranches hr | loop hr | ret hr | retValue hr =>
    exact absurd rfl hr
  | _ => simp [form] at heq

theorem likes_of_forms {ns ms : List Node}
    (hns : ∀ n ∈ ns, ∀ {m : Node}, m.Legible r → n.form = m.form → n.Like .layout m)
    (hms : ∀ m ∈ ms, m.Legible r) (h : ns.map form = ms.map form) :
    List.Forall₂ (Node.Like .layout) ns ms := by
  induction ns generalizing ms with
  | nil =>
    cases ms with
    | nil => exact .nil
    | cons => cases h
  | cons n ns ih =>
    cases ms with
    | nil => cases h
    | cons m ms =>
      obtain ⟨hfirst, hrest⟩ := List.cons.inj h
      obtain ⟨hn, hns⟩ := List.forall_mem_cons.mp hns
      obtain ⟨hm, hms⟩ := List.forall_mem_cons.mp hms
      exact .cons (hn hm hfirst) (ih hns hms hrest)

theorem like_of_form (h : n.Legible r) : ∀ {m : Node}, m.Legible r → n.form = m.form →
    n.Like .layout m := by
  -- The first word decides which node `m` is, since both stand in the same place. Only an expression
  -- that stands as a statement has no word of its own.
  induction h with
  | literal hp hv =>
    intro m hm heq
    cases hm with
    | literal hp' hv' =>
      simp only [form, Sexp.group.injEq, List.cons.injEq, true_and, and_true] at heq
      exact .literal (hp.trans hp'.symm) (hv.like hv' heq)
    | expression hr => exact absurd rfl hr
    | _ => simp [form, Definition.form_eq] at heq
  | name hp =>
    intro m hm heq
    cases hm with
    | name hp' =>
      simp only [form, Sexp.group.injEq, List.cons.injEq, Sexp.word.injEq, true_and, and_true] at heq
      subst heq
      exact .name _ (hp.trans hp'.symm)
    | expression hr => exact absurd rfl hr
    | _ => simp [form, Definition.form_eq] at heq
  | binary hp _ _ _ iha ihb =>
    intro m hm heq
    cases hm with
    | binary hp' _ ha' hb' =>
      simp only [form, Sexp.group.injEq, List.cons.injEq, Sexp.word.injEq, true_and, and_true] at heq
      obtain ⟨rfl, heqa, heqb⟩ := heq
      exact .binary _ (hp.trans hp'.symm) (iha ha' heqa) (ihb hb' heqb)
    | expression hr => exact absurd rfl hr
    | _ => simp [form, Definition.form_eq] at heq
  | unary hp _ _ ih =>
    intro m hm heq
    cases hm with
    | unary hp' _ ha' =>
      simp only [form, Sexp.group.injEq, List.cons.injEq, Sexp.word.injEq, true_and, and_true] at heq
      obtain ⟨rfl, heqa⟩ := heq
      exact .unary _ (hp.trans hp'.symm) (ih ha' heqa)
    | expression hr => exact absurd rfl hr
    | _ => simp [form, Definition.form_eq] at heq
  | assign hp _ _ ih =>
    intro m hm heq
    cases hm with
    | assign hp' _ ha' =>
      simp only [form, Sexp.group.injEq, List.cons.injEq, Sexp.word.injEq, true_and, and_true] at heq
      obtain ⟨rfl, heqa⟩ := heq
      exact .assign _ (hp.trans hp'.symm) (ih ha' heqa)
    | expression hr => exact absurd rfl hr
    | _ => simp [form, Definition.form_eq] at heq
  | call hp _ _ ih ihs =>
    intro m hm heq
    cases hm with
    | call hp' ha' hns' =>
      simp only [form, forms_eq, Sexp.group.injEq, List.cons.injEq, true_and] at heq
      exact .call (hp.trans hp'.symm) (ih ha' heq.1) (likes_of_forms ihs hns' heq.2)
    | expression hr => exact absurd rfl hr
    | _ => simp [form, Definition.form_eq] at heq
  | function hd hname _ ihs =>
    intro m hm heq
    cases hm with
    | function hd' hname' hbody' =>
      exact .function (hd.like hd' (hname.trans hname'.symm) heq fun h => likes_of_forms ihs hbody' h)
    | expression hr => exact absurd rfl hr
    | _ => simp [form, Definition.form_eq] at heq
  | expression hr hp ha ih =>
    intro m hm heq
    cases hm with
    | expression _ hp' ha' => exact .expression (hp.trans hp'.symm) (ih ha' heq)
    | literal | name | binary | unary | assign | call | function => exact absurd rfl hr
    | declareFunction _ _ hx' hname' => exact absurd heq (ha.form_ne_declared hx' hname')
    | block | oneBranch | twoBranches | loop | ret | retValue | declareVar =>
      exact absurd heq (ha.form_ne (by decide) _)
  | block hr hp _ ihs =>
    intro m hm heq
    cases hm with
    | block _ hp' hns' =>
      simp only [form, forms_eq, Sexp.group.injEq, List.cons.injEq, true_and] at heq
      exact .block (hp.trans hp'.symm) (likes_of_forms ihs hns' heq)
    | expression _ _ ha' => exact absurd heq.symm (ha'.form_ne (by decide) _)
    | _ => simp [form, Definition.form_eq] at heq
  | oneBranch hr hp _ _ ihc ihn =>
    intro m hm heq
    cases hm with
    | oneBranch _ hp' hc' hn' =>
      simp only [form, formOption, Sexp.group.injEq, List.cons.injEq, true_and, and_true] at heq
      exact .oneBranch (hp.trans hp'.symm) (ihc hc' heq.1) (ihn hn' heq.2)
    | expression _ _ ha' => exact absurd heq.symm (ha'.form_ne (by decide) _)
    | _ => simp [form, formOption, Definition.form_eq] at heq
  | twoBranches hr hp _ _ _ ihc ihn ihk =>
    intro m hm heq
    cases hm with
    | twoBranches _ hp' hc' hn' hk' =>
      simp only [form, formOption, Sexp.group.injEq, List.cons.injEq, true_and, and_true] at heq
      exact .twoBranches (hp.trans hp'.symm) (ihc hc' heq.1) (ihn hn' heq.2.1) (ihk hk' heq.2.2)
    | expression _ _ ha' => exact absurd heq.symm (ha'.form_ne (by decide) _)
    | _ => simp [form, formOption, Definition.form_eq] at heq
  | loop hr hp _ _ ihc ihn =>
    intro m hm heq
    cases hm with
    | loop _ hp' hc' hn' =>
      simp only [form, Sexp.group.injEq, List.cons.injEq, true_and, and_true] at heq
      exact .loop (hp.trans hp'.symm) (ihc hc' heq.1) (ihn hn' heq.2)
    | expression _ _ ha' => exact absurd heq.symm (ha'.form_ne (by decide) _)
    | _ => simp [form, Definition.form_eq] at heq
  | ret hr hp =>
    intro m hm heq
    cases hm with
    | ret _ hp' => exact .ret (hp.trans hp'.symm)
    | expression _ _ ha' => exact absurd heq.symm (ha'.form_ne (by decide) _)
    | _ => simp [form, formOption, Definition.form_eq] at heq
  | retValue hr hp _ ih =>
    intro m hm heq
    cases hm with
    | retValue _ hp' ha' =>
      simp only [form, formOption, Sexp.group.injEq, List.cons.injEq, true_and, and_true] at heq
      exact .retValue (hp.trans hp'.symm) (ih ha' heq)
    | expression _ _ ha' => exact absurd heq.symm (ha'.form_ne (by decide) _)
    | _ => simp [form, formOption, Definition.form_eq] at heq
  | declareVar hp _ _ ih =>
    intro m hm heq
    cases hm with
    | declareVar hp' _ ha' =>
      simp only [form, Sexp.group.injEq, List.cons.injEq, Sexp.word.injEq, true_and, and_true] at heq
      obtain ⟨rfl, heqa⟩ := heq
      exact .declareVar _ (hp.trans hp'.symm) (ih ha' heqa)
    | expression _ _ ha' => exact absurd heq.symm (ha'.form_ne (by decide) _)
    | _ => simp [form, Definition.form_eq] at heq
  | declareFunction hp hd hx hname _ ihs =>
    intro m hm heq
    cases hm with
    | declareFunction hp' hd' hx' hname' hbody' =>
      have hnames : _ = _ := Definition.outlineName_eq_of_form heq
      rw [Definition.outlineName_of_some hname hx, Definition.outlineName_of_some hname' hx'] at hnames
      subst hnames
      exact .declareFunction (hp.trans hp'.symm)
        (hd.like hd' (hname.trans hname'.symm) heq fun h => likes_of_forms ihs hbody' h)
    | expression _ _ ha' => exact absurd heq.symm (ha'.form_ne_declared hx hname)
    | _ => simp [form, formOption, Definition.form_eq] at heq

end Node.Legible

section

variable {ρ : Pairing}

theorem Value.Like.outline {v v' : Value} (h : v.Like ρ v') : v.outline = v'.outline := by
  have htext := h.text
  cases h with
  | string => rfl
  | _ => exact congrArg (fun t => outlined "Literal" [t]) htext

mutual

theorem Node.Like.outline {n n' : Node} (h : n.Like ρ n') : n.outline = n'.outline := by
  cases h with
  | literal _ hv => exact hv.outline
  | name | ret | hole => rfl
  | binary op _ ha hb => rw [Node.outline, Node.outline, ha.outline, hb.outline]
  | unary op _ ha => rw [Node.outline, Node.outline, ha.outline]
  | assign x _ ha => rw [Node.outline, Node.outline, ha.outline]
  | call _ ha hns => rw [Node.outline, Node.outline, ha.outline, Node.outlines_like hns]
  | function hd => exact hd.outline
  | program _ hns => rw [Node.outline, Node.outline, Node.outlines_like hns]
  | expression _ ha => exact ha.outline
  | declareVar x _ ha => rw [Node.outline, Node.outline, ha.outline]
  | declareFunction _ hd => exact hd.outline
  | block _ hns => rw [Node.outline, Node.outline, Node.outlines_like hns]
  | oneBranch _ hc hn =>
    rw [Node.outline, Node.outline, hc.outline, hn.outline, Node.outlineOption]
  | twoBranches _ hc hn hk =>
    rw [Node.outline, Node.outline, hc.outline, hn.outline, Node.outlineOption, Node.outlineOption,
      hk.outline]
  | loop _ hc hn => rw [Node.outline, Node.outline, hc.outline, hn.outline]
  | retValue _ ha => rw [Node.outline, Node.outline, Node.outlineOption, Node.outlineOption, ha.outline]
termination_by structural n

theorem Node.outlines_like {ns ns' : List Node} (h : List.Forall₂ (Node.Like ρ) ns ns') :
    Node.outlines ns = Node.outlines ns' := by
  cases h with
  | nil => rfl
  | cons hn hns => rw [Node.outlines, Node.outlines, hn.outline, Node.outlines_like hns]
termination_by structural ns

theorem Definition.Like.outline {d d' : Definition} (h : d.Like ρ d') : d.outline = d'.outline := by
  cases h with
  | mk name params _ _ hns =>
    rw [Definition.outline, Definition.outline, Node.outlines_like hns]
    rfl
termination_by structural d

end

end

/-- An outline shows all of a program but its layout, and shows it without ambiguity. Programs of two
sources have one outline if and only if they are the same node for node: the same classes of nodes,
names, operators, parameters, statements and branches, and the same payloads in their literals. Only
their positions may differ. -/
theorem Program.outline_eq_iff {room room' : Nat} {maxNesting maxNesting' : Int}
    {source source' : String} {p p' : Program}
    (hp : ofTokens room maxNesting (.ofSource source) = .ok p)
    (hp' : ofTokens room' maxNesting' (.ofSource source') = .ok p') :
    p.node.outline = p'.node.outline ↔ p.node.Like .layout p'.node := by
  refine ⟨fun h => ?_, fun h => h.outline⟩
  have hlegible := legible_of_ofTokens hp
  have hlegible' := legible_of_ofTokens hp'
  have hrow {q : Program} (hq : ∀ n ∈ q.statements, n.Legible .declaration) :
      q.node.outline.toList = Sexp.row '\n' (q.statements.map Node.form) := by
    change ("\n".intercalate (Node.outlines q.statements)).toList = _
    rw [String.toList_intercalate, Node.outlines_eq, Sexp.row, List.map_map, List.map_map]
    congr 1
    exact List.map_congr_left fun n hn => (hq n hn).outline_chars
  have hclear {q : Program} (hq : ∀ n ∈ q.statements, n.Legible .declaration) :
      ∀ e ∈ q.statements.map Node.form, e.Clear := by
    rw [List.forall_mem_map]
    exact fun n hn => (hq n hn).form_clear
  have hforms : p.statements.map Node.form = p'.statements.map Node.form := by
    apply Sexp.row_inj (.inr rfl) (hclear hlegible) (hclear hlegible')
    rw [← hrow hlegible, h, hrow hlegible']
  exact .program rfl (Node.Legible.likes_of_forms (fun n hn => (hlegible n hn).like_of_form)
    hlegible' hforms)

theorem Program.outline_eq_iff_parentheses :
    ∃ p p', ofTokens 100 128 (.ofSource "f(\")\")") = .ok p ∧
      ofTokens 100 128 (.ofSource "(f)(\")\")") = .ok p' ∧
      p.node.outline = p'.node.outline ∧ p.node.Like .layout p'.node := by
  have hsource : TokenStream.ofSource "f(\")\")" =
      ⟨[⟨.identifier, "f", ⟨1, 1⟩, 0, none⟩, ⟨.symbol .leftParen, "(", ⟨1, 2⟩, 1, none⟩,
        ⟨.string, "\")\"", ⟨1, 3⟩, 2, some (.string ")")⟩,
        ⟨.symbol .rightParen, ")", ⟨1, 6⟩, 5, none⟩, .endOfInput ⟨1, 7⟩ 6], none⟩ := by
    unfold TokenStream.ofSource Scanner.ofSource
    rw [show "f(\")\")".toList = ['f', '(', '"', ')', '"', ')'] from rfl]
    iterate 5 rw [Scanner.stream_step rfl rfl]
    rw [Scanner.stream_finished rfl]
    rfl
  have hsource' : TokenStream.ofSource "(f)(\")\")" =
      ⟨[⟨.symbol .leftParen, "(", ⟨1, 1⟩, 0, none⟩, ⟨.identifier, "f", ⟨1, 2⟩, 1, none⟩,
        ⟨.symbol .rightParen, ")", ⟨1, 3⟩, 2, none⟩, ⟨.symbol .leftParen, "(", ⟨1, 4⟩, 3, none⟩,
        ⟨.string, "\")\"", ⟨1, 5⟩, 4, some (.string ")")⟩,
        ⟨.symbol .rightParen, ")", ⟨1, 8⟩, 7, none⟩, .endOfInput ⟨1, 9⟩ 8], none⟩ := by
    unfold TokenStream.ofSource Scanner.ofSource
    rw [show "(f)(\")\")".toList = ['(', 'f', ')', '(', '"', ')', '"', ')'] from rfl]
    iterate 7 rw [Scanner.stream_step rfl rfl]
    rw [Scanner.stream_finished rfl]
    rfl
  have hp : ofTokens 100 128 (.ofSource "f(\")\")") =
      .ok ⟨[.expression (some ⟨1, 2⟩) (.call (some ⟨1, 2⟩) (.name (some ⟨1, 1⟩) "f")
        [.literal (some ⟨1, 3⟩) (.string ")")])]⟩ := by
    rw [hsource]
    rfl
  have hp' : ofTokens 100 128 (.ofSource "(f)(\")\")") =
      .ok ⟨[.expression (some ⟨1, 4⟩) (.call (some ⟨1, 4⟩) (.name (some ⟨1, 2⟩) "f")
        [.literal (some ⟨1, 5⟩) (.string ")")])]⟩ := by
    rw [hsource']
    rfl
  exact ⟨_, _, hp, hp', rfl, (outline_eq_iff hp hp').mp rfl⟩

end Scriptlet
