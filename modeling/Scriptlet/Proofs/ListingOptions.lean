import Scriptlet.CommandLine

namespace Scriptlet

namespace Arguments

def listing (tokens ast : Bool) (a : Arguments) : Arguments :=
  { a with tokens := a.tokens || tokens, ast := a.ast || ast }

def flags (tokens ast : Bool) : List String :=
  (if tokens then ["--tokens"] else []) ++ if ast then ["--ast"] else []

theorem apply_listing (tokens ast : Bool) (a : Arguments) (o : Opt) (value : List Char) :
    (a.listing tokens ast).apply o value = (a.apply o value).map (listing tokens ast) := by
  cases o with
  | help => rfl
  | tokens => simp [apply, listing, Except.map]
  | ast => simp [apply, listing, Except.map]
  | verbose => rfl
  | maxDepth | maxSteps | maxNesting =>
    simp only [apply]
    cases amount _ value <;> rfl

theorem applyAll_listing (tokens ast : Bool) (a : Arguments) (os : List Opt) :
    (a.listing tokens ast).applyAll os = (a.applyAll os).map (listing tokens ast) := by
  induction os generalizing a with
  | nil => rfl
  | cons o os ih =>
    simp only [applyAll, List.foldlM_cons, apply_listing]
    cases a.apply o [] with
    | error e => rfl
    | ok b => exact ih b

namespace Progress

def listing (tokens ast : Bool) (p : Progress) : Progress :=
  { p with arguments := p.arguments.listing tokens ast }

theorem options_listing (tokens ast : Bool) (p : Progress) (os : List Opt) :
    (p.listing tokens ast).options os = (p.options os).map (listing tokens ast) := by
  simp only [options, listing, applyAll_listing]
  cases p.arguments.applyAll os <;> rfl

theorem option_listing (tokens ast : Bool) (p : Progress) (o : Opt) (value : List Char) :
    (p.listing tokens ast).option o value = (p.option o value).map (listing tokens ast) := by
  simp only [option, listing, apply_listing]
  cases p.arguments.apply o value <;> rfl

theorem read_listing (tokens ast : Bool) (p : Progress) (words : List Word) :
    (p.listing tokens ast).read words = (p.read words).map (listing tokens ast) := by
  have hread {x : Except EarlyEnd Progress} {f g : Progress → Except EarlyEnd Progress}
      (h : ∀ q, g (q.listing tokens ast) = (f q).map (listing tokens ast)) :
      (x.map (listing tokens ast) >>= g) = (x >>= f).map (listing tokens ast) := by
    cases x with
    | error e => rfl
    | ok q => exact h q
  fun_induction read p words with
  | case1 p => rfl
  | case2 p text rest hplaced ih | case6 p text rest hplaced ih =>
    rw [read]
    exact (if_pos hplaced).trans ih
  | case3 p text rest hplaced ih | case7 p text rest hplaced ih =>
    rw [read]
    exact (if_neg hplaced).trans ih
  | case4 p text rest hrest hplaced ih | case8 p rest hrest hplaced ih =>
    rw [read]
    · exact (if_pos hplaced).trans ih
    · exact hrest
  | case5 p text rest hrest hplaced ih | case9 p rest hrest hplaced ih =>
    rw [read]
    · exact (if_neg hplaced).trans ih
    · exact hrest
  | case10 p text rest ih =>
    rw [read]
    exact ih
  | case11 p o short rest text ho ih | case12 p o short ho text rest ih =>
    simp only [read, ho, option_listing]
    exact hread ih
  | case13 p o short rest ho hrest =>
    simp only [read, ho]
    rfl
  | case14 p o short rest ho ih =>
    simp only [read, ho, options_listing]
    exact hread ih
  | case15 p o short rest text ho hshort ih =>
    simp only [read, ho, hshort, if_true]
    cases cluster o text with
    | error e => rfl
    | ok os =>
      change ((p.listing tokens ast).options os >>= _) = _
      rw [options_listing]
      exact hread ih
  | case16 p o short rest text ho hshort =>
    simp only [read, ho, if_neg hshort]
    rfl

end Progress

theorem ofList_cons {flag : String} {o : Opt} {tokens ast : Bool} (args : List String)
    (hwords : Word.classifyAll (flag :: args) =
      (Word.classifyAll args).map (.option o false none :: ·))
    (ho : o.takesValue = false) (happly : apply {} o [] = .ok (listing tokens ast {})) :
    ofList (flag :: args) = (ofList args).map (listing tokens ast) := by
  unfold ofList
  rw [hwords]
  cases Word.classifyAll args with
  | error e => rfl
  | ok words =>
    have hread : (Progress.mk {} false #[]).read (.option o false none :: words) =
        ((Progress.mk {} false #[]).read words).map (Progress.listing tokens ast) := by
      have hoption : (Progress.mk {} false #[]).options [o] =
          .ok ((Progress.mk {} false #[]).listing tokens ast) := by
        simp only [Progress.options, applyAll, List.foldlM_cons, happly]
        rfl
      rw [← Progress.read_listing]
      simp only [Progress.read, ho, hoption]
      rfl
    change ((Progress.mk {} false #[]).read (.option o false none :: words) >>= _) =
      Except.map _ ((Progress.mk {} false #[]).read words >>= _)
    rw [hread]
    cases (Progress.mk {} false #[]).read words with
    | error e => rfl
    | ok p =>
      change (if p.extras.isEmpty = true then _ else _) =
        Except.map _ (if p.extras.isEmpty = true then _ else _)
      split <;> rfl

theorem ofList_tokens (args : List String) :
    ofList ("--tokens" :: args) = (ofList args).map (listing true false) := by
  refine ofList_cons (o := .tokens) args ?_ rfl rfl
  rw [Word.classifyAll]
  · cases Word.classifyAll args <;> rfl
  · decide

theorem ofList_ast (args : List String) :
    ofList ("--ast" :: args) = (ofList args).map (listing false true) := by
  refine ofList_cons (o := .ast) args ?_ rfl rfl
  rw [Word.classifyAll]
  · cases Word.classifyAll args <;> rfl
  · decide

theorem listing_listing (a : Arguments) :
    (a.listing false true).listing true false = a.listing true true := by
  simp only [listing, Bool.or_false, Bool.or_true]

theorem listing_false (a : Arguments) : a.listing false false = a := by
  simp only [listing, Bool.or_false]

theorem ofList_flags (tokens ast : Bool) (args : List String) :
    ofList (flags tokens ast ++ args) = (ofList args).map (listing tokens ast) := by
  cases tokens <;> cases ast
  · change ofList args = _
    cases ofList args with
    | error e => rfl
    | ok a => exact congrArg _ (listing_false a).symm
  · exact ofList_ast args
  · exact ofList_tokens args
  · change ofList ("--tokens" :: "--ast" :: args) = _
    rw [ofList_tokens, ofList_ast]
    cases ofList args with
    | error e => rfl
    | ok a => exact congrArg _ (listing_listing a)

end Arguments

namespace CommandLine

def Plan.listing (tokens ast : Bool) : Plan → Plan
  | answer a => answer a
  | shell a => shell (a.listing tokens ast)
  | run a source => run (a.listing tokens ast) source

theorem plan_flags (tokens ast : Bool) (args : List String) (terminal : Bool) :
    plan (Arguments.flags tokens ast ++ args) terminal = (plan args terminal).listing tokens ast := by
  unfold plan
  rw [Arguments.ofList_flags]
  cases Arguments.ofList args with
  | error e => cases e <;> rfl
  | ok a =>
    have hfile : (a.listing tokens ast).file = a.file := rfl
    simp only [Except.map, hfile]
    split
    · split <;> rfl
    · rfl
    · rfl

end CommandLine

end Scriptlet
