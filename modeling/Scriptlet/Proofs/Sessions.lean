import Scriptlet.Proofs.TreeAgreement

namespace Scriptlet

def inTurn {α β : Type} (step : α → Machine → β × Machine) : List α → Machine → List β × Machine
  | [], m => ([], m)
  | a :: as, m =>
    let x := step a m
    let y := inTurn step as x.2
    (x.1 :: y.1, y.2)

namespace Program

def runAll (limits : Limits) (scope : Scope) : List Program → Machine →
    List (Except Stop Value) × Machine :=
  inTurn fun p => run limits p.statements scope

def unwindAll (limits : Limits) (scope : Scope) : List Program → Machine →
    List (Except Exit Value) × Machine :=
  inTurn fun p => unwind limits p.statements scope

def recordAll (limits : Limits) (scope : Scope) : List Program → Machine →
    (List (Except Stop Value) × Machine) × List Note
  | [], m => (([], m), [])
  | p :: ps, m =>
    let x := record limits p.statements scope m
    let y := recordAll limits scope ps x.1.2
    ((x.1.1 :: y.1.1, y.1.2), x.2 ++ y.2)

theorem recordAll_fst (limits : Limits) (scope : Scope) (ps : List Program) (m : Machine) :
    (recordAll limits scope ps m).1 = runAll limits scope ps m := by
  induction ps generalizing m with
  | nil => rfl
  | cons p ps ih =>
    have hmatches := Recorded.matches_record limits p.statements scope m
    have hcons : runAll limits scope (p :: ps) m =
        ((run limits p.statements scope m).1 ::
            (runAll limits scope ps (run limits p.statements scope m).2).1,
          (runAll limits scope ps (run limits p.statements scope m).2).2) := rfl
    rw [hcons, ← hmatches, ← ih]
    rfl

def Parsed (p : Program) : Prop :=
  ∃ room maxNesting s, ofTokens room maxNesting s = .ok p

theorem Parsed.formed {p : Program} (h : p.Parsed) :
    ∀ n ∈ p.statements, Formed (fun _ => True) false .declaration n := by
  obtain ⟨room, maxNesting, s, hp⟩ := h
  obtain ⟨c, d, us, -, -, hformed⟩ := formed_of_ofTokens hp
  exact fun n hn => (hformed n hn).imp fun _ _ => trivial

variable {P : Token → Prop} {ss : List Scope} {scope : Scope}

structure Proceeds (P : Token → Prop) (ss : List Scope)
    (x : (List (Except Stop Value) × Machine) × List Note)
    (y : List (Except Exit Value) × Machine) : Prop where
  results : y.1 = x.1.1.map (·.mapError .stop)
  machine : y.2 = x.1.2
  closed : x.1.2.Closed P ss
  values : ∀ v, .ok v ∈ x.1.1 → v.Closed P ss
  stops : ∀ s, .error s ∈ x.1.1 → s.Settled P
  history : ∀ note ∈ x.2, note.Closed P ss

theorem proceeds (limits : Limits) (he : scope ∈ ss) {ps : List Program}
    (hps : ∀ p ∈ ps, ∀ n ∈ p.statements, Formed P false .declaration n) {m : Machine}
    (hm : m.Closed P ss) :
    ∃ ts, Grows ss ts ∧
      Proceeds P ts (recordAll limits scope ps m) (unwindAll limits scope ps m) := by
  induction ps generalizing ss m with
  | nil => exact ⟨ss, .refl, rfl, rfl, hm, (fun _ h => nomatch h), (fun _ h => nomatch h),
      List.forall_mem_nil _⟩
  | cons p ps ih =>
    obtain ⟨hp, hps⟩ := List.forall_mem_cons.mp hps
    obtain ⟨ts, hts, hmachine, hclosed, hmeets, hhistory⟩ := follows limits he hp m hm
    obtain ⟨us, hus, hresults', hmachine', hclosed', hvalues', hstops', hhistory'⟩ :=
      ih (hts.isPrefix.subset he) hps hclosed
    obtain ⟨hresult, hvalue, hstop⟩ := hmeets.eq_mapError
    have hunwind : unwindAll limits scope (p :: ps) m =
        ((unwind limits p.statements scope m).1 ::
            (unwindAll limits scope ps (record limits p.statements scope m).1.2).1,
          (unwindAll limits scope ps (record limits p.statements scope m).1.2).2) := by
      rw [← hmachine]
      rfl
    rw [hunwind]
    refine ⟨us, hts.trans hus, ?_, hmachine', hclosed', fun v hv => ?_, fun s hs => ?_,
      fun note hnote => ?_⟩
    · exact List.cons_eq_cons.mpr ⟨hresult, hresults'⟩
    · rcases List.mem_cons.mp hv with hv | hv
      · exact Value.Closed.mono (hvalue v hv.symm) hus.isPrefix
      · exact hvalues' v hv
    · rcases List.mem_cons.mp hs with hs | hs
      · exact hstop s hs.symm
      · exact hstops' s hs
    · rcases List.mem_append.mp hnote with hnote | hnote
      · exact (hhistory note hnote).mono hus.isPrefix
      · exact hhistory' note hnote

theorem closed_openRoot (clock : Clock) : ((Machine.initial clock).openRoot.2).Closed P [[0]] :=
  (Machine.Closed.initial clock).openRoot

def returner : Program :=
  ⟨[.declareFunction (some ⟨1, 1⟩)
      ⟨some ⟨1, 1⟩, "f", [], some ⟨1, 9⟩, [.ret (some ⟨1, 11⟩) none]⟩,
    .expression (some ⟨1, 21⟩) (.call (some ⟨1, 21⟩) (.name (some ⟨1, 20⟩) "f") [])]⟩

open Token in
theorem parsed_returner : returner.Parsed :=
  ⟨30, 4, ⟨[inFirstLine (.keyword .funWord) "fun" 1, inFirstLine .identifier "f" 5,
    inFirstLine (.symbol .leftParen) "(" 6, inFirstLine (.symbol .rightParen) ")" 7,
    inFirstLine (.symbol .leftBrace) "\x7b" 9, inFirstLine (.keyword .returnWord) "return" 11,
    inFirstLine (.symbol .rightBrace) "\x7d" 18, inFirstLine .identifier "f" 20,
    inFirstLine (.symbol .leftParen) "(" 21, inFirstLine (.symbol .rightParen) ")" 22,
    .endOfInput ⟨1, 23⟩ 22], none⟩, rfl⟩

end Program

end Scriptlet
