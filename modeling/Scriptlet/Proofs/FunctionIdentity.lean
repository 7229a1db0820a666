import Scriptlet.Proofs.Isolation
import Scriptlet.Proofs.LedgerUpkeep
import Scriptlet.Proofs.Sessions

namespace Scriptlet

def Value.IsWritten : Value → Prop
  | .function .. => True
  | _ => False

def MakesAt (h : List Note) (j : Nat) (v : Value) : Prop :=
  ∃ note, h[j]? = some note ∧ note.makes? = some v

structure IdentifiesFunctions (h : List Note) : Prop where
  makes : ∀ note ∈ h, note.Makes
  origin : ∀ k note v, h[k]? = some note → note.Finds v → v.IsWritten →
    (∃ j ≤ k, MakesAt h j v) ∧ ∀ j j', MakesAt h j v → MakesAt h j' v → j = j'
  equal : ∀ v v', v.IsWritten → v'.IsWritten → (∃ note ∈ h, note.Finds v) →
    (∃ note ∈ h, note.Finds v') →
    (Operator.binary "==" v v' = .ok (.bool true) ↔ ∃ j, MakesAt h j v ∧ MakesAt h j v')
  fresh : ∀ j v, MakesAt h j v → ∀ k < j, ∀ note u, h[k]? = some note → note.Finds u →
    Operator.binary "==" v u = .ok (.bool false) ∧ Operator.binary "==" u v = .ok (.bool false)
  builtin : ∀ v b, v.IsWritten →
    Operator.binary "==" v (.builtin b) = .ok (.bool false) ∧
      Operator.binary "==" (.builtin b) v = .ok (.bool false)

theorem Traced.makes {vs : List Value} {h : List Note} (hh : Traced vs h) :
    ∀ note ∈ h, note.Makes := by
  induction h generalizing vs with
  | nil => exact List.forall_mem_nil _
  | cons note h ih => exact List.forall_mem_cons.mpr ⟨hh.1.1, ih hh.2⟩

theorem Traced.found {vs : List Value} {h : List Note} (hh : Traced vs h) {k : Nat} {note : Note}
    (hk : h[k]? = some note) {i : Nat} {d : Definition} {scope : Scope}
    (hfound : note.Finds (.function i d scope)) :
    .function i d scope ∈ vs ∨ ∃ j ≤ k, MakesAt h j (.function i d scope) := by
  induction h generalizing vs k with
  | nil => cases hk
  | cons first h ih =>
    have hfirst {v : Value} (hv : v ∈ first.makes?.toList) : MakesAt (first :: h) 0 v :=
      ⟨first, rfl, Option.mem_toList.mp hv⟩
    cases k with
    | zero =>
      obtain rfl := Option.some.inj hk
      refine (List.mem_append.mp (hh.1.2 i d scope hfound)).imp id fun hmem => ?_
      exact ⟨0, Nat.le_refl _, hfirst hmem⟩
    | succ k =>
      rcases ih hh.2 hk with hmem | ⟨j, hj, hmakes⟩
      · refine (List.mem_append.mp hmem).imp id fun hmem => ?_
        exact ⟨0, Nat.zero_le _, hfirst hmem⟩
      · exact .inr ⟨j + 1, Nat.succ_le_succ hj, hmakes⟩

theorem MakesAt.unique {h : List Note} {j : Nat} {v v' : Value} (hv : MakesAt h j v)
    (hv' : MakesAt h j v') : v = v' := by
  obtain ⟨note, hj, hmakes⟩ := hv
  obtain ⟨note', hj', hmakes'⟩ := hv'
  obtain rfl := Option.some.inj (hj.symm.trans hj')
  exact Option.some.inj (hmakes.symm.trans hmakes')

theorem MakesAt.older {h : List Note} (hordered : (functionsMade h).Pairwise Value.Older)
    {j j' : Nat} {v v' : Value} (hv : MakesAt h j v) (hv' : MakesAt h j' v') (hlt : j < j') :
    v.Older v' := by
  obtain ⟨note, hj, hmakes⟩ := hv
  obtain ⟨note', hj', hmakes'⟩ := hv'
  obtain ⟨hlength, rfl⟩ := List.getElem?_eq_some_iff.mp hj
  obtain ⟨hlength', rfl⟩ := List.getElem?_eq_some_iff.mp hj'
  have hpairs := List.pairwise_iff_getElem.mp (List.pairwise_filterMap.mp hordered)
  exact hpairs j j' hlength hlength' hlt v hmakes v' hmakes'

theorem MakesAt.mem {h : List Note} {j : Nat} {v : Value} (hv : MakesAt h j v) :
    v ∈ functionsMade h := by
  obtain ⟨note, hj, hmakes⟩ := hv
  exact List.mem_filterMap.mpr ⟨note, List.mem_of_getElem? hj, hmakes⟩

theorem Value.Older.equal {v v' : Value} (h : v.Older v') :
    v.equal v' = false ∧ v'.equal v = false := by
  obtain ⟨i, hi, j, hj, hlt⟩ := h
  cases v <;> cases hi
  cases v' <;> cases hj
  simp [Value.equal, Value.sameKind, Value.alike, Nat.ne_of_lt hlt, Nat.ne_of_gt hlt]

theorem Value.IsWritten.equal_self {v : Value} (h : v.IsWritten) : v.equal v = true := by
  cases v
  case function i d scope => simp [Value.equal, Value.sameKind, Value.alike]
  all_goals exact h.elim

theorem Value.IsWritten.unequal {v u : Value} (h : v.IsWritten) (hu : ¬u.IsWritten) :
    v.equal u = false ∧ u.equal v = false := by
  cases v
  case function i d scope =>
    cases u
    case function => exact (hu trivial).elim
    all_goals exact ⟨rfl, rfl⟩
  all_goals exact h.elim

theorem Operator.binary_equal {a b : Value} {r : Bool} :
    binary "==" a b = .ok (.bool r) ↔ a.equal b = r := by
  change Except.ok (Value.bool (a.equal b)) = .ok (.bool r) ↔ _
  simp

theorem Machine.Booked.isWritten {w : Ledger} {m : Machine} (h : m.Booked w) {v : Value}
    (hv : v ∈ w.made) : v.IsWritten := by
  obtain ⟨i, hi, -⟩ := h.numbered v hv
  cases v <;> cases hi
  trivial

theorem Traced.origin {h : List Note} (hh : Traced [] h) {k : Nat} {note : Note} {v : Value}
    (hk : h[k]? = some note) (hfound : note.Finds v) (hv : v.IsWritten) : ∃ j ≤ k, MakesAt h j v := by
  cases v
  case function i d scope =>
    rcases hh.found hk hfound with hmem | hmade
    · cases hmem
    · exact hmade
  all_goals exact hv.elim

theorem MakesAt.eq_of_equal {h : List Note} (hordered : (functionsMade h).Pairwise Value.Older)
    {j j' : Nat} {v v' : Value} (hv : MakesAt h j v) (hv' : MakesAt h j' v')
    (hequal : v.equal v' = true) : j = j' := by
  rcases Nat.lt_trichotomy j j' with hlt | heq | hlt
  · rw [(hv.older hordered hv' hlt).equal.1] at hequal
    cases hequal
  · exact heq
  · rw [(hv'.older hordered hv hlt).equal.2] at hequal
    cases hequal

theorem Traced.identifies {h : List Note} (hh : Traced [] h) {n : Nat} {m : Machine}
    (hm : m.Booked ⟨functionsMade h, n⟩) : IdentifiesFunctions h := by
  refine ⟨hh.makes, fun k note v hk hfound hv => ⟨hh.origin hk hfound hv, ?_⟩, ?_, ?_, ?_⟩
  · exact fun j j' hj hj' => hj.eq_of_equal hm.ordered hj' hv.equal_self
  · rintro v v' hv hv' ⟨note, hnote, hfound⟩ ⟨note', hnote', hfound'⟩
    obtain ⟨k, hk⟩ := List.mem_iff_getElem?.mp hnote
    obtain ⟨k', hk'⟩ := List.mem_iff_getElem?.mp hnote'
    obtain ⟨j, -, hj⟩ := hh.origin hk hfound hv
    obtain ⟨j', -, hj'⟩ := hh.origin hk' hfound' hv'
    rw [Operator.binary_equal]
    constructor
    · intro hequal
      obtain rfl := hj.eq_of_equal hm.ordered hj' hequal
      exact ⟨j, hj, hj'⟩
    · rintro ⟨i, hi, hi'⟩
      obtain rfl := hi.unique hi'
      exact hv.equal_self
  · intro j v hj k hlt note u hk hfound
    rw [Operator.binary_equal, Operator.binary_equal]
    by_cases hu : u.IsWritten
    · obtain ⟨j', hle, hj'⟩ := hh.origin hk hfound hu
      exact (hj'.older hm.ordered hj (Nat.lt_of_le_of_lt hle hlt)).equal.symm
    · exact (hm.isWritten hj.mem).unequal hu
  · intro v b hv
    rw [Operator.binary_equal, Operator.binary_equal]
    exact hv.unequal id

structure Ledger.Continues (w : Ledger) (h : List Note) (m : Machine) : Prop where
  frames : w.frames ≤ m.store.fresh
  booked : m.Booked ⟨w.made ++ functionsMade h, m.store.fresh⟩
  traced : Traced w.made h

namespace Ledger.Continues

variable {w : Ledger} {h h' : List Note} {m m' : Machine}

theorem le (hm : w.Continues h m) : w.Le ⟨w.made ++ functionsMade h, m.store.fresh⟩ :=
  ⟨List.prefix_append _ _, hm.frames⟩

theorem nil {n : Nat} (hm : m.Booked ⟨w.made, n⟩) (hn : w.frames ≤ n) : w.Continues [] m := by
  have hframes : n = m.store.fresh := hm.frames
  refine ⟨hframes ▸ hn, ?_, trivial⟩
  rw [functionsMade, List.filterMap_nil, List.append_nil, ← hframes]
  exact hm

theorem append (hm : w.Continues h m)
    (hm' : Ledger.Continues ⟨w.made ++ functionsMade h, m.store.fresh⟩ h' m') :
    w.Continues (h ++ h') m' := by
  refine ⟨Nat.le_trans hm.frames hm'.frames, ?_, hm.traced.append hm'.traced⟩
  rw [functionsMade_append, ← List.append_assoc]
  exact hm'.booked

theorem record {limits : Limits} {statements : List Node} {scope : Scope} {n : Nat}
    (hm : m.Booked ⟨w.made, n⟩) (hn : w.frames ≤ n) (he : Ledger.Sees ⟨w.made, n⟩ scope)
    (hstatements : ∀ k ∈ statements, k.Proper) :
    w.Continues (Program.record limits statements scope m).2
      (Program.record limits statements scope m).1.2 := by
  have hbooks := Program.keepsBooks_record limits he hstatements m hm
  exact ⟨Nat.le_trans hn hbooks.frames, hbooks.booked, hbooks.traced⟩

end Ledger.Continues

theorem Program.continues_recordAll (limits : Limits) {scope : Scope} {ps : List Program}
    (hps : ∀ p ∈ ps, p.Parsed) {w : Ledger} {m : Machine} (hm : m.Booked w) (he : w.Sees scope) :
    w.Continues (recordAll limits scope ps m).2 (recordAll limits scope ps m).1.2 := by
  induction ps generalizing w m with
  | nil => exact .nil hm (Nat.le_refl _)
  | cons p ps ih =>
    obtain ⟨hp, hps⟩ := List.forall_mem_cons.mp hps
    have hfirst : w.Continues (record limits p.statements scope m).2
        (record limits p.statements scope m).1.2 :=
      .record hm (Nat.le_refl _) he fun n hn => (hp.formed n hn).proper
    exact hfirst.append (ih hps hfirst.booked (he.mono hfirst.le))

namespace Session

def historyOf (s : Session) (source : String) (start : Scope × Machine) : List Note :=
  match Program.ofTokens s.limits.grammarRoom s.limits.maxNesting (.ofSource source) with
  | .ok p => (Program.record s.limits p.statements start.1 start.2).2
  | .error _ => []

namespace Call

mutual

def history (s : Session) : Call → List Note
  | run source => s.historyOf source s.machine.openRoot
  | runKept source => s.historyOf source s.kept
  | parse _ | lookup _ | reset => []
  | block calls => historyAll s calls

def historyAll (s : Session) : List Call → List Note
  | [] => []
  | c :: calls => c.history s ++ historyAll (c.after s) calls

end

end Call

structure Booked (w : Ledger) (s : Session) : Prop where
  machine : s.machine.Booked w
  globals : ∀ scope ∈ s.globals, w.Sees scope

structure Continues (w : Ledger) (h : List Note) (s : Session) : Prop
    extends w.Continues h s.machine where
  globals : ∀ scope ∈ s.globals,
    Ledger.Sees ⟨w.made ++ functionsMade h, s.machine.store.fresh⟩ scope

variable {w : Ledger} {s : Session}

theorem Continues.session {h : List Note} (hs : s.Continues w h) :
    s.Booked ⟨w.made ++ functionsMade h, s.machine.store.fresh⟩ :=
  ⟨hs.booked, hs.globals⟩

theorem Continues.append {h h' : List Note} {t : Session} (hs : s.Continues w h)
    (ht : t.Continues ⟨w.made ++ functionsMade h, s.machine.store.fresh⟩ h') :
    t.Continues w (h ++ h') := by
  refine ⟨hs.toContinues.append ht.toContinues, ?_⟩
  rw [functionsMade_append, ← List.append_assoc]
  exact ht.globals

theorem Booked.idle (hs : s.Booked w) {t : Session} (hmachine : t.machine = s.machine)
    (hglobals : ∀ scope ∈ t.globals, scope ∈ s.globals) : t.Continues w [] := by
  have hbooked : t.machine.Booked w := hmachine ▸ hs.machine
  have hcontinues : w.Continues [] t.machine := .nil hbooked (Nat.le_refl _)
  refine ⟨hcontinues, fun scope hscope => ?_⟩
  exact (hs.globals scope (hglobals scope hscope)).mono hcontinues.le

theorem Booked.kept (hs : s.Booked w) : ∃ n, w.frames ≤ n ∧ s.kept.2.Booked ⟨w.made, n⟩ ∧
    Ledger.Sees ⟨w.made, n⟩ s.kept.1 := by
  cases hglobals : s.globals with
  | none =>
    rw [kept_of_none hglobals]
    obtain ⟨hroot, hsees⟩ := hs.machine.openRoot
    exact ⟨w.frames + 1, Nat.le_succ _, hroot, hsees⟩
  | some scope =>
    rw [kept_of_some hglobals]
    exact ⟨w.frames, Nat.le_refl _, hs.machine, hs.globals scope hglobals⟩

theorem Booked.root (hs : s.Booked w) {t : Session} (hmachine : t.machine = s.kept.2)
    (hglobals : t.globals = some s.kept.1) : t.Continues w [] := by
  obtain ⟨n, hn, hm, he⟩ := hs.kept
  have hcontinues : w.Continues [] t.machine := .nil (hmachine ▸ hm) hn
  refine ⟨hcontinues, fun scope hscope => ?_⟩
  rw [hglobals] at hscope
  obtain rfl := Option.some.inj hscope
  obtain ⟨a, ha, hlt⟩ := he
  have hframes : n = s.kept.2.store.fresh := hm.frames
  exact ⟨a, ha, by rwa [hmachine, ← hframes]⟩

theorem historyOf_error {source : String} {e : ParseError}
    (he : Program.ofTokens s.limits.grammarRoom s.limits.maxNesting (.ofSource source) = .error e)
    (start : Scope × Machine) : s.historyOf source start = [] := by
  rw [historyOf, he]

theorem continues_historyOf {source : String} {p : Program}
    (hp : Program.ofTokens s.limits.grammarRoom s.limits.maxNesting (.ofSource source) = .ok p)
    {start : Scope × Machine} {n : Nat} (hm : start.2.Booked ⟨w.made, n⟩) (hn : w.frames ≤ n)
    (he : Ledger.Sees ⟨w.made, n⟩ start.1) :
    w.Continues (s.historyOf source start)
      (Program.run s.limits p.statements start.1 start.2).2 := by
  have hparsed : p.Parsed := ⟨_, _, _, hp⟩
  have hrecord : w.Continues (Program.record s.limits p.statements start.1 start.2).2
      (Program.record s.limits p.statements start.1 start.2).1.2 :=
    .record hm hn he fun n hn => (hparsed.formed n hn).proper
  rw [Recorded.matches_record] at hrecord
  rwa [historyOf, hp]

theorem continues_run (hs : s.Booked w) (source : String) :
    (run source s).2.Continues w (s.historyOf source s.machine.openRoot) := by
  obtain ⟨events, hrun⟩ := run_eq s source
  rw [hrun]
  cases hp : Program.ofTokens s.limits.grammarRoom s.limits.maxNesting (.ofSource source) with
  | error e =>
    rw [historyOf_error hp]
    exact hs.idle rfl fun _ => id
  | ok p =>
    obtain ⟨hroot, hsees⟩ := hs.machine.openRoot
    have hcontinues := continues_historyOf hp hroot (Nat.le_succ _) hsees
    exact ⟨hcontinues, fun scope hscope => (hs.globals scope hscope).mono hcontinues.le⟩

theorem continues_runKept (hs : s.Booked w) (source : String) :
    (runKept source s).2.Continues w (s.historyOf source s.kept) := by
  obtain ⟨events, hrun⟩ := runKept_eq s source
  rw [hrun]
  cases hp : Program.ofTokens s.limits.grammarRoom s.limits.maxNesting (.ofSource source) with
  | error e =>
    rw [historyOf_error hp]
    exact hs.root rfl rfl
  | ok p =>
    obtain ⟨n, hn, hm, he⟩ := hs.kept
    have hcontinues := continues_historyOf hp hm hn he
    refine ⟨hcontinues, fun scope hscope => ?_⟩
    obtain rfl := Option.some.inj hscope
    have hroot : Ledger.Le ⟨w.made, n⟩ ⟨w.made ++ functionsMade (s.historyOf source s.kept),
        (Program.run s.limits p.statements s.kept.1 s.kept.2).2.store.fresh⟩ := by
      refine ⟨hcontinues.le.made, ?_⟩
      have hlater := (Program.later_run s.limits p.statements s.kept.1 s.kept.2).store.fresh
      have hframes : n = s.kept.2.store.fresh := hm.frames
      exact hframes ▸ hlater
    exact he.mono hroot

mutual

theorem continues_after {w : Ledger} {s : Session} (hs : s.Booked w) (c : Call) :
    (c.after s).Continues w (c.history s) := by
  cases c with
  | run source => exact continues_run hs source
  | runKept source => exact continues_runKept hs source
  | parse source =>
    simp only [Call.after, Call.history]
    rw [parse_apply]
    cases Program.ofTokens s.limits.grammarRoom s.limits.maxNesting (.ofSource source) with
    | error e => exact hs.idle rfl fun _ => id
    | ok p => exact hs.idle rfl fun _ => id
  | lookup x =>
    simp only [Call.after, Call.history]
    rw [lookup_apply]
    exact hs.root rfl rfl
  | reset => exact hs.idle rfl nofun
  | block calls =>
    have hcalls := continues_afterAll hs calls
    exact ⟨hcalls.toContinues, nofun⟩
termination_by structural c

theorem continues_afterAll {w : Ledger} {s : Session} (hs : s.Booked w) (calls : List Call) :
    (Call.afterAll s calls).Continues w (Call.historyAll s calls) := by
  cases calls with
  | nil => exact hs.idle rfl fun _ => id
  | cons c calls =>
    have hc := continues_after hs c
    exact hc.append (continues_afterAll hc.session calls)
termination_by structural calls

end

end Session

/-- Functions are equal if and only if they come from one and the same evaluation of a definition or a
declaration, and every such evaluation makes a function that differs from all values before: in
programs that are run one after another in one scope, and in all calls on a session. -/
theorem identifiesFunctions (limits : Limits) (clock : Clock) :
    (∀ ps : List Program, (∀ p ∈ ps, p.Parsed) →
      let root := (Machine.initial clock).openRoot
      let recorded := Program.recordAll limits root.1 ps root.2
      recorded.1 = Program.runAll limits root.1 ps root.2 ∧ IdentifiesFunctions recorded.2) ∧
    ∀ (blank : List Limit) (calls : List Session.Call),
      IdentifiesFunctions (Session.Call.historyAll (.start limits blank clock) calls) := by
  have hinitial := Machine.Booked.initial clock
  refine ⟨fun ps hps => ?_, fun blank calls => ?_⟩
  · intro root recorded
    obtain ⟨hroot, hsees⟩ := hinitial.openRoot
    have hcontinues := Program.continues_recordAll limits hps hroot hsees
    refine ⟨Program.recordAll_fst limits root.1 ps root.2, ?_⟩
    exact hcontinues.traced.identifies hcontinues.booked
  · have hstart : (Session.start limits blank clock).Booked ⟨[], 0⟩ := ⟨hinitial, nofun⟩
    have hcontinues := Session.continues_afterAll hstart calls
    exact hcontinues.traced.identifies hcontinues.booked

namespace Program

def emptyFunction : Definition :=
  ⟨some ⟨1, 1⟩, "f", [], some ⟨1, 9⟩, []⟩

def declarer : Program :=
  ⟨[.declareFunction (some ⟨1, 1⟩) emptyFunction]⟩

open Token in
theorem parsed_declarer : declarer.Parsed :=
  ⟨30, 4, ⟨[inFirstLine (.keyword .funWord) "fun" 1, inFirstLine .identifier "f" 5,
    inFirstLine (.symbol .leftParen) "(" 6, inFirstLine (.symbol .rightParen) ")" 7,
    inFirstLine (.symbol .leftBrace) "\x7b" 9, inFirstLine (.symbol .rightBrace) "\x7d" 10,
    .endOfInput ⟨1, 11⟩ 10], none⟩, rfl⟩

theorem identifiesFunctions_declarer :
    let root := (Machine.initial (0 : Float)).openRoot
    let h := (recordAll {} root.1 [declarer, declarer] root.2).2
    let first : Value := .function 0 emptyFunction [0]
    let second : Value := .function 1 emptyFunction [0]
    declarer.Parsed ∧ MakesAt h 3 first ∧ MakesAt h 7 second ∧
      Operator.binary "==" second first = .ok (.bool false) := by
  intro root h first second
  have hps : ∀ p ∈ [declarer, declarer], p.Parsed := by
    simpa using parsed_declarer
  obtain ⟨-, hidentifies⟩ := (identifiesFunctions {} (0 : Float)).1 [declarer, declarer] hps
  have hfirst : MakesAt h 3 first := ⟨_, rfl, rfl⟩
  have hsecond : MakesAt h 7 second := ⟨_, rfl, rfl⟩
  obtain ⟨note, hnote, hmakes⟩ := hfirst
  have hfound : note.Finds first := by
    obtain rfl := Option.some.inj hnote
    exact .inl ⟨0, "f", List.mem_of_getElem? (i := 3) rfl⟩
  exact ⟨parsed_declarer, ⟨note, hnote, hmakes⟩, hsecond,
    (hidentifies.fresh 7 second hsecond 3 (by decide) note first hnote hfound).1⟩

end Program

end Scriptlet
