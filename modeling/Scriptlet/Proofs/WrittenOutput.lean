import Scriptlet.CommandLine

namespace Scriptlet

namespace Session

def collected (s : Session) : Session :=
  s.takeEvents.2.takeOutput.2

theorem output_of_collected {s : Session} (h : s.collected = s) : s.machine.output = "" := by
  rw [← h]
  rfl

theorem events_of_collected {s : Session} (h : s.collected = s) : s.events = #[] := by
  rw [← h]
  rfl

end Session

namespace Text

def asciiBytes (cs : List Char) : List UInt8 :=
  cs.map fun c => .ofNat c.toNat

theorem Utf8State.step_ascii {c : Char} (hc : c.toNat < 128) (done : List Char) (position : Nat) :
    step ⟨done, none, position⟩ (.ofNat c.toNat) = .ok ⟨c :: done, none, position + 1⟩ := by
  have htoNat : (UInt8.ofNat c.toNat).toNat = c.toNat := by
    rw [UInt8.toNat_ofNat']
    omega
  have hlt : UInt8.ofNat c.toNat < 0x80 := by
    rw [UInt8.lt_iff_toNat_lt, htoNat]
    exact hc
  change enter _ _ = _
  rw [enter, if_pos hlt, htoNat, Char.ofNat_toNat]

theorem Utf8State.run_ascii {cs : List Char} (hcs : ∀ c ∈ cs, c.toNat < 128) (done : List Char)
    (position : Nat) :
    run ⟨done, none, position⟩ (asciiBytes cs) = .ok ⟨cs.reverse ++ done, none, position + cs.length⟩ := by
  induction cs generalizing done position with
  | nil => rfl
  | cons c cs ih =>
    obtain ⟨hc, hcs⟩ := List.forall_mem_cons.mp hcs
    have hrest := ih hcs (c :: done) (position + 1)
    unfold run asciiBytes at hrest ⊢
    rw [List.map_cons, List.foldlM_cons, step_ascii hc]
    change List.foldlM step ⟨c :: done, none, position + 1⟩ _ = _
    rw [hrest, List.reverse_cons, List.append_assoc, List.length_cons, Nat.add_assoc, Nat.add_comm 1]
    rfl

theorem decodeUtf8_ascii {cs : List Char} (hcs : ∀ c ∈ cs, c.toNat < 128) :
    decodeUtf8 (asciiBytes cs) = .ok cs := by
  unfold decodeUtf8 Utf8State.start
  rw [Utf8State.run_ascii hcs, List.append_nil]
  change Except.ok cs.reverse.reverse = _
  rw [List.reverse_reverse]

theorem unifyLineEnds_of_not_mem {cs : List Char} (hcs : '\r' ∉ cs) : unifyLineEnds cs = cs := by
  have hfold (done : List Char) : cs.foldl unifyStep (false, done) = (false, cs.reverse ++ done) := by
    induction cs generalizing done with
    | nil => rfl
    | cons c cs ih =>
      obtain ⟨hc, hcs⟩ := List.ne_and_not_mem_of_not_mem_cons hcs
      have hstep : unifyStep (false, done) c = (false, c :: done) := by
        simp [unifyStep, Ne.symm hc]
      rw [List.foldl_cons, hstep, ih hcs, List.reverse_cons, List.append_assoc]
      rfl
  rw [unifyLineEnds, hfold, List.append_nil, List.reverse_reverse]

end Text

namespace CommandLine

def text? : Except ReadError (List UInt8) → Option String
  | .error _ => none
  | .ok bytes =>
    match Text.decodeUtf8 bytes with
    | .ok cs => some (.ofList (Text.unifyLineEnds cs))
    | .error _ => none

theorem text?_ascii {source : String} (hcs : ∀ c ∈ source.toList, c.toNat < 128 ∧ c ≠ '\r') :
    text? (.ok (Text.asciiBytes source.toList)) = some source := by
  have hreturn : '\r' ∉ source.toList := fun h => (hcs _ h).2 rfl
  have hdecode := Text.decodeUtf8_ascii fun c hc => (hcs c hc).1
  simp only [text?, hdecode, Text.unifyLineEnds_of_not_mem hreturn, String.ofList_toList]

namespace Run

variable {α β : Type}

theorem bind_apply (e : Run α) (f : α → Run β) (t : Transcript) :
    (e >>= f) t =
      match e t with
      | (.ok a, u) => f a u
      | (.error failure, u) => (.error failure, u) := by
  change ExceptT.bindCont f (e t).1 (e t).2 = _
  rcases e t with ⟨failure | a, u⟩ <;> rfl

theorem tryCatch_apply (e : Run α) (handle : Failure → Run α) (t : Transcript) :
    (tryCatch e handle : Run α) t =
      match e t with
      | (.ok a, u) => (.ok a, u)
      | (.error failure, u) => handle failure u := by
  change ExceptT.tryCatch e handle t = _
  unfold ExceptT.tryCatch ExceptT.mk
  change StateT.bind e _ t = _
  unfold StateT.bind
  change (match e t with | (_, _) => _ : Id _) = _
  rcases e t with ⟨failure | a, u⟩ <;> rfl

def logText (verbose : Bool) (text : String) : String :=
  if verbose then text else ""

def eventsText (verbose : Bool) (events : List Event) : String :=
  String.join (events.map fun e => logText verbose (logEvent e))

/-- A part of the run comes to a result and a session, and writes these texts. -/
def Writes (e : Run α) (t : Transcript) (r : Except Failure α) (s : Session) (out err : String) :
    Prop :=
  e t = (r, ⟨t.arguments, s, t.out ++ out, t.err ++ err⟩)

section

variable {t : Transcript} {s s' : Session} {out out' err err' : String} {e : Run α}

theorem writes_same {r : Except Failure α} (h : e t = (r, t)) : Writes e t r t.session "" "" := by
  unfold Writes
  rw [h, String.append_empty, String.append_empty]

theorem writes_write (text : String) (t : Transcript) :
    Writes (write text) t (.ok ()) t.session text "" := by
  unfold Writes
  rw [String.append_empty]
  rfl

theorem writes_complain (text : String) (t : Transcript) :
    Writes (complain text) t (.ok ()) t.session "" text := by
  unfold Writes
  rw [String.append_empty]
  rfl

theorem writes_log (text : String) (t : Transcript) :
    Writes (log text) t (.ok ()) t.session "" (logText t.arguments.verbose text) := by
  have hlog : log text t = (if t.arguments.verbose then complain text else pure ()) t :=
    bind_apply get _ t
  unfold Writes
  rw [hlog]
  cases t.arguments.verbose with
  | false => exact writes_same (e := pure ()) rfl
  | true => exact writes_complain text t

theorem Writes.bind {a : α} (h : Writes e t (.ok a) s out err) {f : α → Run β}
    {r : Except Failure β} (hf : ∀ u : Transcript, u.arguments = t.arguments → u.session = s →
      Writes (f a) u r s' out' err') :
    Writes (e >>= f) t r s' (out ++ out') (err ++ err') := by
  unfold Writes at h hf ⊢
  rw [bind_apply, h]
  simp only [hf ⟨t.arguments, s, t.out ++ out, t.err ++ err⟩ rfl rfl, String.append_assoc]

theorem Writes.bind_error {failure : Failure} (h : Writes e t (.error failure) s out err)
    (f : α → Run β) : Writes (e >>= f) t (.error failure) s out err := by
  unfold Writes at h ⊢
  rw [bind_apply, h]

theorem Writes.bind_quiet {a : α} (h : Writes e t (.ok a) s out "") {f : α → Run β}
    {r : Except Failure β} (hf : ∀ u : Transcript, u.arguments = t.arguments → u.session = s →
      Writes (f a) u r s' out' err') :
    Writes (e >>= f) t r s' (out ++ out') err' := by
  have hbind := h.bind hf
  rwa [String.empty_append] at hbind

theorem Writes.bind_logged {a : α} (h : Writes e t (.ok a) s "" err) {f : α → Run β}
    {r : Except Failure β} (hf : ∀ u : Transcript, u.arguments = t.arguments → u.session = s →
      Writes (f a) u r s' out' err') :
    Writes (e >>= f) t r s' out' (err ++ err') := by
  have hbind := h.bind hf
  rwa [String.empty_append] at hbind

theorem Writes.bind_silent {a : α} (h : Writes e t (.ok a) s "" "") {f : α → Run β}
    {r : Except Failure β} (hf : ∀ u : Transcript, u.arguments = t.arguments → u.session = s →
      Writes (f a) u r s' out' err') :
    Writes (e >>= f) t r s' out' err' := by
  have hbind := h.bind_quiet hf
  rwa [String.empty_append] at hbind

theorem Writes.bind_same {a : α} (h : Writes e t (.ok a) s out err) {f : α → Run β}
    {r : Except Failure β} (hf : ∀ u, f a u = (r, u)) : Writes (e >>= f) t r s out err := by
  have hbind := h.bind fun u _ hu => hu ▸ writes_same (hf u)
  rwa [String.append_empty, String.append_empty] at hbind

theorem writes_forM {f : α → Run Unit} {g k : α → String}
    (hf : ∀ a (u : Transcript), u.arguments = t.arguments →
      Writes (f a) u (.ok ()) u.session (g a) (k a)) (as : List α) :
    Writes (as.forM f) t (.ok ()) t.session (String.join (as.map g)) (String.join (as.map k)) := by
  induction as generalizing t with
  | nil => exact writes_same rfl
  | cons a as ih =>
    simp only [List.map_cons, String.join_cons]
    exact (hf a t rfl).bind fun u hu hsu => hsu ▸ ih fun b v hv => hf b v (hv.trans hu)

theorem Writes.get {f : Transcript → Run α} {r : Except Failure α}
    (h : Writes (f t) t r s out err) :
    Writes (MonadState.get >>= f) t r s out err :=
  (bind_apply MonadState.get f t).trans h

theorem join_map_empty (as : List α) : String.join (as.map fun _ => "") = "" := by
  induction as with
  | nil => rfl
  | cons a as ih => rw [List.map_cons, String.join_cons, ih, String.empty_append]

theorem writes_logs (events : Array Event) (t : Transcript) :
    Writes (events.forM fun e => log (logEvent e)) t (.ok ()) t.session ""
      (eventsText t.arguments.verbose events.toList) := by
  rcases events with ⟨events⟩
  have hforM : Array.forM (fun e => log (logEvent e)) events.toArray =
      events.forM fun e => log (logEvent e) := List.forM_toArray events _
  have hlogs := writes_forM (t := t) (fun e u hu => hu ▸ writes_log (logEvent e) u) events
  rwa [join_map_empty, ← hforM] at hlogs

theorem writes_collect (t : Transcript) :
    Writes collect t (.ok ()) t.session.collected t.session.machine.output
      (eventsText t.arguments.verbose t.session.events.toList) := by
  have hset : Writes (set { t with
      session := t.session.collected, out := t.out ++ t.session.machine.output } : Run Unit) t
      (.ok ()) t.session.collected t.session.machine.output "" := by
    unfold Writes
    rw [String.append_empty]
    rfl
  have hbind : Writes (set { t with
      session := t.session.collected, out := t.out ++ t.session.machine.output } >>= fun _ =>
        t.session.events.forM fun e => log (logEvent e)) t (.ok ()) t.session.collected
        (t.session.machine.output ++ "") (eventsText t.arguments.verbose t.session.events.toList) :=
    hset.bind_quiet fun u hu hsu => hsu ▸ hu ▸ writes_logs t.session.events u
  rw [String.append_empty] at hbind
  exact .get hbind

theorem writes_inSession (action : SessionM α) {t : Transcript} {r : Except Failure α}
    (haction : action t.session = (r, s)) :
    Writes (inSession action) t r s.collected s.machine.output
      (eventsText t.arguments.verbose s.events.toList) := by
  have hset : Writes (set { t with session := s } : Run Unit) t (.ok ()) s "" "" := by
    unfold Writes
    rw [String.append_empty, String.append_empty]
    rfl
  refine .get ?_
  rw [haction]
  refine hset.bind_silent fun u hu hsu => ?_
  subst hsu
  rw [← hu]
  exact (writes_collect u).bind_same fun v => by cases r <;> rfl

theorem writes_prepare (t : Transcript) :
    Writes prepare t (match t.session.obstacle? with | none => .ok () | some f => .error f)
      t.session.collected t.session.machine.output
      (eventsText t.arguments.verbose t.session.events.toList) := by
  rw [← String.append_empty (s := t.session.machine.output),
    ← String.append_empty (s := eventsText t.arguments.verbose t.session.events.toList)]
  refine (writes_collect t).bind fun u _ hu => .get ?_
  have hobstacle : u.session.obstacle? = t.session.obstacle? := by rw [hu]; rfl
  rw [hobstacle, ← hu]
  cases t.session.obstacle? <;> exact writes_same rfl

theorem Writes.tryCatch_ok {a : α} (h : Writes e t (.ok a) s out err) (handle : Failure → Run α) :
    Writes (tryCatch e handle) t (.ok a) s out err := by
  unfold Writes at h ⊢
  rw [tryCatch_apply, h]

theorem Writes.tryCatch_error {f : Failure} (h : Writes e t (.error f) s out err)
    {handle : Failure → Run α} {r : Except Failure α}
    (hf : ∀ u : Transcript, u.arguments = t.arguments → u.session = s →
      Writes (handle f) u r s "" err') :
    Writes (tryCatch e handle) t r s out (err ++ err') := by
  unfold Writes at h hf ⊢
  rw [tryCatch_apply, h]
  simp only [hf ⟨t.arguments, s, t.out ++ out, t.err ++ err⟩ rfl rfl, String.append_assoc,
    String.append_empty]

theorem writes_if (shown : Bool) {e : Run Unit} (h : Writes e t (.ok ()) t.session out err) :
    Writes (if shown then e else pure ()) t (.ok ()) t.session (if shown then out else "")
      (if shown then err else "") := by
  cases shown with
  | true => exact h
  | false => exact writes_same rfl

theorem Writes.congr {e' : Run α} {r : Except Failure α} (heq : e t = e' t)
    (h : Writes e' t r s out err) : Writes e t r s out err :=
  heq.trans h

theorem writes_program_unread (content : Except ReadError (List UInt8)) (s : Session)
    (a : Arguments) (h : s.obstacle? ≠ none ∨ text? content = none) :
    ∃ r err, ∀ t : Transcript, t.session = s → t.arguments.file = a.file →
      t.arguments.verbose = a.verbose →
      Writes (program content) t r s.collected s.machine.output err := by
  have hprepare (t : Transcript) (hs : t.session = s) (hverbose : t.arguments.verbose = a.verbose) :
      Writes prepare t (match s.obstacle? with | none => .ok () | some f => .error f) s.collected
        s.machine.output (eventsText a.verbose s.events.toList) := by
    rw [← hs, ← hverbose]
    exact writes_prepare t
  cases hobstacle : s.obstacle? with
  | some f =>
    refine ⟨.error f, eventsText a.verbose s.events.toList, fun t hs _ hverbose => ?_⟩
    have hfails := hprepare t hs hverbose
    rw [hobstacle] at hfails
    exact hfails.bind_error _
  | none =>
    rw [hobstacle] at hprepare
    cases content with
    | error e =>
      let message := "tiel: cannot read " ++ a.file.getD "" ++ ": " ++ e.describe ++ "\n"
      refine ⟨.ok 2, eventsText a.verbose s.events.toList ++ message, fun t hs hfile hverbose => ?_⟩
      rw [← String.append_empty (s := s.machine.output)]
      refine (hprepare t hs hverbose).bind fun u hu hsu => .get ?_
      simp only [message, ← hsu, ← hfile, ← hu]
      exact (writes_complain _ u).bind_same fun _ => rfl
    | ok bytes =>
      obtain ⟨e, he⟩ : ∃ e, Text.decodeUtf8 bytes = .error e := by
        rcases h with h | h
        · exact absurd hobstacle h
        · cases hdecode : Text.decodeUtf8 bytes with
          | error e => exact ⟨e, rfl⟩
          | ok cs =>
            simp only [text?, hdecode, reduceCtorEq] at h
      refine ⟨.error (.undecodable e), eventsText a.verbose s.events.toList ++ "",
        fun t hs _ hverbose => ?_⟩
      rw [← String.append_empty (s := s.machine.output)]
      refine (hprepare t hs hverbose).bind fun u _ hsu => .get ?_
      have hdecode : decode bytes u = (.error (.undecodable e), u) := by
        unfold decode
        rw [he]
        rfl
      exact hsu ▸ (writes_same hdecode).bind_error _

def concluded (r : Except Failure Unit) : Except Failure Nat × String :=
  match r with
  | .ok () => (.ok 0, "")
  | .error f =>
    match f.diagnostic? with
    | some d => (.ok 1, d.format ++ "\n")
    | none => (.error f, "")

def openingText (a : Arguments) (s : Session) : String :=
  eventsText a.verbose s.events.toList ++ logText a.verbose (logged "cli" s!"loaded {sourceName a}")

theorem writes_program {content : Except ReadError (List UInt8)} {source : String}
    {r : Except Failure Unit}
    (hobstacle : t.session.obstacle? = none) (hread : text? content = some source)
    (h : ∀ u : Transcript, u.arguments = t.arguments → u.session = t.session.collected →
      Writes (runSource source) u r s out err) :
    Writes (program content) t (concluded r).1 s (t.session.machine.output ++ out)
      (openingText t.arguments t.session ++ (err ++ (concluded r).2)) := by
  have hprepare := writes_prepare t
  rw [hobstacle] at hprepare
  obtain ⟨bytes, cs, rfl, hdecode, rfl⟩ : ∃ bytes cs, content = .ok bytes ∧
      Text.decodeUtf8 bytes = .ok cs ∧ source = .ofList (Text.unifyLineEnds cs) := by
    cases content with
    | error e => cases hread
    | ok bytes =>
      simp only [text?] at hread
      cases hdecode : Text.decodeUtf8 bytes with
      | error e => simp only [hdecode, reduceCtorEq] at hread
      | ok cs =>
        simp only [hdecode, Option.some.injEq] at hread
        exact ⟨bytes, cs, rfl, hdecode, hread.symm⟩
  unfold openingText
  rw [String.append_assoc]
  refine hprepare.bind fun u hu hsu => .get ?_
  have hdecode' : decode bytes u = (.ok (Text.unifyLineEnds cs), u) := by
    unfold decode
    rw [hdecode]
    rfl
  refine (writes_same hdecode').bind_silent fun v hv hsv => ?_
  rw [← hu, ← hv]
  refine (writes_log _ v).bind_logged fun w hw hsw => ?_
  have hrun := h w (by rw [hw, hv, hu]) (by rw [hsw, hsv, hsu])
  cases r with
  | ok a =>
    have hreturn := hrun.bind_same (f := fun _ => pure 0) fun _ => rfl
    rw [← String.append_empty (s := err)] at hreturn
    exact hreturn.tryCatch_ok _
  | error f =>
    refine (hrun.bind_error _).tryCatch_error fun x _ hx => ?_
    cases hd : f.diagnostic? with
    | none =>
      simp only [concluded, hd]
      exact hx ▸ writes_same rfl
    | some d =>
      simp only [concluded, hd]
      exact hx ▸ (writes_complain (d.format ++ "\n") x).bind_same fun _ => rfl

theorem Writes.answer {run : Run Nat} {r : Except Failure Nat} (h : Writes run t r s out err)
    (hout : t.out = "") (herr : t.err = "") : run.answer t = ⟨out, err, r⟩ := by
  unfold Writes at h
  unfold Run.answer
  rw [h, hout, herr, String.empty_append, String.empty_append]

end

end Run

end CommandLine

end Scriptlet
