import CarSlice.Proofs.Session.Demands
import CarSlice.Proofs.Session.Work

/-!
# What a session says of its end

Two events end a session: one says that it is complete, the other that it failed.

* `Tells` says which of these a session publishes meanwhile.  Remarks and changes of phase, and so
  all that comes before the end of a session, are none (`Remarks.tells`, `tells_notePhase`).
* `Concludes`: work that comes to the end of the session says so, unless it fails on the way
  (`work_concludes`).
* `Announces`: a failure is told of, and so is an end without failure (`Sound.announces_serve`).
* The exception is `Muted`: where a session was cancelled, the flush that ends it may be refused,
  and the session does not tell of that (`tells_of_muted`).
* `one_terminal_event_unless_muted` follows for every row of demands.
-/

namespace CarSlice

open Archive (Block Header Reader ReaderOptions)

/-- Whether an identifier is that of an event that tells of the end of a session. -/
def Event.endsSession (id : Text) : Bool :=
  id == utf8 "range_session_complete" || id == utf8 "range_session_failed"

/-- Whether an event tells of the end of a session. -/
def Event.isTerminal (e : Event) : Bool :=
  endsSession e.id

namespace Session

/-! ## Events -/

theorem isTerminal_completeEvent (s : Session) : s.completeEvent.isTerminal = true := by
  show Event.endsSession (utf8 "range_session_complete") = true
  simp [Event.endsSession]

theorem isTerminal_failedEvent (e : Error) : (failedEvent e).isTerminal = true := by
  show Event.endsSession (utf8 "range_session_failed") = true
  simp [Event.endsSession]

/-- The terminal events that a session publishes before it is another one. -/
def Tells (s s' : Session) (told : List Event) : Prop :=
  ∃ events, s'.published = s.published ++ events ∧ events.filter (·.isTerminal) = told

theorem tells_of_said {s s' : Session} (h : s'.said = s.said) : s.Tells s' [] :=
  ⟨[], by rw [published, h, published, List.append_nil], rfl⟩

theorem Tells.trans {s s' s'' : Session} {told told' : List Event} (h : s.Tells s' told)
    (h' : s'.Tells s'' told') : s.Tells s'' (told ++ told') := by
  obtain ⟨events, hpublished, htold⟩ := h
  obtain ⟨events', hpublished', htold'⟩ := h'
  refine ⟨events ++ events', ?_, ?_⟩
  · rw [hpublished', hpublished, List.append_assoc]
  · rw [List.filter_append, htold, htold']

/-- What tells nothing may come first. -/
theorem Tells.then {s s' s'' : Session} {told : List Event} (h : s.Tells s' [])
    (h' : s'.Tells s'' told) : s.Tells s'' told :=
  h.trans h'

theorem Tells.filter {s s' : Session} {told : List Event} (h : s.Tells s' told) :
    s'.published.filter (·.isTerminal) = s.published.filter (·.isTerminal) ++ told := by
  obtain ⟨events, hpublished, htold⟩ := h
  rw [hpublished, List.filter_append, htold]

theorem tells_publish (s : Session) (e : Event) :
    s.Tells (s.publish e) ([e].filter (·.isTerminal)) :=
  ⟨[e], by simp [published, publish], rfl⟩

theorem tells_of_not_terminal {s : Session} {e : Event} (h : e.isTerminal = false) :
    s.Tells (s.publish e) [] := by
  have htells := s.tells_publish e
  simp only [List.filter_cons, h, Bool.false_eq_true, if_false, List.filter_nil] at htells
  exact htells

theorem tells_of_terminal {s : Session} {e : Event} (h : e.isTerminal = true) :
    s.Tells (s.publish e) [e] := by
  have htells := s.tells_publish e
  simp only [List.filter_cons, h, if_true, List.filter_nil] at htells
  exact htells

/-! ## What comes before the end -/

theorem endsSession_of_mem_remarks : ∀ id ∈ Event.remarks, Event.endsSession id = false := by
  decide +kernel

theorem Remarks.tells {s s' : Session} (h : s.Remarks s') : s.Tells s' [] :=
  h.filter fun e he => endsSession_of_mem_remarks e.id he

theorem tells_notePhase (s : Session) (before : Phase) : s.Tells (s.notePhase before) [] := by
  unfold notePhase
  split
  · exact tells_of_said rfl
  · apply tells_of_not_terminal
    show Event.endsSession (utf8 "range_phase") = false
    decide +kernel

/-! ## The end -/

/-- What a session says of its end when it has come to it without failure. -/
def lastWords (s : Session) : List Event :=
  if s.finished then [s.completeEvent] else []

theorem lastWords_of_unfinished {s : Session} (h : s.finished = false) : s.lastWords = [] := by
  rw [lastWords, if_neg (by simp [h])]

theorem lastWords_of_finished {s : Session} (h : s.finished = true) :
    s.lastWords = [s.completeEvent] :=
  if_pos h

/-- Work that tells of the end of the session if it comes to it, and of nothing if it fails. -/
structure Concludes (s : Session) (result : Except Error Unit × Session) : Prop where
  done : result.1 = .ok () → s.Tells result.2 result.2.lastWords
  failed : ∀ e, result.1 = .error e → s.Tells result.2 []

theorem Concludes.after {s s₁ : Session} {result : Except Error Unit × Session}
    (h : s₁.Concludes result) (hbefore : s.Tells s₁ []) : s.Concludes result where
  done hok := hbefore.then (h.done hok)
  failed e he := hbefore.then (h.failed e he)

theorem concludes_of_error {s s₁ : Session} {e : Error} (h : s.Tells s₁ []) :
    s.Concludes (.error e, s₁) where
  done hok := by cases hok
  failed _ _ := h

theorem concludes_of_unfinished {s s₁ : Session} (hf : s₁.finished = false) (h : s.Tells s₁ []) :
    s.Concludes (.ok (), s₁) where
  done _ := by
    rw [lastWords_of_unfinished hf]
    exact h
  failed _ he := by cases he

theorem concludes_finish (s : Session) : s.Concludes s.finish := by
  have hflush : s.Tells { s with finished := true }.releaseSource.flush.2 [] :=
    tells_of_said ((said_flush _).trans (said_releaseSource _))
  have hfinished := s.finished_finish
  have hfinishes := s.finishesAs_finish
  generalize s.finish = result at hfinishes hfinished
  cases hfinishes with
  | refused e s₁ hf =>
    rw [hf] at hflush
    exact concludes_of_error hflush
  | flushed s₁ hf =>
    rw [hf] at hflush
    refine ⟨fun _ => ?_, fun _ he => by cases he⟩
    rw [lastWords_of_finished hfinished]
    exact (hflush.then (tells_of_said rfl)).then
      (tells_of_terminal (isTerminal_completeEvent { s₁ with stats := s₁.finalStats }))

theorem work_concludes : Work (fun s s' => s.Tells s' []) Concludes where
  trans first second := first.then second
  remarks h _ := h.tells
  notes s before :=
    (tells_of_said s.said_noteComplete).then (s.noteComplete.tells_notePhase before)
  header _ _ := tells_of_said rfl
  block s block := tells_of_said (s.said_writeBlock block)
  after hbefore h := h.after hbefore
  failed _ h := concludes_of_error h
  goesOn h hf := concludes_of_unfinished hf h
  finish := concludes_finish

/-! ## Demands -/

/-- A session tells of its failure, or of its end if it has come to it without one. -/
structure Announces (s : Session) (error? : Option Error) (s' : Session) : Prop where
  failed : ∀ e, error? = some e → s.Tells s' [failedEvent e]
  done : error? = none → s.Tells s' s'.lastWords

theorem Announces.silent {s s' : Session} (h : s.Announces none s') (hf : s'.finished = false) :
    s.Tells s' [] := by
  have hdone := h.done rfl
  rw [lastWords_of_unfinished hf] at hdone
  exact hdone

/-- A session that has come to its end meanwhile has told of it, one way or the other. -/
theorem Announces.once {s s' : Session} {error? : Option Error} (h : s.Announces error? s')
    (hf : s'.finished = true) : ∃ e, s.Tells s' [e] := by
  cases error? with
  | some e => exact ⟨_, h.failed e rfl⟩
  | none =>
    have hdone := h.done rfl
    rw [lastWords_of_finished hf] at hdone
    exact ⟨_, hdone⟩

theorem announces_concluded {s : Session} {result : Except Error Unit × Session}
    (h : s.Concludes result) :
    s.Announces (Reply.done result.1).error? (concluded result).2 := by
  rcases result with ⟨⟨e⟩ | ⟨⟩, s₁⟩
  · constructor
    · intro e' he'
      cases he'
      have hfailed : s.Tells s₁ [] := h.failed e rfl
      exact (hfailed.then (tells_of_said rfl)).then
        (tells_of_terminal (isTerminal_failedEvent e))
    · intro hnone
      cases hnone
  · constructor
    · intro e he
      cases he
    · intro _
      exact h.done rfl

theorem error?_concluded (result : Except Error Unit × Session) :
    (Reply.more (concluded result).1).error? = (Reply.done result.1).error? := by
  rcases result with ⟨⟨e⟩ | ⟨⟩, s⟩
  · rfl
  · rfl

/-- A step or a run of a session that was cancelled, whose sink refuses the last flush. -/
structure Muted (s : Session) (d : Demand) : Prop where
  demand : d = .step ∨ d = .run
  unfinished : s.finished = false
  cancelled : s.cancelRequested = true
  written : s.writer.headerWritten = true
  refused : ∃ e, s.sink.flush.1 = .error e

/-- The end of a cancelled session that is refused by the sink is told of by nobody. -/
theorem tells_of_muted {s : Session} {d : Demand} (h : s.Muted d) :
    s.Tells (s.serve d).2 [] ∧ (s.serve d).2.finished = true ∧
      ∃ e, (s.serve d).1.error? = some e := by
  obtain ⟨e, hrefused⟩ := h.refused
  have hstop : s.stop.1 = .error e := by
    rw [s.halted_stop.flushed, if_pos h.written, hrefused]
  obtain ⟨hserve, herror⟩ := serve_of_cancelled h.unfinished h.cancelled h.demand
  rw [hserve]
  exact ⟨(work_concludes.stop s).failed e hstop, s.finished_stop, e, (herror e).2 hstop⟩

theorem announces_of_cancelled {s : Session} {d : Demand} (hf : s.finished = false)
    (hc : s.cancelRequested = true) (hd : d = .step ∨ d = .run) (hnot : ¬ s.Muted d) :
    s.Announces (s.serve d).1.error? (s.serve d).2 := by
  obtain ⟨hserve, herror⟩ := serve_of_cancelled hf hc hd
  have hok : s.stop.1 = .ok () := by
    cases hstop : s.stop.1 with
    | ok _ => rfl
    | error e =>
      have hflushed := s.halted_stop.flushed
      rw [hstop] at hflushed
      split at hflushed
      · next hwritten => exact absurd ⟨hd, hf, hc, hwritten, e, hflushed.symm⟩ hnot
      · cases hflushed
  constructor
  · intro e he
    rw [herror, hok] at he
    cases he
  · intro _
    rw [hserve]
    exact (work_concludes.stop s).done hok

theorem announces_start {s : Session} (hf : s.finished = false) :
    s.Announces (Reply.done s.start.1).error? s.start.2 := by
  cases hs : s.started with
  | true =>
    rw [start, if_pos hs]
    constructor
    · intro e he
      cases he
    · intro _
      rw [lastWords_of_unfinished hf]
      exact tells_of_said rfl
  | false =>
    have hconcludes : s.Concludes { s with started := true }.begin :=
      (work_concludes.begin (s := { s with started := true }) hf).after (tells_of_said rfl)
    rw [start_of_not_started hs]
    exact announces_concluded hconcludes

theorem announces_step {s : Session} (hf : s.finished = false) (hc : s.cancelRequested = false) :
    s.Announces (Reply.more s.step.1).error? s.step.2 := by
  cases hs : s.started with
  | true =>
    rw [step_of_started hf hc hs, error?_concluded]
    exact announces_concluded (work_concludes.advance hf)
  | false =>
    rw [step_of_not_started hf hc hs, error?_concluded]
    apply announces_concluded
    exact (work_concludes.begin (s := { s with started := true }) hf).after (tells_of_said rfl)

/-- A run tells of its end behind its last step. -/
theorem Sound.announces_run {v₀ : View} (hv₀ : v₀.Initial) {s : Session} {entries : List Handled}
    (h : Sound v₀ s entries) (hf : s.finished = false) (hc : s.cancelRequested = false) :
    s.Announces (Reply.done s.run.1).error? s.run.2 := by
  have hannounces := announces_step hf hc
  have hsound := h.operate hv₀ (.call .step)
  have hkept := h.cancelRequested_operate hv₀ (.call .step) (by simp)
  -- Every step but the last one leaves a session that goes on.
  fun_induction run s generalizing entries with
  | case1 s e s' hstep =>
    rw [hstep] at hannounces
    exact hannounces
  | case2 s s' hstep =>
    rw [hstep] at hannounces
    exact hannounces
  | case3 s s' hstep ih =>
    have hafter : (s.operate (.call .step)).2 = s' := congrArg Prod.snd hstep
    rw [hafter] at hsound hkept
    have hgoes : s'.finished = false := by
      have hmore := more_of_step hf hc (congrArg Prod.fst hstep)
      rw [hstep] at hmore
      simpa using hmore.symm
    have huncancelled : s'.cancelRequested = false := hkept.trans hc
    have hsilent : s.Tells s' [] := by
      rw [hstep] at hannounces
      exact hannounces.silent hgoes
    have hrest := ih hsound hgoes huncancelled (announces_step hgoes huncancelled)
      (hsound.operate hv₀ (.call .step))
      (hsound.cancelRequested_operate hv₀ (.call .step) (by simp))
    exact ⟨fun e he => hsilent.then (hrest.failed e he),
      fun hnone => hsilent.then (hrest.done hnone)⟩

/-- Whatever is asked of a session that goes on, it tells of its failure or of its end, unless it
is muted. -/
theorem Sound.announces_serve {v₀ : View} (hv₀ : v₀.Initial) {s : Session}
    {entries : List Handled} (h : Sound v₀ s entries) (hf : s.finished = false) {d : Demand}
    (hnot : ¬ s.Muted d) : s.Announces (s.serve d).1.error? (s.serve d).2 := by
  cases d with
  | start => exact announces_start hf
  | step =>
    cases hc : s.cancelRequested with
    | true => exact announces_of_cancelled hf hc (Or.inl rfl) hnot
    | false => exact announces_step hf hc
  | run =>
    cases hc : s.cancelRequested with
    | true => exact announces_of_cancelled hf hc (Or.inr rfl) hnot
    | false => exact h.announces_run hv₀ hf hc
  | cancel =>
    constructor
    · intro e he
      cases he
    · intro _
      have hcancel : (s.serve .cancel).2.finished = false := hf
      rw [lastWords_of_unfinished hcancel]
      exact tells_of_said rfl

/-! ## Rows of demands -/

/-- One of a row of demands is muted. -/
def Silenced (s : Session) : List Demand → Prop
  | [] => False
  | d :: demands => s.Muted d ∨ (s.serve d).2.Silenced demands

/-- What is asked of a finished session has no effect, but that it may be cancelled. -/
theorem serve_finished {s : Session} (hf : s.finished = true) (hs : s.started = true)
    (d : Demand) :
    (s.serve d).1.error? = none ∧ ∃ c, (s.serve d).2 = { s with cancelRequested := c } := by
  obtain ⟨hstart, hstep, hrun⟩ := serve_of_finished hf hs
  cases d with
  | start => exact ⟨by rw [hstart]; rfl, s.cancelRequested, by rw [hstart]⟩
  | step => exact ⟨by rw [hstep]; rfl, s.cancelRequested, by rw [hstep]⟩
  | run => exact ⟨by rw [hrun]; rfl, s.cancelRequested, by rw [hrun]⟩
  | cancel => exact ⟨rfl, true, rfl⟩

theorem serveAll_finished {s : Session} (hf : s.finished = true) (hs : s.started = true)
    (demands : List Demand) :
    (s.serveAll demands).2.finished = true ∧ s.Tells (s.serveAll demands).2 [] ∧
      ¬ s.Silenced demands := by
  induction demands generalizing s with
  | nil => exact ⟨hf, tells_of_said rfl, id⟩
  | cons d demands ih =>
    obtain ⟨-, c, hafter⟩ := serve_finished hf hs d
    have hrest := @ih (s.serve d).2 (by rw [hafter]; exact hf) (by rw [hafter]; exact hs)
    obtain ⟨hfinished, htells, hnot⟩ := hrest
    have hfirst : s.Tells (s.serve d).2 [] := tells_of_said (by rw [hafter])
    refine ⟨hfinished, hfirst.then htells, ?_⟩
    rintro (hmuted | hlater)
    · have hgoes := hmuted.unfinished
      rw [hf] at hgoes
      cases hgoes
    · exact hnot hlater

/-- What a session that went on has told of its end since then. -/
structure ToldOnce (s s' : Session) (silenced : Prop) : Prop where
  unfinished : s'.finished = false → s.Tells s' []
  muted : silenced → s.Tells s' []
  once : s'.finished = true → ¬ silenced → ∃ e, s.Tells s' [e]

theorem Sound.toldOnce_serveAll {v₀ : View} (hv₀ : v₀.Initial) {s : Session}
    {entries : List Handled} (h : Sound v₀ s entries) (hf : s.finished = false)
    (demands : List Demand) : s.ToldOnce (s.serveAll demands).2 (s.Silenced demands) := by
  induction demands generalizing s entries with
  | nil =>
    refine ⟨fun _ => tells_of_said rfl, fun hsilenced => hsilenced.elim, fun hfinished => ?_⟩
    have hfinished : s.finished = true := hfinished
    rw [hf] at hfinished
    cases hfinished
  | cons d demands ih =>
    have hsound := h.serve hv₀ d
    have hends (hfinished : (s.serve d).2.finished = true) :=
      serveAll_finished hfinished (hsound.begun hfinished) demands
    by_cases hmuted : s.Muted d
    · obtain ⟨htells, hfinished, -⟩ := tells_of_muted hmuted
      obtain ⟨hrest, hsilent, -⟩ := hends hfinished
      have hnothing := htells.then hsilent
      exact ⟨fun _ => hnothing, fun _ => hnothing, fun _ hnot => absurd (Or.inl hmuted) hnot⟩
    · have hannounces := h.announces_serve hv₀ hf hmuted
      cases hfinished : (s.serve d).2.finished with
      | true =>
        obtain ⟨hrest, hsilent, hnot⟩ := hends hfinished
        obtain ⟨e, htells⟩ := hannounces.once hfinished
        refine ⟨fun hunfinished => ?_, ?_, fun _ _ => ⟨e, htells.trans hsilent⟩⟩
        · have hunfinished : ((s.serve d).2.serveAll demands).2.finished = false := hunfinished
          rw [hrest] at hunfinished
          cases hunfinished
        · rintro (hfirst | hlater)
          · exact absurd hfirst hmuted
          · exact absurd hlater hnot
      | false =>
        have hnone : (s.serve d).1.error? = none := by
          cases herror : (s.serve d).1.error? with
          | none => rfl
          | some e =>
            have hshut := (shut_of_serve herror).finished
            rw [hfinished] at hshut
            cases hshut
        rw [hnone] at hannounces
        have hfirst := hannounces.silent hfinished
        have hrest := ih hsound hfinished
        refine ⟨fun hunfinished => hfirst.then (hrest.unfinished hunfinished), ?_, ?_⟩
        · rintro (hnow | hlater)
          · exact absurd hnow hmuted
          · exact hfirst.then (hrest.muted hlater)
        · intro hends hnot
          obtain ⟨e, htells⟩ := hrest.once hends fun hlater => hnot (Or.inr hlater)
          exact ⟨e, hfirst.then htells⟩

theorem Tells.unique {s s' : Session} {told told' : List Event} (h : s.Tells s' told)
    (h' : s.Tells s' told') : told = told' := by
  have hfilter := h.filter
  rw [h'.filter] at hfilter
  exact (List.append_cancel_left hfilter).symm

/-- Whatever a source holds and whatever a sink refuses, behind every row of demands:

* A demand that fails publishes one terminal event, which says that the session failed and why,
  exactly if it is not muted.  Where it is muted it publishes none.
* A session that goes on has published no terminal event.  One that is finished has published one
  in its whole life, exactly if no demand was muted, and else none. -/
theorem one_terminal_event_unless_muted (source : Source) (sink : Sink) (request : ByteRange)
    (options : ReaderOptions) (retains : Bool) (demands : List Demand) :
    let s₀ := new source sink request options retains
    let s := (s₀.serveAll demands).2
    let told := s.published.filter (·.isTerminal)
    (∀ (d : Demand) (e : Error), (s.serve d).1.error? = some e →
        (s.Tells (s.serve d).2 [failedEvent e] ↔ ¬ s.Muted d) ∧
          (s.Tells (s.serve d).2 [] ↔ s.Muted d)) ∧
      (s.finished = false → told = []) ∧
      (s.finished = true → ((∃ e, told = [e]) ↔ ¬ s₀.Silenced demands) ∧
        (told = [] ↔ s₀.Silenced demands)) := by
  intro s₀ s told
  have hv₀ := initial_new source sink request options retains
  have hsound : Sound s₀.view s (s₀.accountAll demands) :=
    sound_serveAll source sink request options retains demands
  have htold : s₀.ToldOnce s (s₀.Silenced demands) :=
    (sound_new source sink request options retains).toldOnce_serveAll hv₀ rfl demands
  have hfilter {events : List Event} (h : s₀.Tells s events) : told = events := h.filter
  refine ⟨?_, fun hf => hfilter (htold.unfinished hf), ?_⟩
  · intro d e he
    by_cases hmuted : s.Muted d
    · obtain ⟨htells, -, -⟩ := tells_of_muted hmuted
      refine ⟨iff_of_false (fun hfailed => ?_) (not_not_intro hmuted), iff_of_true htells hmuted⟩
      cases hfailed.unique htells
    · have hf : s.finished = false := by
        by_contra hf
        have hfinished : s.finished = true := by simpa using hf
        rw [(serve_finished hfinished (hsound.begun hfinished) d).1] at he
        cases he
      have hfailed := (hsound.announces_serve hv₀ hf hmuted).failed e he
      refine ⟨iff_of_true hfailed hmuted, iff_of_false (fun htells => ?_) hmuted⟩
      cases hfailed.unique htells
  · intro hf
    by_cases hsilenced : s₀.Silenced demands
    · have hnone := hfilter (htold.muted hsilenced)
      refine ⟨iff_of_false ?_ (not_not_intro hsilenced), iff_of_true hnone hsilenced⟩
      rintro ⟨e, hone⟩
      rw [hnone] at hone
      cases hone
    · obtain ⟨e, htells⟩ := htold.once hf hsilenced
      have hone := hfilter htells
      refine ⟨iff_of_true ⟨e, hone⟩ hsilenced, iff_of_false (fun hnone => ?_) hsilenced⟩
      rw [hone] at hnone
      cases hnone

/-- A session is cancelled behind its header, and its sink fails on the flush: the step fails and
the session is finished, and it has told neither of an end nor of a failure. -/
theorem muted_failure_tells_nothing :
    let body := Header.encodeBody [[0x01, 0x70, 0x00, 0x00]] 1
    let header : Bytes := UInt8.ofNat body.length :: body
    let source := Source.ofMemory (header ++ [0x06, 0x01, 0x55, 0x00, 0x00, 0x61, 0x62]) 0
    let sink : Sink := { kind := .stream true }
    let s := ((new source sink (.openEnded 0) {} false).serveAll [.step, .cancel]).2
    (s.serve .step).1.error? = some (.sinkFailed none) ∧ (s.serve .step).2.finished = true ∧
      (s.serve .step).2.published = s.published ∧
      (s.serve .step).2.published.filter (·.isTerminal) = [] := by
  decide +kernel

end Session

end CarSlice
