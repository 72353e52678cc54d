import CarSlice.Proofs.Session.Accounting
import CarSlice.Proofs.Session.Remarks

/-!
# What a session says of its phases

A session tells of a change of phase where it settles a block, with one event for all that the
block brought about.  An archive without blocks is passed through with no block to settle.

* `Event.Changes` and `Traces` say which changes an event, and a row of events, tell of.
* `phaseEvents` are the events of this kind.  Remarks and an end are none (`Remarks.phaseEvents`,
  `phaseEvents_finish`).
* `Notes` is what settling a block publishes, given the phase before it (`notes_settle`).
* `TellsPhase` lists what an operation without failure can do to the phase, and `Traced` is what
  it keeps.
* `phase_changes_are_told_unless_empty` follows for every row of demands without a failure.
-/

namespace CarSlice

open Archive (Block Header Reader ReaderOptions)

/-! ## Events -/

namespace Event

/-- Whether an event tells of a change of phase. -/
def isPhaseChange (e : Event) : Bool :=
  e.id == utf8 "range_phase"

/-- The value of the first field with this key. -/
def value? (e : Event) (key : Text) : Option Text :=
  (e.fields.find? (·.key == key)).map (·.value)

/-- An event that tells of a change from one phase to another one. -/
structure Changes (e : Event) (before after : Phase) : Prop where
  source : e.value? (utf8 "from") = some before.name
  target : e.value? (utf8 "to") = some after.name
  differs : before ≠ after

end Event

/-- A row of events that leads from one phase to another: each tells of a change, and it tells of it
from where the one before has led. -/
inductive Traces (start : Phase) : List Event → Phase → Prop where
  | nil : Traces start [] start
  | snoc {events : List Event} {before after : Phase} (e : Event)
      (h : Traces start events before) (he : e.Changes before after) :
      Traces start (events ++ [e]) after

/-- No event leads from a phase to another one. -/
theorem Traces.eq_of_nil {start stop : Phase} (h : Traces start [] stop) : stop = start := by
  generalize hevents : ([] : List Event) = events at h
  cases h with
  | nil => rfl
  | snoc e h he => exact absurd hevents.symm (List.concat_ne_nil e _)

namespace Session

/-- The events of changes of phase that a session has published, in their order. -/
def phaseEvents (s : Session) : List Event :=
  s.published.filter (·.isPhaseChange)

/-! ## What does not settle a block -/

theorem phaseEvents_of_said {s s' : Session} (h : s'.said = s.said) :
    s'.phaseEvents = s.phaseEvents := by
  rw [phaseEvents, published, h]
  rfl

theorem isPhaseChange_of_mem_remarks :
    ∀ id ∈ Event.remarks, (id == utf8 "range_phase") = false := by
  decide +kernel

/-- Remarks tell of no change of phase. -/
theorem Remarks.phaseEvents {s s' : Session} (h : s.Remarks s') :
    s'.phaseEvents = s.phaseEvents := by
  obtain ⟨events, hpublished, hnone⟩ :=
    h.filter (p := Event.isPhaseChange) fun e he => isPhaseChange_of_mem_remarks e.id he
  rw [Session.phaseEvents, hpublished, List.filter_append, hnone, List.append_nil]
  rfl

theorem phaseEvents_publish (s : Session) (e : Event) :
    (s.publish e).phaseEvents = s.phaseEvents ++ [e].filter (·.isPhaseChange) := by
  simp only [phaseEvents, published, publish, List.reverse_cons, List.filter_append]

theorem phaseEvents_reported (s : Session) : s.reported.phaseEvents = s.phaseEvents := by
  have hcomplete : ({ s with stats := s.finalStats }.completeEvent).isPhaseChange = false := by
    show (utf8 "range_session_complete" == utf8 "range_phase") = false
    decide +kernel
  rw [reported, phaseEvents_publish, List.filter_cons_of_neg (by simp [hcomplete]), List.filter_nil,
    List.append_nil]
  rfl

theorem phaseEvents_finish (s : Session) : s.finish.2.phaseEvents = s.phaseEvents := by
  rw [finish_keeps phaseEvents phaseEvents_reported]
  exact phaseEvents_of_said ((said_flush _).trans (said_releaseSource _))

theorem phaseEvents_endOfArchive (s : Session) : s.endOfArchive.2.phaseEvents = s.phaseEvents := by
  have hends := s.endsArchive_endOfArchive
  generalize s.endOfArchive = result at hends
  cases hends with
  | incomplete =>
    rw [phaseEvents_finish]
    exact (remarks_warnIncomplete _).phaseEvents
  | complete => exact s.phaseEvents_finish

/-! ## Settling a block -/

theorem changes_phaseEvent {s : Session} {before : Phase} (h : s.phase ≠ before) :
    (s.phaseEvent before).Changes before s.phase where
  source := by simp [Event.value?, phaseEvent, EventField.text]
  target := by
    have hkey : (utf8 "from" == utf8 "to") = false := by decide +kernel
    simp [Event.value?, phaseEvent, EventField.text, hkey]
  differs := h.symm

/-- A session that has come from one phase to where it is, and has told of that meanwhile. -/
inductive Notes (before : Phase) (s s' : Session) : Prop where
  | same (hphase : s'.phase = before) (hevents : s'.phaseEvents = s.phaseEvents)
  | changed (e : Event) (he : e.Changes before s'.phase)
      (hevents : s'.phaseEvents = s.phaseEvents ++ [e])

theorem Notes.after {before : Phase} {s s₁ s' : Session} (h : s₁.Notes before s')
    (hbefore : s₁.phaseEvents = s.phaseEvents) : s.Notes before s' := by
  cases h with
  | same hphase hevents => exact .same hphase (hevents.trans hbefore)
  | changed e he hevents => exact .changed e he (by rw [hevents, hbefore])

theorem Notes.traces {start before : Phase} {s s' : Session} (h : s.Notes before s')
    (htraces : Traces start s.phaseEvents before) : Traces start s'.phaseEvents s'.phase := by
  cases h with
  | same hphase hevents =>
    rw [hphase, hevents]
    exact htraces
  | changed e he hevents =>
    rw [hevents]
    exact .snoc e htraces he

theorem notes_notePhase (s : Session) (before : Phase) : s.Notes before (s.notePhase before) := by
  unfold notePhase
  split
  · next hsame => exact .same hsame rfl
  · next hchanged =>
    have hevent : (s.phaseEvent before).isPhaseChange = true := beq_self_eq_true _
    refine .changed (s.phaseEvent before) (changes_phaseEvent hchanged) ?_
    rw [phaseEvents_publish, List.filter_cons_of_pos hevent, List.filter_nil]

/-- Behind a settled block the session has told how it came from the phase before it. -/
theorem notes_settle (s : Session) (before : Phase) : s.Notes before (s.settle before).2 := by
  have hnotes := (s.noteComplete.notes_notePhase before).after
    (phaseEvents_of_said s.said_noteComplete)
  have hsettles := s.settlesAs_settle before
  generalize s.settle before = result at hsettles
  cases hsettles with
  | ended =>
    have hphase : (s.noteComplete.notePhase before).finish.2.phase =
        (s.noteComplete.notePhase before).phase := congrArg View.phase (view_finish _)
    have hevents := phaseEvents_finish (s.noteComplete.notePhase before)
    cases hnotes with
    | same hsame hkept => exact .same (hphase.trans hsame) (hevents.trans hkept)
    | changed e he htold => exact .changed e (hphase ▸ he) (hevents.trans htold)
  | goesOn => exact hnotes

theorem SettlesWork.notes {s : Session} {work result : Except Error Unit × Session}
    (h : s.SettlesWork work result) (hremarks : s.Remarks work.2) (hok : result.1 = .ok ()) :
    s.Notes s.phase result.2 := by
  cases h with
  | failed e s₁ => cases hok
  | settled s₁ => exact (s₁.notes_settle s.phase).after hremarks.phaseEvents

/-! ## Operations -/

/-- What an operation without failure does to the phase, and what it tells of it. -/
inductive TellsPhase (s s' : Session) : Prop where
  /-- No block was read, and the phase is the same. -/
  | kept (hphase : s'.phase = s.phase) (hevents : s'.phaseEvents = s.phaseEvents)
      (hread : s'.stats.blocksIn = s.stats.blocksIn)
  /-- A block was read and settled. -/
  | settled (hnotes : s.Notes s.phase s') (hread : s'.stats.blocksIn = s.stats.blocksIn + 1)
  /-- The archive holds no blocks. -/
  | empty (hnew : s.started = false) (hfinished : s'.finished = true)
      (hphase : s'.phase = .passthrough) (hevents : s'.phaseEvents = s.phaseEvents)
      (hread : s'.stats.blocksIn = s.stats.blocksIn)

theorem tellsPhase_stop (s : Session) : s.TellsPhase s.stop.2 :=
  .kept (congrArg View.phase s.view_stop) (phaseEvents_finish _) (blocksIn_finish _)

theorem tellsPhase_advance {s : Session} (hok : s.advance.1 = .ok ()) :
    s.TellsPhase s.advance.2 := by
  have hcount := s.blocksIn_advance
  have hreads := s.readsNext_advance
  generalize s.advance = result at hreads hok hcount
  cases hreads with
  | unread e => cases hok
  | exhausted reader hnext =>
    exact .kept (congrArg View.phase (view_endOfArchive _)) (phaseEvents_endOfArchive _)
      (blocksIn_endOfArchive _)
  | block block reader hnext =>
    have hsome : s.nextBlock? = some block := by rw [nextBlock?, hnext]
    have hphase : s.readBlock.2.phase = s.phase := congrArg View.phase s.view_readBlock
    have hnotes := (s.readBlock.2.settlesWork_processBlock block).notes
      (carried_remarks.handleBlock _ block) hok
    rw [hphase] at hnotes
    rw [hsome] at hcount
    exact .settled (hnotes.after s.remarks_readBlock.phaseEvents) hcount

theorem tellsPhase_start {s : Session} (hnew : s.started = false) (hok : s.start.1 = .ok ()) :
    s.TellsPhase s.start.2 := by
  have hreads := { s with started := true }.readsFirst_begin
  have hbegun := start_of_ok hnew hok
  rw [hbegun] at hok ⊢
  generalize { s with started := true }.begin = result at hreads hok
  cases hreads with
  | noHeader e => cases hok
  | noBlock header e => cases hok
  | refused header e => cases hok
  | empty header reader reader' s₁ hread hnext hw =>
    have hphase : s₁.phase = .passthrough :=
      (congrArg (fun result => result.2.phase) hw).symm.trans rfl
    have hevents : s₁.phaseEvents = s.phaseEvents :=
      (congrArg (fun result => result.2.phaseEvents) hw).symm.trans rfl
    have hcount : s₁.stats.blocksIn = s.stats.blocksIn :=
      (congrArg (fun result => result.2.stats.blocksIn) hw).symm.trans rfl
    have hwarned := s₁.remarks_warnEmpty.phaseEvents
    exact .empty hnew (finished_finish _) ((congrArg View.phase (view_finish _)).trans hphase)
      ((phaseEvents_finish _).trans (hwarned.trans hevents)) ((blocksIn_finish _).trans hcount)
  | root header block reader reader' hread hnext =>
    let s₁ : Session := { s with started := true, reader }
    have hphase : s₁.readBlock.2.phase = s.phase := congrArg View.phase s₁.view_readBlock
    have hevents : s₁.readBlock.2.phaseEvents = s.phaseEvents := s₁.remarks_readBlock.phaseEvents
    have hnotes := (s₁.readBlock.2.settlesWork_processRoot header block).notes
      (carried_remarks.handleRoot _ header block) hok
    have hsome : s₁.nextBlock? = some block := by rw [nextBlock?, hnext]
    have hcount := s₁.blocksIn_readBlock
    rw [hsome] at hcount
    rw [hphase] at hnotes
    exact .settled (hnotes.after hevents) ((blocksIn_processRoot _ header block).trans hcount)

theorem tellsPhase_operate {s : Session} (hf : s.finished = false) {op : Operation}
    (hok : s.outcome op = .ok ()) : s.TellsPhase (s.operate op).2 := by
  have hbegun : s.finished = true → s.started = true := by
    rw [hf]
    exact nofun
  have heffect := effect_operate hbegun op
  generalize s.operate op = after at heffect
  generalize s.outcome op = result at heffect hok
  cases heffect with
  | idle => exact .kept rfl rfl rfl
  | cancelled => exact .kept rfl rfl rfl
  | stopped hf hc =>
    rw [step_eq_stop hf hc]
    exact s.tellsPhase_stop
  | opened hf hop => exact tellsPhase_start hop.1 hok
  | advanced hf hc hs =>
    rw [step_of_started hf hc hs, map_concluded] at hok
    rw [step_of_started hf hc hs, concluded_of_ok hok]
    exact tellsPhase_advance hok

/-- What holds of a session as long as no operation on it fails.  The changes of its phase were told
of, unless it has ended on an archive without blocks. -/
structure PhasesTold (s : Session) (entries : List Handled) : Prop where
  counted : s.stats.blocksIn = entries.length
  silent : s.stats.blocksIn = 0 → s.phaseEvents = []
  told : Traces .awaitingStructure s.phaseEvents s.phase ∨
    s.finished = true ∧ s.phase = .passthrough ∧ s.stats.blocksIn = 0

/-- A finished session may still be cancelled. -/
theorem operate_finished {s : Session} (hf : s.finished = true) (hs : s.started = true)
    (op : Operation) : ∃ c, (s.operate op).2 = { s with cancelRequested := c } := by
  have heffect := effect_operate (fun _ => hs) op
  generalize s.operate op = after at heffect
  generalize s.outcome op = result at heffect
  cases heffect with
  | idle => exact ⟨s.cancelRequested, rfl⟩
  | cancelled => exact ⟨true, rfl⟩
  | stopped hunfinished | opened hunfinished | advanced hunfinished =>
    rw [hf] at hunfinished
    cases hunfinished

theorem PhasesTold.operate {v₀ : View} {s : Session} {entries : List Handled}
    (hs : Steady v₀ s entries) (h : s.PhasesTold entries) {op : Operation}
    (hok : s.outcome op = .ok ()) :
    (s.operate op).2.PhasesTold (entries ++ (s.operate op).1) := by
  have hcounted : (s.operate op).2.stats.blocksIn = (entries ++ (s.operate op).1).length := by
    rw [blocksIn_operate, h.counted, List.length_append]
  cases hf : s.finished with
  | true =>
    obtain ⟨c, hafter⟩ := operate_finished hf (hs.begun hf) op
    refine ⟨hcounted, ?_, ?_⟩
    · rw [hafter]
      exact h.silent
    · rw [hafter]
      exact h.told
  | false =>
    have htraces : Traces .awaitingStructure s.phaseEvents s.phase := by
      refine h.told.resolve_right fun hempty => ?_
      rw [hf] at hempty
      cases hempty.1
    cases tellsPhase_operate hf hok with
    | kept hphase hevents hread =>
      refine ⟨hcounted, fun hnone => hevents.trans (h.silent (hread.symm.trans hnone)), Or.inl ?_⟩
      rw [hphase, hevents]
      exact htraces
    | settled hnotes hread =>
      refine ⟨hcounted, fun hnone => ?_, Or.inl (hnotes.traces htraces)⟩
      rw [hread] at hnone
      cases hnone
    | empty hnew hfinished hphase hevents hread =>
      have hnone : s.stats.blocksIn = 0 := by
        rw [h.counted, (hs.view_of_not_started hf hnew).1, List.length_nil]
      exact ⟨hcounted, fun _ => hevents.trans (h.silent hnone),
        Or.inr ⟨hfinished, hphase, hread.trans hnone⟩⟩

theorem phasesTold_serveAll (source : Source) (sink : Sink) (request : ByteRange)
    (options : ReaderOptions) (retains : Bool) (demands : List Demand) :
    let s := new source sink request options retains
    (∀ reply ∈ (s.serveAll demands).1, reply.error? = none) →
      (s.serveAll demands).2.PhasesTold (s.accountAll demands) := by
  intro s hnone
  have hnew : Steady s.view s [] := steady_new source sink request options retains
  have hinitial : s.view.Initial := initial_new source sink request options retains
  obtain ⟨ops, hsucceeds, hperform⟩ := exists_succeeds_of_serveAll hnone
  have hrow : (s.perform ops).2.PhasesTold ([] ++ (s.perform ops).1) :=
    hnew.keeps hinitial (P := PhasesTold) (fun hs h op => h.operate hs)
      ⟨rfl, fun _ => rfl, Or.inl .nil⟩ hsucceeds
  rw [hperform] at hrow
  exact hrow

/-- Whatever a source holds: behind a row of demands of which none fails, the events of changes of
phase lead from the first phase to the phase of the session, and so there are none only in the
first phase.  This is so exactly if the session is not one that passes through an archive without
blocks.  Of that no event tells. -/
theorem phase_changes_are_told_unless_empty (source : Source) (sink : Sink) (request : ByteRange)
    (options : ReaderOptions) (retains : Bool) (demands : List Demand)
    (hnone : ∀ reply ∈ ((new source sink request options retains).serveAll demands).1,
      reply.error? = none) :
    let s := ((new source sink request options retains).serveAll demands).2
    (Traces .awaitingStructure s.phaseEvents s.phase ↔
        ¬(s.phase = .passthrough ∧ s.stats.blocksIn = 0)) ∧
      (s.stats.blocksIn = 0 → s.phaseEvents = []) := by
  intro s
  have htold : s.PhasesTold _ :=
    phasesTold_serveAll source sink request options retains demands hnone
  refine ⟨⟨?_, fun hnot => htold.told.resolve_right fun hempty => hnot hempty.2⟩, htold.silent⟩
  rintro htraces ⟨hphase, hempty⟩
  rw [htold.silent hempty] at htraces
  have hfirst := htraces.eq_of_nil
  rw [hphase] at hfirst
  cases hfirst

/-- The first block is not the root that the header names. -/
theorem phase_change_told_of_foreign_root :
    let body := Header.encodeBody [[0x01, 0x70, 0x00, 0x00]] 1
    let header : Bytes := UInt8.ofNat body.length :: body
    let source := Source.ofMemory (header ++ [0x06, 0x01, 0x55, 0x00, 0x00, 0x61, 0x62]) 0
    let row := (new source .unlimited (.openEnded 0) {} false).serveAll [.step, .step]
    (∀ reply ∈ row.1, reply.error? = none) ∧ row.2.phaseEvents.length = 1 ∧
      Traces .awaitingStructure row.2.phaseEvents .passthrough := by
  intro body header source row
  have hnone : ∀ reply ∈ row.1, reply.error? = none := by decide +kernel
  have hphase : row.2.phase = .passthrough := by decide +kernel
  have hread : row.2.stats.blocksIn ≠ 0 := by decide +kernel
  have htold := (phase_changes_are_told_unless_empty source .unlimited (.openEnded 0) {} false
    [.step, .step] hnone).1.2 fun hempty => hread hempty.2
  rw [hphase] at htold
  exact ⟨hnone, by decide +kernel, htold⟩

/-- A header with nothing behind it. -/
theorem empty_archive_changes_phase_untold :
    let body := Header.encodeBody [[0x01, 0x70, 0x00, 0x00]] 1
    let header : Bytes := UInt8.ofNat body.length :: body
    let row := (new (.ofMemory header 0) .unlimited (.openEnded 0) {} false).serveAll [.step]
    (∀ reply ∈ row.1, reply.error? = none) ∧ row.2.phase = .passthrough ∧
      row.2.phaseEvents = [] ∧ ¬Traces .awaitingStructure row.2.phaseEvents row.2.phase := by
  intro body header row
  have hphase : row.2.phase = .passthrough := by decide +kernel
  have hnothing : row.2.phaseEvents = [] := by decide +kernel
  refine ⟨by decide +kernel, hphase, hnothing, fun htraces => ?_⟩
  rw [hnothing, hphase] at htraces
  cases htraces.eq_of_nil

end Session

end CarSlice
