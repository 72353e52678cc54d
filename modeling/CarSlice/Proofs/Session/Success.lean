import CarSlice.Proofs.Session.Operations

/-!
# Operations without failure

Of an operation that does not fail, more is known than what becomes of the view: where the
reader stands, whether the source was closed, and what the counts say of the end.

* `Settled` is a session that has handled a block, `Exhausted` one that came to the end of
  its archive, and `Stopped` one that ended because it was cancelled.
* `Begins` and `Advances` list what a start and a step can do without failure (`start_begins`,
  `step_advances`), and `Success` lists it for every operation (`Steady.success`).
* `Steady` adds to `Sound` that a session that goes on says nothing of its end yet
  (`Steady.perform`).
-/

namespace CarSlice

open Archive (Block Header Reader ReaderOptions)

namespace Session

/-! ## Ends -/

/-- A session whose counts say how its selection ended. -/
structure Reports (s : Session) : Prop where
  phase : s.stats.phase = s.phase
  lateMismatch : s.stats.lateMismatch = s.selection.any (·.lateMismatch)

theorem ending_flush (s : Session) : s.flush.2.ending = s.ending := by
  unfold flush
  split <;> rfl

theorem ending_releaseSource (s : Session) :
    s.releaseSource.ending =
      { s.ending with
        sourceClosed := s.stats.sourceClosed || (s.stats.cancelled || s.phase == .satisfied) } := by
  unfold releaseSource
  split
  · next h => simp [ending, h]
  · next h =>
    have h : (s.stats.cancelled || s.phase == .satisfied) = false := by simpa using h
    simp [ending, h]

theorem ending_finish (s : Session) : s.finish.2.ending = s.releaseSource.ending := by
  rw [finish_keeps ending (fun _ => rfl), ending_flush, ending_releaseSource, ending_releaseSource]
  rfl

/-- What an end leaves that does not fail. -/
structure Closes (s s' : Session) : Prop where
  reader : s'.reader = s.releaseSource.reader
  ending : s'.ending = s.releaseSource.ending
  reports : s'.Reports

theorem reports_reported (s : Session) : s.reported.Reports :=
  ⟨rfl, rfl⟩

theorem finish_of_ok {s : Session} (h : s.finish.1 = .ok ()) : s.Closes s.finish.2 := by
  refine ⟨s.reader_finish, s.ending_finish, ?_⟩
  have hfinishes := s.finishesAs_finish
  generalize s.finish = result at hfinishes h
  cases hfinishes with
  | refused => cases h
  | flushed s₁ => exact s₁.reports_reported

/-! ## Blocks -/

/-- A block on which the session does not fail was written. -/
theorem View.Emits.of_not_failed {w v' : View} {block : Block} {fate : Fate}
    (h : w.Emits block fate v') (hfate : fate ≠ .failed) :
    fate = .written ∧ v' = (w.writeBlock block).noteComplete := by
  cases h with
  | written => exact ⟨rfl, rfl⟩
  | refused => exact absurd rfl hfate

/-- A root on which the session does not fail was written behind the header. -/
theorem View.RootTurn.of_not_failed {v v' : View} {header : Header} {block : Block} {fate : Fate}
    (h : v.RootTurn header block fate v') (hfate : fate ≠ .failed) :
    ∃ w, v.Chosen header block w ∧ fate = .written ∧
      v' = ((w.writeHeader header).writeBlock block).noteComplete := by
  cases h with
  | outside => exact absurd rfl hfate
  | refused => exact absurd rfl hfate
  | emitted w _ _ hw hemits =>
    obtain ⟨hwritten, hv'⟩ := hemits.of_not_failed hfate
    exact ⟨w, hw, hwritten, hv'⟩

/-! ## Behind a block -/

/-- What a session leaves that has handled a block without failure: it is satisfied and has
closed its source, or it goes on. -/
structure Settled (s : Session) (reader : Reader) (s' : Session) : Prop
    extends s'.Handles reader where
  ending : s'.ending =
    { s.ending with sourceClosed := s.ending.sourceClosed || s'.finished }
  reports : s'.finished = true → s'.Reports

theorem settle_of_ok {s : Session} {before : Phase} (hf : s.finished = false)
    (h : (s.settle before).1 = .ok ()) : s.Settled s.reader (s.settle before).2 := by
  have hhandles : (s.settle before).2.Handles s.reader := by
    rcases s.settle_cases before hf with ⟨-, hhandles⟩ | ⟨⟨e, herror⟩, -⟩
    · exact hhandles
    · rw [h] at herror
      cases herror
  have hkeeps := s.keeps_noted before
  have hsettles := s.settlesAs_settle before
  generalize s.settle before = result at hsettles h hhandles
  cases hsettles with
  | ended hsatisfied =>
    have hcloses := finish_of_ok h
    refine ⟨hhandles, ?_, fun _ => hcloses.reports⟩
    rw [hcloses.ending, ending_releaseSource, hsatisfied, finished_finish, hkeeps.ending]
    simp
  | goesOn =>
    have hgoes : (s.noteComplete.notePhase before).finished = false := hkeeps.finished.trans hf
    refine ⟨hhandles, ?_, fun hfinished => ?_⟩
    · rw [hkeeps.ending, hgoes, Bool.or_false]
    · rw [hgoes] at hfinished
      cases hfinished

theorem Settled.of_ending {s s₁ s' : Session} {reader : Reader} (h : s₁.Settled reader s')
    (hending : s₁.ending = s.ending) : s.Settled reader s' :=
  ⟨h.toHandles, by rw [h.ending, hending], h.reports⟩

theorem SettlesWork.settled_of_ok {s : Session} {work result : Except Error Unit × Session}
    (h : s.SettlesWork work result) (hkeeps : s.Keeps work.2) (hf : s.finished = false)
    (hok : result.1 = .ok ()) : s.Settled s.reader result.2 := by
  cases h with
  | failed e s₁ => cases hok
  | settled s₁ =>
    rw [← hkeeps.reader]
    exact (settle_of_ok (hkeeps.finished.trans hf) hok).of_ending hkeeps.ending

/-- A session that stands in its archive where a reader does. Its source may be closed. -/
structure StandsAt (s : Session) (reader : Reader) : Prop where
  unread : s.source.unread = reader.source.unread
  position : s.source.position = reader.source.position
  header : s.reader.header = reader.header
  options : s.reader.options = reader.options

theorem standsAt_of_eq {s : Session} {reader : Reader} (h : s.reader = reader) :
    s.StandsAt reader := by
  subst h
  exact ⟨rfl, rfl, rfl, rfl⟩

theorem Handles.standsAt {s : Session} {reader : Reader} (h : s.Handles reader) :
    s.StandsAt reader := by
  have hreader := h.reader
  split_ifs at hreader
  · refine ⟨?_, ?_, by rw [hreader], by rw [hreader]⟩
    · rw [source, hreader]
      rfl
    · rw [source, hreader]
      rfl
  · exact standsAt_of_eq hreader

/-! ## At the end of the archive -/

/-- What a session leaves that has come to the end of its archive without failure. -/
structure Exhausted (s : Session) (reader : Reader) (incomplete : Bool) (s' : Session) : Prop where
  finished : s'.finished = true
  reader : s'.reader = reader
  ending : s'.ending = { s.ending with incompleteFile := s.ending.incompleteFile || incomplete }
  reports : s'.Reports

theorem exhausted_finish {s : Session} (hcancelled : s.stats.cancelled = false)
    (hphase : s.phase ≠ .satisfied) (h : s.finish.1 = .ok ()) :
    s.Exhausted s.reader false s.finish.2 := by
  have hcloses := finish_of_ok h
  have hkept : s.releaseSource = s := by
    simp [releaseSource, hcancelled, hphase]
  refine ⟨s.finished_finish, ?_, ?_, hcloses.reports⟩
  · rw [hcloses.reader, hkept]
  · rw [hcloses.ending, hkept, Bool.or_false]

theorem endOfArchive_of_ok {s : Session} (hcancelled : s.stats.cancelled = false)
    (hphase : s.phase ≠ .satisfied) (h : s.endOfArchive.1 = .ok ()) :
    s.Exhausted s.reader (s.phase != .passthrough && s.layout.isIncomplete) s.endOfArchive.2 := by
  have hends := s.endsArchive_endOfArchive
  generalize s.endOfArchive = result at hends h ⊢
  cases hends with
  | incomplete hopen hincomplete =>
    have hexhausted := exhausted_finish
      (s := { s with stats := { s.stats with incompleteFile := true } }.warnIncomplete)
      hcancelled hphase h
    have htrue : (s.phase != .passthrough && s.layout.isIncomplete) = true := by
      simp [hopen, hincomplete]
    rw [htrue]
    refine ⟨hexhausted.finished, hexhausted.reader, ?_, hexhausted.reports⟩
    rw [hexhausted.ending]
    simp [ending, warnIncomplete, publish]
  | complete hcomplete =>
    have hfalse : (s.phase != .passthrough && s.layout.isIncomplete) = false := by
      simpa using hcomplete
    rw [hfalse]
    exact exhausted_finish hcancelled hphase h

/-! ## Steps -/

/-- What the beginning of a session can do without failure, with the block that it handles. -/
inductive Begins (s : Session) : List Handled → Session → Prop where
  | root (header : Header) (block : Block) (fate : Fate) (reader reader' : Reader) (s' : Session)
      (hread : s.reader.readHeader = (.ok header, reader))
      (hnext : reader.next = (.ok (some block), reader'))
      (hturn : View.RootTurn { s.view with started := true } header block fate s'.view)
      (hfate : fate ≠ .failed) (h : s.Settled reader' s') :
      Begins s [⟨block, some (s.view.placeRoot header block).1, fate⟩] s'
  /-- The archive holds no blocks. -/
  | empty (header : Header) (selection : Selection) (reader reader' : Reader) (s' : Session)
      (hread : s.reader.readHeader = (.ok header, reader))
      (hnext : reader.next = (.ok none, reader')) (hphase : selection.phase = .passthrough)
      (hview : s'.view =
        View.writeHeader { s.view with started := true, selection := some selection } header)
      (h : s.Exhausted reader' false s') : Begins s [] s'

/-- What a step behind the root can do without failure, with the block that it handles. -/
inductive Advances (s : Session) : List Handled → Session → Prop where
  | block (block : Block) (fate : Fate) (reader : Reader) (s' : Session)
      (hnext : s.reader.next = (.ok (some block), reader))
      (hturn : s.view.Turn block (s.view.placementOf? block) fate s'.view)
      (hfate : fate ≠ .failed) (h : s.Settled reader s') :
      Advances s [⟨block, s.view.placementOf? block, fate⟩] s'
  | exhausted (reader : Reader) (s' : Session) (hnext : s.reader.next = (.ok none, reader))
      (hview : s'.view = s.view)
      (h : s.Exhausted reader (s.phase != .passthrough && s.layout.isIncomplete) s') :
      Advances s [] s'

theorem View.Ready.not_satisfied {v : View} (h : v.Ready) : v.phase ≠ .satisfied := by
  rcases h.selection with ⟨selection, hselection, hphase⟩
  intro hsatisfied
  rw [View.phase, hselection] at hsatisfied
  have hsatisfied : selection.phase = .satisfied := hsatisfied
  simp [hsatisfied, Phase.isOpen] at hphase

theorem Settles.of_ok {way : Fate → View → Prop} {reader : Reader}
    {result : Except Error Unit × Session} (h : Settles way reader result)
    (hok : result.1 = .ok ()) : ∃ fate, way fate result.2.view ∧ fate ≠ .failed := by
  cases h with
  | handled s' fate hway hfate => exact ⟨fate, hway, hfate⟩
  | failed e => cases hok

theorem ending_readBlock (s : Session) : s.readBlock.2.ending = s.ending := by
  obtain ⟨blocksIn, said, hread⟩ := s.readBlock_eq
  rw [hread]
  rfl

theorem step_advances {s : Session} (hf : s.finished = false) (hc : s.cancelRequested = false)
    (hready : s.view.Ready) (hcancelled : s.stats.cancelled = false)
    (hok : (s.step.1.map fun _ => ()) = .ok ()) : s.Advances s.handled s.step.2 := by
  have hs : s.started = true := hready.started
  have hstep := step_of_started hf hc hs
  rw [hstep, map_concluded] at hok
  have hafter : s.step.2 = s.advance.2 := by rw [hstep, concluded_of_ok hok]
  have hsettles := fun (block : Block) (hsome : s.nextBlock? = some block) =>
    advance_of_some hf hready hsome
  have hreads := s.readsNext_advance
  rw [hafter]
  generalize s.advance = result at hreads hok hsettles hafter
  cases hreads with
  | unread e => cases hok
  | exhausted reader hnext =>
    have hnone : s.handled = [] := by
      simp [handled, incoming?, hf, hc, hs, nextBlock?, hnext]
    have hexhausted := endOfArchive_of_ok (s := { s with reader }) hcancelled
      hready.not_satisfied hok
    rw [hnone]
    exact .exhausted reader _ hnext (view_endOfArchive _) ⟨hexhausted.finished,
      hexhausted.reader, hexhausted.ending, hexhausted.reports⟩
  | block block reader hnext =>
    have hsome : s.nextBlock? = some block := by rw [nextBlock?, hnext]
    obtain ⟨fate, hturn, hfate⟩ := (hsettles block hsome).of_ok hok
    have hsettled := (s.readBlock.2.settlesWork_processBlock block).settled_of_ok
      (keeps_handleBlock _ block) (s.finished_readBlock.trans hf) hok
    rw [reader_readBlock, hnext] at hsettled
    have hbetween : Fate.between s.view s.step.2.view = fate := by
      rw [hafter]
      exact hturn.between
    have hhandled : s.handled = [⟨block, s.view.placementOf? block, fate⟩] := by
      simp [handled, incoming?, hf, hc, hs, hsome, hbetween]
    rw [hhandled]
    exact .block block fate reader _ hnext hturn hfate (hsettled.of_ending s.ending_readBlock)

/-- An archive without blocks is passed through. -/
theorem passThrough_of_ok {s s₁ : Session} {header : Header}
    (hheader : s.view.headerWritten = false) (hcancelled : s.stats.cancelled = false)
    (hw : s.passThrough.writeHeader header = (.ok (), s₁))
    (hok : s₁.warnEmpty.finish.1 = .ok ()) :
    (∃ selection : Selection, selection.phase = .passthrough ∧
        s₁.warnEmpty.finish.2.view =
          View.writeHeader { s.view with selection := some selection } header) ∧
      s.Exhausted s.reader false s₁.warnEmpty.finish.2 := by
  have hview : s₁.view = s.passThrough.view.writeHeader header := view_of_writeHeader hheader hw
  have hkeeps := s.passThrough.keeps_writeHeader header
  rw [hw] at hkeeps
  have hending : s₁.ending = s.ending := hkeeps.ending
  have hphase : s₁.phase = .passthrough := by
    rw [← phase_view, hview]
    rfl
  have hexhausted := exhausted_finish (s := s₁.warnEmpty)
    ((congrArg Ending.cancelled hending).trans hcancelled)
    (show s₁.phase ≠ .satisfied by simp [hphase]) hok
  refine ⟨⟨(Selection.ofRange 0 0 none).passThrough, rfl, ?_⟩, hexhausted.finished,
    hexhausted.reader.trans hkeeps.reader, hexhausted.ending.trans ?_, hexhausted.reports⟩
  · rw [view_finish]
    exact hview
  · show { s₁.ending with incompleteFile := s₁.ending.incompleteFile || false } = _
    rw [hending]

theorem start_begins {s : Session} (hf : s.finished = false) (hs : s.started = false)
    (hheader : s.view.headerWritten = false) (hcancelled : s.stats.cancelled = false)
    (hok : s.start.1 = .ok ()) : s.Begins s.opening s.start.2 := by
  have hafter := start_of_ok hs hok
  rw [hafter] at hok
  have hsettles := fun (header : Header) (block : Block)
      (hfirst : s.firstBlock? = some (header, block)) =>
    begin_of_some (s := { s with started := true }) hf hheader hfirst
  have hreads := { s with started := true }.readsFirst_begin
  rw [hafter]
  generalize { s with started := true }.begin = result at hreads hok hsettles hafter
  cases hreads with
  | noHeader e => cases hok
  | noBlock header e => cases hok
  | refused header e => cases hok
  | empty header reader reader' s₁ hread hnext hw =>
    have hnone : s.opening = [] := by
      have hread : s.reader.readHeader = (.ok header, reader) := hread
      simp [opening, hs, firstBlock?, hread, nextBlock?, hnext]
    obtain ⟨⟨selection, hphase, hview⟩, hexhausted⟩ :=
      passThrough_of_ok (s := { s with started := true, reader := reader' }) hheader hcancelled
        hw hok
    rw [hnone]
    exact .empty header selection reader reader' _ hread hnext hphase hview
      ⟨hexhausted.finished, hexhausted.reader, hexhausted.ending, hexhausted.reports⟩
  | root header block reader reader' hread hnext =>
    have hfirst : s.firstBlock? = some (header, block) := by
      have hread : s.reader.readHeader = (.ok header, reader) := hread
      simp [firstBlock?, hread, nextBlock?, hnext]
    obtain ⟨fate, hturn, hfate⟩ := (hsettles header block hfirst).of_ok hok
    let s₁ : Session := { s with started := true, reader }
    have hsettled := (s₁.readBlock.2.settlesWork_processRoot header block).settled_of_ok
      (keeps_handleRoot _ header block) (s₁.finished_readBlock.trans hf) hok
    rw [reader_readBlock, hnext] at hsettled
    have hbetween : Fate.between s.view s.start.2.view = fate := by
      rw [hafter]
      exact hturn.between
    have hopening : s.opening = [⟨block, some (s.view.placeRoot header block).1, fate⟩] := by
      simp [opening, hs, hfirst, hbetween]
      rfl
    rw [hopening]
    exact .root header block fate reader reader' _ hread hnext hturn hfate
      (hsettled.of_ending (ending_readBlock { s with started := true, reader }))

/-! ## Operations -/

/-- What a session leaves that ended because it was cancelled. -/
structure Stopped (s s' : Session) : Prop where
  finished : s'.finished = true
  view : s'.view = { s.view with started := true }
  reader : s'.reader = s.closeSource.reader
  ending : s'.ending = { s.ending with cancelled := true, sourceClosed := true }
  reports : s'.Reports

/-- What an operation can do without failure. -/
inductive Success (s : Session) (op : Operation) : List Handled × Session → Prop where
  | idle : Success s op ([], s)
  | cancelled (hop : op = .call .cancel) : Success s op ([], s.cancel)
  | stopped (s' : Session) (hf : s.finished = false) (hc : s.cancelRequested = true)
      (h : s.Stopped s') : Success s op ([], s')
  | begins (entries : List Handled) (s' : Session) (hf : s.finished = false)
      (hs : s.started = false) (h : s.Begins entries s') : Success s op (entries, s')
  | advances (entries : List Handled) (s' : Session) (hf : s.finished = false)
      (hready : s.view.Ready) (h : s.Advances entries s') : Success s op (entries, s')

theorem step_stopped {s : Session} (hf : s.finished = false) (hc : s.cancelRequested = true)
    (hok : (s.step.1.map fun _ => ()) = .ok ()) : s.Stopped s.step.2 := by
  obtain ⟨-, hview, hfinished⟩ := step_of_cancelled hf hc
  have hstep : s.step.2 = s.stop.2 ∧ s.stop.1 = .ok () := by
    simp only [step, hf, hc, Bool.false_eq_true, if_false, if_true] at hok ⊢
    split at hok
    · cases hok
    · next hstop =>
      rw [hstop]
      exact ⟨rfl, rfl⟩
  rcases hstep with ⟨hafter, hok⟩
  have hcloses := finish_of_ok hok
  have hreports : s.stop.2.Reports := hcloses.reports
  have hreader : s.stop.2.reader = s.closeSource.reader := by
    rw [stop, hcloses.reader, reader_releaseSource]
    rfl
  have hending : s.stop.2.ending = { s.ending with cancelled := true, sourceClosed := true } := by
    rw [stop, hcloses.ending, ending_releaseSource]
    simp [ending]
  exact ⟨hfinished, hview, hafter ▸ hreader, hafter ▸ hending, hafter ▸ hreports⟩

/-- What holds of a session that started with the view `v₀` and has handled `entries`.  As
long as it goes on, its counts say nothing of its end. -/
structure Steady (v₀ : View) (s : Session) (entries : List Handled) : Prop
    extends Sound v₀ s entries where
  silent : s.finished = false →
    s.ending = { cancelled := false, incompleteFile := false, sourceClosed := false }

theorem steady_new (source : Source) (sink : Sink) (request : ByteRange) (options : ReaderOptions)
    (retains : Bool) :
    Steady (new source sink request options retains).view
      (new source sink request options retains) [] :=
  ⟨sound_new source sink request options retains, fun _ => rfl⟩

section

variable {v₀ : View} (hv₀ : v₀.Initial) {s : Session} {entries : List Handled}
  (h : Steady v₀ s entries)

include hv₀ h

theorem Steady.success {op : Operation} (hok : s.outcome op = .ok ()) :
    s.Success op (s.operate op) := by
  have heffect := effect_operate h.begun op
  generalize s.operate op = after at heffect
  generalize s.outcome op = result at heffect hok
  cases heffect with
  | idle => exact .idle
  | cancelled hop => exact .cancelled hop
  | stopped hf hc =>
    rw [(step_of_cancelled hf hc).1]
    exact .stopped _ hf hc (step_stopped hf hc hok)
  | opened hf hop =>
    have hcancelled : s.stats.cancelled = false := congrArg Ending.cancelled (h.silent hf)
    exact .begins _ _ hf hop.1
      (start_begins hf hop.1 (h.not_headerWritten hv₀ hf hop.1) hcancelled hok)
  | advanced hf hc hs =>
    have hcancelled : s.stats.cancelled = false := congrArg Ending.cancelled (h.silent hf)
    have hready := h.ready hv₀ hf hs
    exact .advances _ _ hf hready (step_advances hf hc hready hcancelled hok)

omit hv₀ in
theorem Steady.finished_of_error {op : Operation} {e : Error} (he : s.outcome op = .error e) :
    (s.operate op).2.finished = true := by
  have heffect := effect_operate h.begun op
  generalize s.operate op = after at heffect
  generalize s.outcome op = result at heffect he
  cases heffect with
  | idle => cases he
  | cancelled => cases he
  | stopped hf hc => exact (step_of_cancelled hf hc).2.2
  | opened hf hop =>
    have hs := hop.1
    show s.start.2.finished = true
    rw [start_of_not_started hs] at he ⊢
    refine finished_concluded fun hok => ?_
    rw [hok] at he
    cases he
  | advanced hf hc hs =>
    show s.step.2.finished = true
    rw [step_of_started hf hc hs] at he ⊢
    rw [map_concluded] at he
    refine finished_concluded fun hok => ?_
    rw [hok] at he
    cases he

theorem Steady.operate (op : Operation) :
    Steady v₀ (s.operate op).2 (entries ++ (s.operate op).1) := by
  refine ⟨h.toSound.operate hv₀ op, fun hf' => ?_⟩
  cases houtcome : s.outcome op with
  | error e =>
    rw [h.finished_of_error houtcome] at hf'
    cases hf'
  | ok _ =>
    have hsuccess := h.success hv₀ houtcome
    generalize s.operate op = after at hsuccess hf'
    cases hsuccess with
    | idle => exact h.silent hf'
    | cancelled => exact h.silent hf'
    | stopped s' hf hc hstopped =>
      rw [hstopped.finished] at hf'
      cases hf'
    | begins entries' s' hf _ hbegins =>
      have hsilent := h.silent hf
      cases hbegins with
      | root _ _ _ _ _ _ _ _ _ _ hsettled =>
        rw [hsettled.ending, hf', hsilent]
        rfl
      | empty _ _ _ _ _ _ _ _ _ hexhausted =>
        rw [hexhausted.finished] at hf'
        cases hf'
    | advances entries' s' hf _ hadvances =>
      have hsilent := h.silent hf
      cases hadvances with
      | block _ _ _ _ _ _ _ hsettled =>
        rw [hsettled.ending, hf', hsilent]
        rfl
      | exhausted _ _ _ _ hexhausted =>
        rw [hexhausted.finished] at hf'
        cases hf'

theorem Steady.perform (ops : List Operation) :
    Steady v₀ (s.perform ops).2 (entries ++ (s.perform ops).1) :=
  keeps_perform (P := Steady v₀) (fun h op => h.operate hv₀ op) h ops

/-- What every operation keeps that does not fail holds behind a row of them. -/
theorem Steady.keeps {P : Session → List Handled → Prop}
    (hP : ∀ {s : Session} {entries : List Handled}, Steady v₀ s entries → P s entries →
      ∀ {op : Operation}, s.outcome op = .ok () → P (s.operate op).2 (entries ++ (s.operate op).1))
    (hp : P s entries) {ops : List Operation} (hok : s.Succeeds ops) :
    P (s.perform ops).2 (entries ++ (s.perform ops).1) := by
  induction ops generalizing s entries with
  | nil =>
    show P s (entries ++ [])
    rw [List.append_nil]
    exact hp
  | cons op ops ih =>
    show P ((s.operate op).2.perform ops).2
      (entries ++ ((s.operate op).1 ++ ((s.operate op).2.perform ops).1))
    rw [← List.append_assoc]
    exact ih (h.operate hv₀ op) (hP h hp hok.1) hok.2

theorem Steady.reports_operate {op : Operation} (hok : s.outcome op = .ok ())
    (hreports : s.finished = true → s.Reports) (hf' : (s.operate op).2.finished = true) :
    (s.operate op).2.Reports := by
  have hsuccess := h.success hv₀ hok
  generalize s.operate op = after at hsuccess hf'
  cases hsuccess with
  | idle => exact hreports hf'
  | cancelled => exact ⟨(hreports hf').phase, (hreports hf').lateMismatch⟩
  | stopped s' _ _ hstopped => exact hstopped.reports
  | begins _ s' _ _ hbegins =>
    cases hbegins with
    | root _ _ _ _ _ _ _ _ _ _ hsettled => exact hsettled.reports hf'
    | empty _ _ _ _ _ _ _ _ _ hexhausted => exact hexhausted.reports
  | advances _ s' _ _ hadvances =>
    cases hadvances with
    | block _ _ _ _ _ _ _ hsettled => exact hsettled.reports hf'
    | exhausted _ _ _ _ hexhausted => exact hexhausted.reports

/-- The counts of a session that has ended without failure say how its selection ended. -/
theorem Steady.reports {ops : List Operation} (hok : s.Succeeds ops)
    (hreports : s.finished = true → s.Reports) (hf' : (s.perform ops).2.finished = true) :
    (s.perform ops).2.Reports := by
  induction ops generalizing s entries with
  | nil => exact hreports hf'
  | cons op ops ih =>
    exact ih (h.operate hv₀ op) hok.2 (h.reports_operate hv₀ hok.1 hreports) hf'

end

end Session

end CarSlice
