import CarSlice.Proofs.Selection.Offsets
import CarSlice.Proofs.Sink
import CarSlice.Session.Run

/-!
# What a session decides on

Most of what a session does leaves alone what it will decide next: it says something,
closes its source, flushes its sink.  `Session.View` holds the rest, the request with the
layout and the selection, and the counts and writes of the blocks.  So each function of
a session has one lemma that says what it makes of the view.

* The functions around a block (`finish`, `notePhase`, `fail`, `readBlock`) keep the
  view.
* `Wrote` says what `writeHeader` and `writeBlock` do to it: they write, or keep it if
  the sink refuses.
* `settle_cases` says what the end of a block does to the reader.
-/

namespace CarSlice

open Archive (Block Header Reader Writer)

/-! ## The view -/

/-- What a session decides on and what came of it. -/
structure Session.View where
  request : ByteRange
  layout : Layout
  selection : Option Selection
  resolvedEnd : Option Nat
  blocksOut : Nat
  blocksDiscarded : Nat
  headerWritten : Bool
  /-- Whether the sink takes everything from now on. -/
  accepts : Bool
  /-- The writes that the sink took, the last one first. -/
  taken : List Bytes
  started : Bool
  cancelRequested : Bool

namespace Session

/-- The view of a session. -/
def view (s : Session) : View :=
  { request := s.request
    layout := s.layout
    selection := s.selection
    resolvedEnd := s.resolvedEnd
    blocksOut := s.stats.blocksOut
    blocksDiscarded := s.stats.blocksDiscarded
    headerWritten := s.writer.headerWritten
    accepts := s.writer.sink.acceptsAll
    taken := s.writer.sink.taken
    started := s.started
    cancelRequested := s.cancelRequested }

namespace View

/-- Where the selection stands. -/
def phase (v : View) : Phase :=
  match v.selection with
  | some selection => selection.phase
  | none => .awaitingStructure

/-- The view after a write of a block. -/
def writeBlock (v : View) (block : Block) : View :=
  { v with blocksOut := v.blocksOut + 1, taken := block.frame :: v.taken }

/-- The view after the write of the header. -/
def writeHeader (v : View) (header : Header) : View :=
  { v with headerWritten := true, taken := header.frame :: v.taken }

/-- The view after a block was dropped. -/
def dropBlock (v : View) : View :=
  { v with blocksDiscarded := v.blocksDiscarded + 1 }

/-- The view after a complete file was noticed. -/
def noteComplete (v : View) : View :=
  { v with
    selection := if v.layout.isComplete then v.selection.map (·.fileComplete) else v.selection }

end View

@[simp] theorem phase_view (s : Session) : s.view.phase = s.phase := rfl

/-- A complete file either satisfies the selection or changes nothing. -/
theorem View.selection_noteComplete {v : View} (h : v.noteComplete.phase ≠ .satisfied) :
    v.noteComplete.selection = v.selection := by
  by_cases hcomplete : v.layout.isComplete = true
  · cases hselection : v.selection with
    | none => simp [noteComplete, hcomplete, hselection]
    | some selection =>
      by_cases hphase : selection.phase = .passthrough
      · simp [noteComplete, hcomplete, hselection, Selection.fileComplete, hphase]
      · simp [phase, noteComplete, hcomplete, hselection, Selection.fileComplete, hphase] at h
  · simp [noteComplete, hcomplete]

/-! ## What keeps the view -/

theorem view_releaseSource (s : Session) : s.releaseSource.view = s.view := by
  unfold releaseSource
  split <;> rfl

theorem view_flush (s : Session) : s.flush.2.view = s.view := by
  unfold flush
  split
  · rcases s.writer.sink.flush_keeps with ⟨htaken, haccepts⟩
    simp [Writer.flush, view, htaken, haccepts]
  · rfl

@[simp] theorem view_finish (s : Session) : s.finish.2.view = s.view :=
  (finish_keeps view (fun _ => rfl) s).trans ((view_flush _).trans (view_releaseSource _))

@[simp] theorem view_notePhase (s : Session) (before : Phase) :
    (s.notePhase before).view = s.view := by
  unfold notePhase
  split <;> rfl

theorem view_noteComplete (s : Session) : s.noteComplete.view = s.view.noteComplete := by
  unfold noteComplete View.noteComplete
  split <;> simp_all [view]

theorem view_noted (s : Session) (before : Phase) :
    (s.noteComplete.notePhase before).view = s.view.noteComplete := by
  rw [view_notePhase, view_noteComplete]

@[simp] theorem view_settle (s : Session) (before : Phase) :
    (s.settle before).2.view = s.view.noteComplete := by
  have hsettles := s.settlesAs_settle before
  generalize s.settle before = result at hsettles
  cases hsettles with
  | ended => rw [view_finish, view_noted]
  | goesOn => exact s.view_noted before

theorem view_warnOfMismatch (s : Session) (placement : Placement) :
    (s.warnOfMismatch placement).view = s.view := by
  unfold warnOfMismatch
  split
  · split <;> rfl
  · rfl

theorem view_readBlock (s : Session) : s.readBlock.2.view = s.view := by
  obtain ⟨blocksIn, said, hread⟩ := s.readBlock_eq
  rw [hread]
  rfl

theorem view_endOfArchive (s : Session) : s.endOfArchive.2.view = s.view := by
  have hends := s.endsArchive_endOfArchive
  generalize s.endOfArchive = result at hends
  cases hends with
  | incomplete => exact view_finish _
  | complete => exact s.view_finish

theorem view_stop (s : Session) : s.stop.2.view = { s.view with started := true } :=
  view_finish _

theorem finished_stop (s : Session) : s.stop.2.finished = true :=
  finished_finish _

/-! ## Writes -/

/-- What a write does: it goes through, or the sink refuses it and nothing changes. -/
def Wrote (before after : View) (result : Except Error Unit × Session) : Prop :=
  result.1 = .ok () ∧ result.2.view = after ∨
    (∃ e, result.1 = .error e) ∧ before.accepts = false ∧ result.2.view = before

/-- The first write of a header can only be refused by the sink. -/
theorem wrote_writeHeader (s : Session) (header : Header) (h : s.writer.headerWritten = false) :
    Wrote s.view (s.view.writeHeader header) (s.writeHeader header) := by
  cases hw : s.writer.sink.write header.frame with
  | mk result sink =>
    cases result with
    | ok _ =>
      obtain rfl := Sink.write_of_ok hw
      left
      simp [writeHeader, Writer.writeHeader, Writer.emit, h, hw, view, View.writeHeader]
    | error e =>
      obtain ⟨htaken, hbefore, hafter⟩ := Sink.write_of_error hw
      right
      simp [writeHeader, Writer.writeHeader, Writer.emit, h, hw, view, htaken, hbefore, hafter]

theorem view_of_writeHeader {s s₁ : Session} {header : Header}
    (h : s.view.headerWritten = false) (hw : s.writeHeader header = (.ok (), s₁)) :
    s₁.view = s.view.writeHeader header := by
  have hwrote := s.wrote_writeHeader header h
  rw [hw] at hwrote
  rcases hwrote with ⟨-, hview⟩ | ⟨⟨e, he⟩, -⟩
  · exact hview
  · cases he

theorem refused_of_writeHeader {s s₁ : Session} {header : Header} {e : Error}
    (h : s.view.headerWritten = false) (hw : s.writeHeader header = (.error e, s₁)) :
    s.view.accepts = false ∧ s₁.view = s.view := by
  have hwrote := s.wrote_writeHeader header h
  rw [hw] at hwrote
  rcases hwrote with ⟨hok, -⟩ | ⟨-, haccepts, hview⟩
  · cases hok
  · exact ⟨haccepts, hview⟩

/-- Behind the header, a block can only be refused by the sink. -/
theorem wrote_writeBlock (s : Session) (block : Block) (h : s.writer.headerWritten = true) :
    Wrote s.view (s.view.writeBlock block) (s.writeBlock block) := by
  cases hw : s.writer.sink.write block.frame with
  | mk result sink =>
    cases result with
    | ok _ =>
      obtain rfl := Sink.write_of_ok hw
      left
      simp [writeBlock, Writer.writeBlock, Writer.emit, h, hw, view, View.writeBlock]
    | error e =>
      obtain ⟨htaken, hbefore, hafter⟩ := Sink.write_of_error hw
      right
      simp [writeBlock, Writer.writeBlock, Writer.emit, h, hw, view, htaken, hbefore, hafter]

/-! ## What does not write -/

theorem writer_readBlock (s : Session) : s.readBlock.2.writer = s.writer := by
  obtain ⟨blocksIn, said, hread⟩ := s.readBlock_eq
  rw [hread]

theorem carried_writer : Carried fun s s' => s'.writer = s.writer where
  trans first second := second.trans first
  selects _ _ _ _ := rfl
  drops _ _ := rfl
  warnsNotOneFile _ _ := rfl
  warnsLate _ _ := rfl

theorem writer_selectByRoot (s : Session) (header : Header) (block : Block) :
    (s.selectByRoot header block).2.writer = s.writer :=
  carried_writer.selectByRoot s header block

theorem writer_warnOfMismatch (s : Session) (placement : Placement) :
    (s.warnOfMismatch placement).writer = s.writer :=
  carried_writer.warnOfMismatch s placement

theorem writer_noted (s : Session) (before : Phase) :
    (s.noteComplete.notePhase before).writer = s.writer := by
  obtain ⟨selection, said, hnoted⟩ := s.noted_eq before
  rw [hnoted]

/-! ## Ends -/

theorem flush_of_accepts {s : Session} (h : s.view.accepts = true) : s.flush = (.ok (), s) := by
  have hflush := Sink.flush_of_acceptsAll (s := s.writer.sink) h
  unfold flush
  split
  · simp [Writer.flush, hflush]
  · rfl

theorem reader_flush (s : Session) : s.flush.2.reader = s.reader := by
  unfold flush
  split <;> rfl

theorem reader_releaseSource (s : Session) :
    s.releaseSource.reader =
      if s.stats.cancelled || s.phase == .satisfied then s.closeSource.reader else s.reader := by
  unfold releaseSource
  split <;> rfl

theorem reader_finish (s : Session) : s.finish.2.reader = s.releaseSource.reader := by
  rw [finish_keeps reader (fun _ => rfl), reader_flush, reader_releaseSource, reader_releaseSource]
  rfl

/-- Only the sink can keep a session from its end. -/
theorem finish_cases (s : Session) :
    s.finish.1 = .ok () ∨ (∃ e, s.finish.1 = .error e) ∧ s.view.accepts = false := by
  have hview := view_releaseSource { s with finished := true }
  cases haccepts : s.view.accepts with
  | false =>
    cases hf : s.finish.1 with
    | ok _ => exact Or.inl rfl
    | error e => exact Or.inr ⟨⟨e, rfl⟩, rfl⟩
  | true =>
    have hflush := flush_of_accepts (s := { s with finished := true }.releaseSource)
      (by rw [hview]; exact haccepts)
    left
    have hfinishes := s.finishesAs_finish
    generalize s.finish = result at hfinishes
    cases hfinishes with
    | refused e s₁ hrefused =>
      rw [hflush] at hrefused
      cases hrefused
    | flushed => rfl

/-- A session that has handled a block without failure.  It is satisfied and its source is
closed, or it goes on where the reader is. -/
structure Handles (s' : Session) (reader : Reader) : Prop where
  finished : s'.finished = (s'.view.phase == .satisfied)
  reader : s'.reader =
    if s'.view.phase = .satisfied then { reader with source := reader.source.close } else reader

theorem Handles.not_satisfied {s' : Session} {reader : Reader} (h : s'.Handles reader)
    (hf : s'.finished = false) : s'.view.phase ≠ .satisfied := by
  intro hphase
  have hfinished := h.finished
  rw [hf, hphase] at hfinished
  cases hfinished

theorem Handles.reader_eq {s' : Session} {reader : Reader} (h : s'.Handles reader)
    (hf : s'.finished = false) : s'.reader = reader := by
  rw [h.reader, if_neg (h.not_satisfied hf)]

/-- Behind a block a session goes on or ends, and only the sink can make it fail. -/
theorem settle_cases (s : Session) (before : Phase) (hf : s.finished = false) :
    (s.settle before).1 = .ok () ∧ (s.settle before).2.Handles s.reader ∨
      (∃ e, (s.settle before).1 = .error e) ∧ s.view.accepts = false := by
  have hkeeps := s.keeps_noted before
  have hview := s.view_noted before
  have hsettles := s.settlesAs_settle before
  generalize s.settle before = result at hsettles
  cases hsettles with
  | ended hsatisfied =>
    rcases (s.noteComplete.notePhase before).finish_cases with hok | ⟨herror, haccepts⟩
    · left
      have hphase : (s.noteComplete.notePhase before).finish.2.view.phase = .satisfied := by
        rw [view_finish]
        exact hsatisfied
      refine ⟨hok, ?_, ?_⟩
      · rw [finished_finish, hphase]
        rfl
      · rw [if_pos hphase, reader_finish, reader_releaseSource, hsatisfied, closeSource,
          hkeeps.reader]
        simp
    · right
      rw [hview] at haccepts
      exact ⟨herror, haccepts⟩
  | goesOn hunsatisfied =>
    left
    have hphase : (s.noteComplete.notePhase before).view.phase ≠ .satisfied := hunsatisfied
    refine ⟨rfl, ?_, ?_⟩
    · rw [hkeeps.finished, hf]
      exact (beq_eq_false_iff_ne.2 hphase).symm
    · rw [if_neg hphase, hkeeps.reader]

end Session

end CarSlice
