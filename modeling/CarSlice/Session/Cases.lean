import CarSlice.Session

/-!
# The ways through a session

The functions of a session stop at the first failure, one behind the other.  Here every way through
such a function is listed once, so that nothing that is proved about it takes it apart again.

* `readBlock_eq` and `noted_eq` say which parts of a session are touched where it reads a block, and
  where it takes note of one.
* `FinishesAs`: at the end the sink refuses the flush, or the session says that it is complete.  What
  that leaves alone has `finish_keeps`.
* `SettlesAs`: behind a block the session ends or goes on.
* `HandlesBlock` and `SelectsBlock`: a block is passed on, or decided on and written or dropped.
* `SelectsByRoot` and `HandlesRoot`: what the root decides, and what becomes of header and root.
* `SettlesWork`: where the work on a block fails that is all, and else the block is settled.  Root
  (`settlesWork_processRoot`) and other blocks (`settlesWork_processBlock`) are of this kind.
* `EndsArchive`, `ReadsNext` and `ReadsFirst`: what may come out of the archive.
* `StepsAs`: a step has nothing to do, is the end of a cancelled session, or works and is `concluded`.
-/

namespace CarSlice

open Archive (Block Header Reader)

namespace Session

/-! ## What is touched -/

theorem readBlock_eq (s : Session) : ∃ blocksIn said, s.readBlock.2 =
    { s with reader := s.reader.next.2, stats := { s.stats with blocksIn }, said } := by
  unfold readBlock
  split
  · next h => exact ⟨s.stats.blocksIn, s.said, by rw [h]⟩
  · next h => exact ⟨s.stats.blocksIn, s.said, by rw [h]⟩
  · next h =>
    rw [h]
    dsimp only
    split
    · exact ⟨_, _, rfl⟩
    · exact ⟨_, _, rfl⟩

theorem finished_readBlock (s : Session) : s.readBlock.2.finished = s.finished := by
  obtain ⟨blocksIn, said, hread⟩ := s.readBlock_eq
  rw [hread]

theorem reader_readBlock (s : Session) : s.readBlock.2.reader = s.reader.next.2 := by
  obtain ⟨blocksIn, said, hread⟩ := s.readBlock_eq
  rw [hread]

theorem noted_eq (s : Session) (before : Phase) : ∃ selection said,
    s.noteComplete.notePhase before = { s with selection, said } := by
  unfold notePhase noteComplete
  split
  · split
    · exact ⟨_, _, rfl⟩
    · exact ⟨_, _, rfl⟩
  · split
    · exact ⟨_, _, rfl⟩
    · exact ⟨_, _, rfl⟩

/-! ## The end -/

/-- The session that has filled in its counts and said that it is complete. -/
def reported (s : Session) : Session :=
  { s with stats := s.finalStats }.publish ({ s with stats := s.finalStats } : Session).completeEvent

/-- What ending a session comes to. -/
inductive FinishesAs (s : Session) : Except Error Unit × Session → Prop where
  | refused (e : Error) (s₁ : Session)
      (hflush : { s with finished := true }.releaseSource.flush = (.error e, s₁)) :
      FinishesAs s (.error e, s₁)
  | flushed (s₁ : Session)
      (hflush : { s with finished := true }.releaseSource.flush = (.ok (), s₁)) :
      FinishesAs s (.ok (), s₁.reported)

theorem finishesAs_finish (s : Session) : s.FinishesAs s.finish := by
  unfold finish
  split
  · next e s₁ hflush => exact .refused e s₁ hflush
  · next s₁ hflush => exact .flushed s₁ hflush

/-- Whatever no report touches is as the flush has left it. -/
theorem finish_keeps {α : Type} (part : Session → α)
    (hpart : ∀ s : Session, part s.reported = part s) (s : Session) :
    part s.finish.2 = part { s with finished := true }.releaseSource.flush.2 := by
  have hfinishes := s.finishesAs_finish
  generalize s.finish = result at hfinishes
  cases hfinishes with
  | refused e s₁ hflush => rw [hflush]
  | flushed s₁ hflush => rw [hflush, hpart]

/-! ## Behind a block -/

/-- What settling a block comes to. -/
inductive SettlesAs (s : Session) (before : Phase) : Except Error Unit × Session → Prop where
  | ended (hphase : (s.noteComplete.notePhase before).phase = .satisfied) :
      SettlesAs s before (s.noteComplete.notePhase before).finish
  | goesOn (hphase : (s.noteComplete.notePhase before).phase ≠ .satisfied) :
      SettlesAs s before (.ok (), s.noteComplete.notePhase before)

theorem settlesAs_settle (s : Session) (before : Phase) :
    s.SettlesAs before (s.settle before) := by
  unfold settle finishIfSatisfied
  split
  · next hphase => exact .ended hphase
  · next hphase => exact .goesOn hphase

/-- What a session makes of the work on a block. -/
inductive SettlesWork (s : Session) :
    Except Error Unit × Session → Except Error Unit × Session → Prop where
  | failed (e : Error) (s₁ : Session) : SettlesWork s (.error e, s₁) (.error e, s₁)
  /-- The block is settled in the phase that it came in. -/
  | settled (s₁ : Session) : SettlesWork s (.ok (), s₁) (s₁.settle s.phase)

theorem settlesWork_processBlock (s : Session) (block : Block) :
    s.SettlesWork (s.handleBlock block) (s.processBlock block) := by
  unfold processBlock
  rcases s.handleBlock block with ⟨⟨e⟩ | ⟨⟩, s₁⟩
  · exact .failed e s₁
  · exact .settled s₁

/-- Where a block is passed on, and where it is chosen or not. -/
inductive HandlesBlock (s : Session) (block : Block) : Except Error Unit × Session → Prop where
  | unselected (hselection : s.selection = none) : HandlesBlock s block (s.writeBlock block)
  | passed (selection : Selection) (hselection : s.selection = some selection)
      (hphase : selection.phase = .passthrough) : HandlesBlock s block (s.writeBlock block)
  | chosen (selection : Selection) (hselection : s.selection = some selection)
      (hphase : selection.phase ≠ .passthrough) :
      HandlesBlock s block (s.selectBlock selection block)

theorem handlesBlock_handleBlock (s : Session) (block : Block) :
    s.HandlesBlock block (s.handleBlock block) := by
  unfold handleBlock
  split
  · next hselection => exact .unselected hselection
  · next selection hselection =>
    split
    · next hphase => exact .passed selection hselection hphase
    · next hphase => exact .chosen selection hselection hphase

/-- The session that has placed a block and decided on it. -/
def decided (s : Session) (selection : Selection) (block : Block) : Session :=
  { s with
    layout := (s.layout.place (.ofBlock block)).2
    selection := some (selection.decide (s.layout.place (.ofBlock block)).1).2 }

/-- What becomes of a block that is chosen or not. -/
inductive SelectsBlock (s : Session) (selection : Selection) (block : Block) :
    Except Error Unit × Session → Prop where
  | refused (e : Error) (s₁ : Session)
      (hcarried : (s.decided selection block).carryOut
        (selection.decide (s.layout.place (.ofBlock block)).1).1 block = (.error e, s₁)) :
      SelectsBlock s selection block (.error e, s₁)
  | carried (s₁ : Session)
      (hcarried : (s.decided selection block).carryOut
        (selection.decide (s.layout.place (.ofBlock block)).1).1 block = (.ok (), s₁)) :
      SelectsBlock s selection block
        (.ok (), s₁.warnOfMismatch (s.layout.place (.ofBlock block)).1)

theorem selectsBlock_selectBlock (s : Session) (selection : Selection) (block : Block) :
    s.SelectsBlock selection block (s.selectBlock selection block) := by
  unfold selectBlock
  dsimp only
  split
  · next e s₁ hcarried => exact .refused e s₁ hcarried
  · next s₁ hcarried => exact .carried s₁ hcarried

/-! ## The root -/

/-- What a session makes of its root before it writes anything. -/
inductive SelectsByRoot (s : Session) (header : Header) (block : Block) :
    Except Error Unit × Session → Prop where
  | passed (offset : Nat) (reason : Mismatch) (layout : Layout)
      (hplace : s.placeRoot header block = (.mismatch offset reason, layout)) :
      SelectsByRoot s header block
        (.ok (), { s with layout }.passThrough.warnNotOneFile reason)
  | outside (placement : Placement) (layout : Layout) (e : Error)
      (hplace : s.placeRoot header block = (placement, layout))
      (hplaced : ∀ offset reason, placement ≠ .mismatch offset reason)
      (hresolve : s.request.resolve (layout.fileSize.getD 0) = .error e) :
      SelectsByRoot s header block (.error e, { s with layout })
  | selected (placement : Placement) (layout : Layout) (stop : Nat)
      (hplace : s.placeRoot header block = (placement, layout))
      (hplaced : ∀ offset reason, placement ≠ .mismatch offset reason)
      (hresolve : s.request.resolve (layout.fileSize.getD 0) = .ok stop) :
      SelectsByRoot s header block (.ok (), { s with
        layout
        resolvedEnd := some stop
        selection := some ((Selection.ofRange s.request.start stop
          (some (layout.fileSize.getD 0))).decide placement).2 })

theorem selectsByRoot_selectByRoot (s : Session) (header : Header) (block : Block) :
    s.SelectsByRoot header block (s.selectByRoot header block) := by
  unfold selectByRoot
  split
  · next offset reason layout hplace => exact .passed offset reason layout hplace
  · next placement layout hplaced hplace =>
    dsimp only
    split
    · next e hresolve => exact .outside placement layout e hplace hplaced hresolve
    · next stop hresolve => exact .selected placement layout stop hplace hplaced hresolve

/-- Selects by the root, and writes header and root. -/
def handleRoot (s : Session) (header : Header) (block : Block) : Except Error Unit × Session :=
  match s.selectByRoot header block with
  | (.error e, s) => (.error e, s)
  | (.ok (), s) =>
    match s.writeHeader header with
    | (.error e, s) => (.error e, s)
    | (.ok (), s) => s.writeBlock block

/-- What becomes of header and root. -/
inductive HandlesRoot (s : Session) (header : Header) (block : Block) :
    Except Error Unit × Session → Prop where
  | unselected (e : Error) (s₁ : Session)
      (hselect : s.selectByRoot header block = (.error e, s₁)) :
      HandlesRoot s header block (.error e, s₁)
  | headless (e : Error) (s₁ s₂ : Session)
      (hselect : s.selectByRoot header block = (.ok (), s₁))
      (hheader : s₁.writeHeader header = (.error e, s₂)) : HandlesRoot s header block (.error e, s₂)
  | headed (s₁ s₂ : Session) (hselect : s.selectByRoot header block = (.ok (), s₁))
      (hheader : s₁.writeHeader header = (.ok (), s₂)) :
      HandlesRoot s header block (s₂.writeBlock block)

theorem handlesRoot_handleRoot (s : Session) (header : Header) (block : Block) :
    s.HandlesRoot header block (s.handleRoot header block) := by
  unfold handleRoot
  split
  · next e s₁ hselect => exact .unselected e s₁ hselect
  · next s₁ hselect =>
    split
    · next e s₂ hheader => exact .headless e s₁ s₂ hselect hheader
    · next s₂ hheader => exact .headed s₁ s₂ hselect hheader

theorem settlesWork_processRoot (s : Session) (header : Header) (block : Block) :
    s.SettlesWork (s.handleRoot header block) (s.processRoot header block) := by
  unfold processRoot handleRoot
  rcases s.selectByRoot header block with ⟨⟨e⟩ | ⟨⟩, s₁⟩
  · exact .failed e s₁
  · dsimp only
    rcases s₁.writeHeader header with ⟨⟨e⟩ | ⟨⟩, s₂⟩
    · exact .failed e s₂
    · dsimp only
      rcases s₂.writeBlock block with ⟨⟨e⟩ | ⟨⟩, s₃⟩
      · exact .failed e s₃
      · exact .settled s₃

/-! ## What is read -/

/-- What a session makes of the end of its archive. -/
inductive EndsArchive (s : Session) : Except Error Unit × Session → Prop where
  | incomplete (hphase : s.phase ≠ .passthrough) (hincomplete : s.layout.isIncomplete = true) :
      EndsArchive s
        { s with stats := { s.stats with incompleteFile := true } }.warnIncomplete.finish
  | complete (h : ¬(s.phase ≠ .passthrough ∧ s.layout.isIncomplete = true)) :
      EndsArchive s s.finish

theorem endsArchive_endOfArchive (s : Session) : s.EndsArchive s.endOfArchive := by
  unfold endOfArchive
  split
  · next h => exact .incomplete h.1 h.2
  · next h => exact .complete h

/-- What a session makes of what it reads behind its root. -/
inductive ReadsNext (s : Session) : Except Error Unit × Session → Prop where
  | unread (e : Error) (reader : Reader) (hnext : s.reader.next = (.error e, reader)) :
      ReadsNext s (.error e, { s with reader })
  | exhausted (reader : Reader) (hnext : s.reader.next = (.ok none, reader)) :
      ReadsNext s { s with reader }.endOfArchive
  | block (block : Block) (reader : Reader) (hnext : s.reader.next = (.ok (some block), reader)) :
      ReadsNext s (s.readBlock.2.processBlock block)

/-- What a session makes of what it reads at its beginning. -/
inductive ReadsFirst (s : Session) : Except Error Unit × Session → Prop where
  | noHeader (e : Error) (reader : Reader) (hread : s.reader.readHeader = (.error e, reader)) :
      ReadsFirst s (.error e, { s with reader })
  | noBlock (header : Header) (e : Error) (reader reader' : Reader)
      (hread : s.reader.readHeader = (.ok header, reader))
      (hnext : reader.next = (.error e, reader')) :
      ReadsFirst s (.error e, { s with reader := reader' })
  | refused (header : Header) (e : Error) (reader reader' : Reader) (s₁ : Session)
      (hread : s.reader.readHeader = (.ok header, reader))
      (hnext : reader.next = (.ok none, reader'))
      (hw : { s with reader := reader' }.passThrough.writeHeader header = (.error e, s₁)) :
      ReadsFirst s (.error e, s₁)
  | empty (header : Header) (reader reader' : Reader) (s₁ : Session)
      (hread : s.reader.readHeader = (.ok header, reader))
      (hnext : reader.next = (.ok none, reader'))
      (hw : { s with reader := reader' }.passThrough.writeHeader header = (.ok (), s₁)) :
      ReadsFirst s s₁.warnEmpty.finish
  | root (header : Header) (block : Block) (reader reader' : Reader)
      (hread : s.reader.readHeader = (.ok header, reader))
      (hnext : reader.next = (.ok (some block), reader')) :
      ReadsFirst s ({ s with reader := reader }.readBlock.2.processRoot header block)

theorem readBlock_of_error {s : Session} {e : Error} {reader : Reader}
    (h : s.reader.next = (.error e, reader)) : s.readBlock = (.error e, { s with reader }) := by
  simp [readBlock, h]

theorem readBlock_of_end {s : Session} {reader : Reader} (h : s.reader.next = (.ok none, reader)) :
    s.readBlock = (.ok none, { s with reader }) := by
  simp [readBlock, h]

theorem readBlock_of_block {s : Session} {block : Block} {reader : Reader}
    (h : s.reader.next = (.ok (some block), reader)) :
    s.readBlock = (.ok (some block), s.readBlock.2) := by
  simp [readBlock, h]

theorem readsNext_advance (s : Session) : s.ReadsNext s.advance := by
  rcases hnext : s.reader.next with ⟨e | _ | block, reader⟩
  · rw [advance, readBlock_of_error hnext]
    exact .unread e reader hnext
  · rw [advance, readBlock_of_end hnext]
    exact .exhausted reader hnext
  · rw [advance, readBlock_of_block hnext]
    exact .block block reader hnext

theorem readsFirst_begin (s : Session) : s.ReadsFirst s.begin := by
  rcases hread : s.reader.readHeader with ⟨e | header, reader⟩
  · rw [begin, hread]
    exact .noHeader e reader hread
  · rw [begin, hread]
    dsimp only
    rcases hnext : reader.next with ⟨e | _ | block, reader'⟩
    · rw [readBlock_of_error (s := { s with reader }) hnext]
      exact .noBlock header e reader reader' hread hnext
    · rw [readBlock_of_end (s := { s with reader }) hnext]
      dsimp only
      split
      · next e s₁ hw => exact .refused header e reader reader' s₁ hread hnext hw
      · next s₁ hw => exact .empty header reader reader' s₁ hread hnext hw
    · rw [readBlock_of_block (s := { s with reader }) hnext]
      exact .root header block reader reader' hread hnext

/-! ## Steps -/

/-- What a step makes of its work: a failure ends the session. -/
def concluded : Except Error Unit × Session → Except Error Bool × Session
  | (.error e, s) => (.error e, s.fail e)
  | (.ok (), s) => (.ok !s.finished, s)

theorem concluded_of_ok {result : Except Error Unit × Session} (h : result.1 = .ok ()) :
    concluded result = (.ok (!result.2.finished), result.2) := by
  rcases result with ⟨⟨e⟩ | ⟨⟩, s⟩
  · cases h
  · rfl

theorem map_concluded (result : Except Error Unit × Session) :
    (concluded result).1.map (fun _ => ()) = result.1 := by
  rcases result with ⟨⟨e⟩ | ⟨⟩, s⟩
  · rfl
  · rfl

/-- Whatever a failure leaves alone is as the work has left it. -/
theorem concluded_keeps {α : Type} (part : Session → α)
    (hpart : ∀ (s : Session) (e : Error), part (s.fail e) = part s)
    (result : Except Error Unit × Session) : part (concluded result).2 = part result.2 := by
  rcases result with ⟨⟨e⟩ | ⟨⟩, s⟩
  · exact hpart s e
  · rfl

theorem start_of_not_started {s : Session} (hs : s.started = false) :
    s.start =
      ({ s with started := true }.begin.1, (concluded { s with started := true }.begin).2) := by
  unfold start
  rw [if_neg (by simp [hs])]
  cases hb : { s with started := true }.begin with
  | mk result s' => cases result <;> rfl

theorem start_of_ok {s : Session} (hs : s.started = false) (hok : s.start.1 = .ok ()) :
    s.start = { s with started := true }.begin := by
  rw [start_of_not_started hs] at hok ⊢
  have hbegun : { s with started := true }.begin.1 = .ok () := hok
  rw [concluded_of_ok hbegun]

/-- A step of a session that was cancelled is its end. -/
theorem step_eq_stop {s : Session} (hf : s.finished = false) (hc : s.cancelRequested = true) :
    s.step = (s.stop.1.map fun _ => false, s.stop.2) := by
  simp only [step, hf, hc, Bool.false_eq_true, if_false, if_true]
  rcases s.stop with ⟨⟨e⟩ | ⟨⟩, s'⟩
  · rfl
  · rfl

theorem step_of_started {s : Session} (hf : s.finished = false)
    (hc : s.cancelRequested = false) (hs : s.started = true) :
    s.step = concluded s.advance := by
  simp only [step, hf, hc, hs, Bool.false_eq_true, if_false, if_true]
  rcases s.advance with ⟨⟨e⟩ | ⟨⟩, s'⟩
  · rfl
  · rfl

theorem step_of_not_started {s : Session} (hf : s.finished = false)
    (hc : s.cancelRequested = false) (hs : s.started = false) :
    s.step = concluded { s with started := true }.begin := by
  unfold step
  rw [if_neg (by simp [hf]), if_neg (by simp [hc]), if_neg (by simp [hs]),
    start_of_not_started hs]
  cases hb : { s with started := true }.begin with
  | mk result s' => cases result <;> rfl

/-- What a step comes to. -/
inductive StepsAs (s : Session) : Except Error Bool × Session → Prop where
  | idle (hf : s.finished = true) : StepsAs s (.ok false, s)
  | stopped (hf : s.finished = false) (hc : s.cancelRequested = true) :
      StepsAs s (s.stop.1.map fun _ => false, s.stop.2)
  | advanced (hf : s.finished = false) (hc : s.cancelRequested = false) (hs : s.started = true) :
      StepsAs s (concluded s.advance)
  | begun (hf : s.finished = false) (hc : s.cancelRequested = false) (hs : s.started = false) :
      StepsAs s (concluded { s with started := true }.begin)

theorem stepsAs_step (s : Session) : s.StepsAs s.step := by
  cases hf : s.finished with
  | true =>
    rw [step, if_pos hf]
    exact .idle hf
  | false =>
    cases hc : s.cancelRequested with
    | true =>
      rw [step_eq_stop hf hc]
      exact .stopped hf hc
    | false =>
      cases hs : s.started with
      | true =>
        rw [step_of_started hf hc hs]
        exact .advanced hf hc hs
      | false =>
        rw [step_of_not_started hf hc hs]
        exact .begun hf hc hs

end Session

end CarSlice
