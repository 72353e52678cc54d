import CarSlice.Proofs.Archive.Failures
import CarSlice.Proofs.Archive.Writing
import CarSlice.Proofs.Layout.Failures
import CarSlice.Proofs.Session.Accepting
import CarSlice.Proofs.Session.Success

/-!
# Failures before anything is written

An operation fails because the archive cannot be read, because the range does not lie in the
file, or because the sink refuses what is written (`Fails`, `Sound.fails`).  The first two come
before the operation writes anything, and the second only where header and root are read.
So nothing is written before the root is accepted (`nothing_written_before_root`).

* `View.Refuses` is a failure of the sink.  It has one lemma for each function that writes.
* `View.Outside` is the failure of a range, which `selectByRoot` alone comes to
  (`selectByRoot_eq_error_iff`).
* `begin_fails` and `refuses_of_advance`: where the archive can be read, only these two are left.
* `AcceptsRoot` says of an archive that its first block is the root of one file.
-/

namespace CarSlice

open Archive (Block Header Reader ReaderOptions Writer)
open UnixFs (Content)

/-- A range is refused by a file in which it does not lie, and for nothing else. -/
theorem ByteRange.resolve_eq_error_iff {range : ByteRange} {size : Nat} {e : Error} :
    range.resolve size = .error e ↔
      ¬((range.start < size ∨ size = 0 ∧ range.start = 0) ∧ range.stop.getD size ≤ size) ∧
        e = .outsideFile range.start range.stop size := by
  have hordered : (range.start < size ∨ size = 0 ∧ range.start = 0) →
      range.start ≤ range.stop.getD size := by
    intro hstart
    cases hstop : range.stop with
    | none =>
      rw [Option.getD_none]
      omega
    | some stop => exact range.ordered stop (by simp [hstop])
  have hlies : liesIn range.start (range.stop.getD size) size = true ↔
      (range.start < size ∨ size = 0 ∧ range.start = 0) ∧ range.stop.getD size ≤ size := by
    simp only [liesIn, Bool.and_eq_true, Bool.or_eq_true, decide_eq_true_eq, beq_iff_eq]
    exact ⟨fun h => h.1, fun h => ⟨h, hordered h.1⟩⟩
  unfold resolve
  dsimp only
  split
  · next hin => simp [hlies.1 hin]
  · next hout =>
    rw [hlies] at hout
    simp only [hout, not_false_eq_true, true_and, Except.error.injEq]
    exact eq_comm

namespace Session

/-! ## Failures of the sink -/

/-- The sink does not take everything, and what goes wrong is its doing. -/
structure View.Refuses (v : View) (e : Error) : Prop where
  accepts : v.accepts = false
  cause : ∃ reason, e = .sinkFailed reason

theorem refuses_of_write {s : Session} {bytes : Bytes} {e : Error}
    (h : (s.sink.write bytes).1 = .error e) : s.view.Refuses e := by
  refine ⟨(Sink.write_of_error (Prod.ext h rfl)).2.1, ?_⟩
  unfold Sink.write at h
  split at h
  · cases h
  · split at h
    · cases h
    · cases h
      exact ⟨_, rfl⟩
  · split at h
    · cases h
    · cases h
      exact ⟨_, rfl⟩

theorem refuses_of_writeHeader {s : Session} {header : Header} {e : Error}
    (hheader : s.view.headerWritten = false) (h : (s.writeHeader header).1 = .error e) :
    s.view.Refuses e := by
  have h : (s.writer.call (.header header.frame)).1 = .error e := h
  have hheader : s.writer.headerWritten = false := hheader
  rw [s.writer.call_eq_verdict, Archive.Writer.verdict, hheader, if_neg Bool.false_ne_true] at h
  exact refuses_of_write h

theorem refuses_of_writeBlock {s : Session} {block : Block} {e : Error}
    (hheader : s.view.headerWritten = true) (h : (s.writeBlock block).1 = .error e) :
    s.view.Refuses e := by
  have hheader : s.writer.headerWritten = true := hheader
  unfold writeBlock at h
  split at h
  · next e' w hw =>
    cases h
    have hcall : (s.writer.call (.block block.frame)).1 = .error e := congrArg Prod.fst hw
    rw [s.writer.call_eq_verdict, Archive.Writer.verdict, if_pos hheader] at hcall
    exact refuses_of_write hcall
  · cases h

theorem refuses_of_flush {s s' : Session} {e : Error} (h : s.flush = (.error e, s')) :
    s.view.Refuses e := by
  have haccepts : s.view.accepts = false := by
    by_contra hnot
    rw [flush_of_accepts (by simpa using hnot)] at h
    cases h
  refine ⟨haccepts, ?_⟩
  unfold flush at h
  split at h
  · simp only [Archive.Writer.flush, Prod.mk.injEq] at h
    have hcause := h.1
    unfold Sink.flush at hcause
    split at hcause
    · cases hcause
    · cases hcause
    · split at hcause
      · cases hcause
        exact ⟨none, rfl⟩
      · cases hcause
  · cases h

theorem refuses_of_finish {s : Session} {e : Error} (h : s.finish.1 = .error e) :
    s.view.Refuses e := by
  have hfinishes := s.finishesAs_finish
  generalize s.finish = result at hfinishes h
  cases hfinishes with
  | refused e' s₁ hflush =>
    cases h
    have hrefuses := refuses_of_flush hflush
    rw [view_releaseSource] at hrefuses
    exact hrefuses
  | flushed => cases h

theorem refuses_of_endOfArchive {s : Session} {e : Error} (h : s.endOfArchive.1 = .error e) :
    s.view.Refuses e := by
  have hends := s.endsArchive_endOfArchive
  generalize s.endOfArchive = result at hends h
  cases hends with
  | incomplete =>
    have hrefuses := refuses_of_finish h
    exact ⟨hrefuses.accepts, hrefuses.cause⟩
  | complete => exact refuses_of_finish h

theorem refuses_of_settle {s : Session} {before : Phase} {e : Error}
    (h : (s.settle before).1 = .error e) : s.view.Refuses e := by
  have hsettles := s.settlesAs_settle before
  generalize s.settle before = result at hsettles h
  cases hsettles with
  | ended =>
    have hrefuses := refuses_of_finish h
    rw [view_noted] at hrefuses
    exact ⟨hrefuses.accepts, hrefuses.cause⟩
  | goesOn => cases h

theorem accepts_writeHeader (s : Session) (header : Header) :
    (s.writeHeader header).2.view.accepts = s.view.accepts := by
  cases hheader : s.writer.headerWritten with
  | true => simp [writeHeader, Archive.Writer.writeHeader, hheader, view]
  | false =>
    rcases s.wrote_writeHeader header hheader with ⟨-, hview⟩ | ⟨-, -, hview⟩
    · rw [hview]
      rfl
    · rw [hview]

theorem accepts_writeBlock (s : Session) (block : Block) :
    (s.writeBlock block).2.view.accepts = s.view.accepts := by
  cases hheader : s.writer.headerWritten with
  | false => simp [writeBlock, Archive.Writer.writeBlock, hheader, view]
  | true =>
    rcases s.wrote_writeBlock block hheader with ⟨-, hview⟩ | ⟨-, -, hview⟩
    · rw [hview]
      rfl
    · rw [hview]

/-- A sink that takes everything goes on to do so, and one that does not will not begin to. -/
theorem carried_accepts : CarriedByWrites fun s s' => s'.view.accepts = s.view.accepts where
  trans first second := second.trans first
  selects _ _ _ _ := rfl
  drops _ _ := rfl
  warnsNotOneFile _ _ := rfl
  warnsLate _ _ := rfl
  header := accepts_writeHeader
  block := accepts_writeBlock

/-- Where a block is settled only the sink makes that fail. -/
theorem SettlesWork.refuses {s : Session} {work result : Except Error Unit × Session} {e : Error}
    (h : s.SettlesWork work result) (haccepts : work.2.view.accepts = s.view.accepts)
    (he : result.1 = .error e) : work.1 = .error e ∨ s.view.Refuses e := by
  cases h with
  | failed e' s₁ => exact Or.inl he
  | settled s₁ =>
    have hrefuses := refuses_of_settle he
    exact Or.inr ⟨haccepts.symm.trans hrefuses.accepts, hrefuses.cause⟩

/-! ## Failures at the root -/

/-- The archive holds one file, as far as its root tells, and the range does not lie in it. -/
def View.Outside (v : View) (header : Header) (block : Block) (e : Error) : Prop :=
  (∀ offset reason, (v.placeRoot header block).1 ≠ .mismatch offset reason) ∧
    v.request.resolve ((v.placeRoot header block).2.fileSize.getD 0) = .error e

theorem selectByRoot_eq_error_iff {s : Session} {header : Header} {block : Block} {e : Error} :
    (s.selectByRoot header block).1 = .error e ↔ s.view.Outside header block e := by
  have hplace : s.placeRoot header block = s.view.placeRoot header block := rfl
  have hrequest : s.view.request = s.request := rfl
  unfold View.Outside
  rw [← hplace, hrequest]
  have hselects := s.selectsByRoot_selectByRoot header block
  generalize s.selectByRoot header block = result at hselects
  cases hselects with
  | passed offset reason layout hplace =>
    rw [hplace]
    constructor
    · intro h
      cases h
    · rintro ⟨hplaced, -⟩
      exact absurd rfl (hplaced offset reason)
  | outside placement layout e' hplace hplaced hresolve =>
    rw [hplace, hresolve]
    constructor
    · intro h
      cases h
      exact ⟨hplaced, rfl⟩
    · rintro ⟨-, h⟩
      cases h
      rfl
  | selected placement layout stop hplace hplaced hresolve =>
    rw [hplace, hresolve]
    constructor
    · intro h
      cases h
    · rintro ⟨-, h⟩
      cases h

theorem sink_selectByRoot (s : Session) (header : Header) (block : Block) :
    (s.selectByRoot header block).2.sink = s.sink :=
  congrArg Writer.sink (s.writer_selectByRoot header block)

/-- A range outside the file is found before anything is written. -/
theorem processRoot_of_outside {s : Session} {header : Header} {block : Block} {e : Error}
    (h : s.view.Outside header block e) :
    (s.processRoot header block).1 = .error e ∧ (s.processRoot header block).2.sink = s.sink := by
  have herror := selectByRoot_eq_error_iff.2 h
  have hsink := s.sink_selectByRoot header block
  rcases hselect : s.selectByRoot header block with ⟨result, s₁⟩
  rw [hselect] at herror hsink
  obtain rfl : result = .error e := herror
  have hhandle : s.handleRoot header block = (.error e, s₁) := by
    rw [handleRoot, hselect]
  have hsettles := s.settlesWork_processRoot header block
  rw [hhandle] at hsettles
  generalize s.processRoot header block = processed at hsettles ⊢
  cases hsettles with
  | failed => exact ⟨rfl, hsink⟩

theorem handleRoot_fails {s : Session} {header : Header} {block : Block} {e : Error}
    (hheader : s.view.headerWritten = false) (h : (s.handleRoot header block).1 = .error e) :
    s.view.Outside header block e ∨ s.view.Refuses e := by
  have hhandles := s.handlesRoot_handleRoot header block
  generalize s.handleRoot header block = result at hhandles h
  cases hhandles with
  | unselected e' s₁ hselect =>
    cases h
    exact Or.inl (selectByRoot_eq_error_iff.1 (by rw [hselect]))
  | headless e' s₁ s₂ hselect hheadless =>
    cases h
    have hchosen := chosen_of_selectByRoot hselect
    have hrefuses := refuses_of_writeHeader (hchosen.headerWritten.trans hheader)
      (congrArg Prod.fst hheadless)
    exact Or.inr ⟨hchosen.accepts.symm.trans hrefuses.accepts, hrefuses.cause⟩
  | headed s₁ s₂ hselect hheaded =>
    have hchosen := chosen_of_selectByRoot hselect
    have hview := view_of_writeHeader (hchosen.headerWritten.trans hheader) hheaded
    have hrefuses := refuses_of_writeBlock (by rw [hview]; rfl) h
    rw [hview] at hrefuses
    exact Or.inr ⟨hchosen.accepts.symm.trans hrefuses.accepts, hrefuses.cause⟩

/-- Otherwise only the sink makes the root fail. -/
theorem processRoot_fails {s : Session} {header : Header} {block : Block} {e : Error}
    (hheader : s.view.headerWritten = false) (h : (s.processRoot header block).1 = .error e) :
    s.view.Outside header block e ∨ s.view.Refuses e := by
  have haccepts := carried_accepts.handleRoot s header block
  rcases (s.settlesWork_processRoot header block).refuses haccepts h with hfails | hrefuses
  · exact handleRoot_fails hheader hfails
  · exact Or.inr hrefuses

/-! ## Failures behind the root -/

theorem refuses_of_handleBlock {s : Session} (hready : s.view.Ready) {block : Block} {e : Error}
    (h : (s.handleBlock block).1 = .error e) : s.view.Refuses e := by
  have hhandles := s.handlesBlock_handleBlock block
  generalize s.handleBlock block = result at hhandles h
  cases hhandles with
  | unselected => exact refuses_of_writeBlock hready.headerWritten h
  | passed => exact refuses_of_writeBlock hready.headerWritten h
  | chosen selection =>
    have hselects := s.selectsBlock_selectBlock selection block
    generalize s.selectBlock selection block = result at hselects h
    cases hselects with
    | carried => cases h
    | refused e' s₁ hcarried =>
      cases h
      generalize (selection.decide (s.layout.place (.ofBlock block)).1).1 = decision at hcarried
      cases decision with
      | drop => cases hcarried
      | emit =>
        have hrefuses := refuses_of_writeBlock (s := s.decided selection block)
          hready.headerWritten (congrArg Prod.fst hcarried)
        exact ⟨hrefuses.accepts, hrefuses.cause⟩

theorem refuses_of_processBlock {s : Session} (hready : s.view.Ready) {block : Block} {e : Error}
    (h : (s.processBlock block).1 = .error e) : s.view.Refuses e := by
  have haccepts := carried_accepts.handleBlock s block
  rcases (s.settlesWork_processBlock block).refuses haccepts h with hfails | hrefuses
  · exact refuses_of_handleBlock hready hfails
  · exact hrefuses

theorem sink_readBlock (s : Session) : s.readBlock.2.sink = s.sink :=
  congrArg Writer.sink s.writer_readBlock

theorem sink_concluded (result : Except Error Unit × Session) :
    (concluded result).2.sink = result.2.sink :=
  concluded_keeps sink (fun _ _ => rfl) result

/-! ## Operations -/

/-- Every way in which an operation fails. -/
inductive Fails (s : Session) (op : Operation) : Error → Session → Prop where
  /-- The archive cannot be read. -/
  | unread (e : Error) (s' : Session) (hreading : e.OfReading) (hsink : s'.sink = s.sink) :
      Fails s op e s'
  /-- Header and root were read, and the range does not lie in the file. -/
  | outside (header : Header) (block : Block) (reader reader' : Reader) (e : Error)
      (s' : Session) (hop : s.Opens op) (hread : s.reader.readHeader = (.ok header, reader))
      (hnext : reader.next = (.ok (some block), reader'))
      (houtside : s.view.Outside header block e) (hsink : s'.sink = s.sink) : Fails s op e s'
  /-- The sink refuses what is written. -/
  | refused (e : Error) (s' : Session) (hrefuses : s.view.Refuses e) : Fails s op e s'

/-- Where header and root can be read, a beginning fails only if the range does not lie in the file
or the sink refuses what is written. -/
theorem begin_fails {s : Session} (hheader : s.view.headerWritten = false) {header : Header}
    {read : Option Block} {reader reader' : Reader}
    (hread : s.reader.readHeader = (.ok header, reader)) (hnext : reader.next = (.ok read, reader'))
    {e : Error} (h : s.begin.1 = .error e) :
    (∃ block, read = some block ∧ s.view.Outside header block e ∧ s.begin.2.sink = s.sink) ∨
      s.view.Refuses e := by
  have hreads := s.readsFirst_begin
  generalize s.begin = result at hreads h ⊢
  cases hreads with
  | noHeader e' reader₁ hread₁ =>
    rw [hread] at hread₁
    cases hread₁
  | noBlock header₁ e' reader₁ reader₁' hread₁ hnext₁ =>
    obtain ⟨-, rfl⟩ := Prod.mk.inj (hread.symm.trans hread₁)
    rw [hnext] at hnext₁
    cases hnext₁
  | refused header₁ e' reader₁ reader₁' s₁ _ _ hw =>
    cases h
    have hrefuses := refuses_of_writeHeader
      (s := { s with reader := reader₁' }.passThrough) hheader (congrArg Prod.fst hw)
    exact Or.inr ⟨hrefuses.accepts, hrefuses.cause⟩
  | empty header₁ reader₁ reader₁' s₁ _ _ hw =>
    have hrefuses := refuses_of_finish h
    have haccepts := accepts_writeHeader { s with reader := reader₁' }.passThrough header₁
    rw [hw] at haccepts
    exact Or.inr ⟨haccepts.symm.trans hrefuses.accepts, hrefuses.cause⟩
  | root header₁ block reader₁ reader₁' hread₁ hnext₁ =>
    obtain ⟨hsame, rfl⟩ := Prod.mk.inj (hread.symm.trans hread₁)
    obtain rfl : header = header₁ := Except.ok.inj hsame
    have hfound : read = some block :=
      Except.ok.inj (congrArg Prod.fst (hnext.symm.trans hnext₁))
    have hview : { s with reader := reader }.readBlock.2.view = s.view := view_readBlock _
    rcases processRoot_fails (by rw [hview]; exact hheader) h with houtside | hrefuses
    · have hsink := (processRoot_of_outside houtside).2
      rw [sink_readBlock] at hsink
      rw [hview] at houtside
      exact Or.inl ⟨block, hfound, houtside, hsink⟩
    · rw [hview] at hrefuses
      exact Or.inr hrefuses

theorem start_fails {s : Session} {op : Operation} (hop : s.Opens op)
    (hheader : s.view.headerWritten = false) {e : Error} (h : s.start.1 = .error e) :
    s.Fails op e s.start.2 := by
  rw [start_of_not_started hop.1] at h ⊢
  have hbegin : { s with started := true }.begin.1 = .error e := h
  have hfails {header : Header} {read : Option Block} {reader reader' : Reader}
      (hread : s.reader.readHeader = (.ok header, reader))
      (hnext : reader.next = (.ok read, reader')) :
      s.Fails op e (concluded { s with started := true }.begin).2 := by
    rcases begin_fails (s := { s with started := true }) hheader hread hnext hbegin with
      ⟨block, rfl, houtside, hsink⟩ | hrefuses
    · exact .outside header block reader reader' e _ hop hread hnext houtside
        ((sink_concluded _).trans hsink)
    · exact .refused e _ ⟨hrefuses.accepts, hrefuses.cause⟩
  have hreads := { s with started := true }.readsFirst_begin
  generalize { s with started := true }.begin = result at hreads hfails hbegin ⊢
  cases hreads with
  | noHeader e' reader hread =>
    cases hbegin
    exact .unread e _ (Reader.ofReading_of_readHeader hread) rfl
  | noBlock header e' reader reader' _ hnext =>
    cases hbegin
    exact .unread e _ (Reader.ofReading_of_next hnext) rfl
  | refused header e' reader reader' s₁ hread hnext => exact hfails hread hnext
  | empty header reader reader' s₁ hread hnext => exact hfails hread hnext
  | root header block reader reader' hread hnext => exact hfails hread hnext

/-- Where the archive goes on or ends, only the sink makes a step behind the root fail. -/
theorem refuses_of_advance {s : Session} (hready : s.view.Ready) {read : Option Block}
    {reader : Reader} (hnext : s.reader.next = (.ok read, reader)) {e : Error}
    (h : s.advance.1 = .error e) : s.view.Refuses e := by
  have hreads := s.readsNext_advance
  generalize s.advance = result at hreads h
  cases hreads with
  | unread e' reader' hunread =>
    rw [hnext] at hunread
    cases hunread
  | exhausted reader' =>
    have hrefuses := refuses_of_endOfArchive h
    exact ⟨hrefuses.accepts, hrefuses.cause⟩
  | block block reader' =>
    have hview := s.view_readBlock
    have hrefuses := refuses_of_processBlock (by rw [hview]; exact hready) h
    rwa [hview] at hrefuses

theorem advance_fails {s : Session} (hready : s.view.Ready) {e : Error}
    (h : s.advance.1 = .error e) :
    e.OfReading ∧ s.advance.2.sink = s.sink ∨ s.view.Refuses e := by
  have hrefuses {read : Option Block} {reader : Reader}
      (hnext : s.reader.next = (.ok read, reader)) := refuses_of_advance hready hnext h
  have hreads := s.readsNext_advance
  generalize s.advance = result at hreads h ⊢
  cases hreads with
  | unread e' reader hnext =>
    cases h
    exact Or.inl ⟨Reader.ofReading_of_next hnext, rfl⟩
  | exhausted reader hnext => exact Or.inr (hrefuses hnext)
  | block block reader hnext => exact Or.inr (hrefuses hnext)

theorem refuses_of_cancelled {s : Session} (hf : s.finished = false)
    (hc : s.cancelRequested = true) {e : Error} (h : (s.step.1.map fun _ => ()) = .error e) :
    s.view.Refuses e := by
  have hstop : s.stop.1 = .error e := by
    simp only [step, hf, hc, Bool.false_eq_true, if_false, if_true] at h
    rcases hs : s.stop with ⟨⟨e'⟩ | ⟨⟩, s'⟩
    · rw [hs] at h
      exact h
    · rw [hs] at h
      cases h
  have hrefuses := refuses_of_finish hstop
  exact ⟨hrefuses.accepts, hrefuses.cause⟩

theorem Sound.fails {v₀ : View} (hv₀ : v₀.Initial) {s : Session} {entries : List Handled}
    (h : Sound v₀ s entries) {op : Operation} {e : Error} (he : s.outcome op = .error e) :
    s.Fails op e (s.operate op).2 := by
  have heffect := effect_operate h.begun op
  generalize s.operate op = after at heffect ⊢
  rw [he] at heffect
  generalize hresult : Except.error e = result at heffect
  cases heffect with
  | idle => cases hresult
  | cancelled => cases hresult
  | stopped hf hc => exact .refused e _ (refuses_of_cancelled hf hc hresult.symm)
  | opened hf hop => exact start_fails hop (h.not_headerWritten hv₀ hf hop.1) hresult.symm
  | advanced hf hc hs =>
    have hstep := step_of_started hf hc hs
    rw [hstep, map_concluded] at hresult
    have hsink : s.step.2.sink = s.advance.2.sink := by
      rw [hstep, sink_concluded]
    rcases advance_fails (h.ready hv₀ hf hs) hresult.symm with ⟨hreading, hkept⟩ | hrefuses
    · exact .unread e _ hreading (hsink.trans hkept)
    · exact .refused e _ hrefuses

/-! ## Sessions that have not begun -/

/-- A session that has not begun is as it was made, but for a cancellation. -/
theorem Sound.perform_of_not_started {v₀ : View} (hv₀ : v₀.Initial) {s : Session}
    {entries : List Handled} (h : Sound v₀ s entries) {ops : List Operation}
    (hs : (s.perform ops).2.started = false) :
    ∃ c, (s.perform ops).2 = { s with cancelRequested := c } := by
  induction ops generalizing s entries with
  | nil => exact ⟨s.cancelRequested, rfl⟩
  | cons op ops ih =>
    have hrest : ((s.operate op).2.perform ops).2.started = false := hs
    obtain ⟨c, hkept⟩ := ih (h.operate hv₀ op) hrest
    rw [hkept] at hrest
    rcases h.started_or_eq hv₀ op with hstarted | ⟨c', hfirst⟩
    · have hstarted' : (s.operate op).2.started = false := hrest
      rw [hstarted] at hstarted'
      cases hstarted'
    · refine ⟨c, ?_⟩
      show ((s.operate op).2.perform ops).2 = _
      rw [hkept, hfirst]

/-! ## The root of an archive -/

/-- Header and first block of an archive can be read, the header names the block first, and it
is the root of a file of `size` bytes. -/
structure AcceptsRoot (source : Source) (options : ReaderOptions) (retains : Bool)
    (header : Header) (block : Block) (size : Nat) : Prop where
  readsHeader : (Reader.readHeader { source, options }).1 = .ok header
  readsBlock : (Reader.readHeader { source, options }).2.next.1 = .ok (some block)
  named : header.roots.head?.map (·.bytes) = some block.cid.bytes
  accepted : ∀ offset reason,
    ((Layout.new retains).place (.ofBlock block)).1 ≠ .mismatch offset reason
  fileSize : ((Layout.new retains).place (.ofBlock block)).2.fileSize = some size

/-- A range that does not lie in a file of `size` bytes.  An empty file has only the range at
its beginning. -/
def OutsideFile (request : ByteRange) (size : Nat) : Prop :=
  ¬((request.start < size ∨ size = 0 ∧ request.start = 0) ∧ request.stop.getD size ≤ size)

section

variable {source : Source} {options : ReaderOptions} {retains : Bool} {header : Header}
  {block : Block} {v : View}

theorem exists_acceptsRoot {e : Error} {reader reader' : Reader}
    (hlayout : v.layout = Layout.new retains)
    (hread : Reader.readHeader { source, options } = (.ok header, reader))
    (hnext : reader.next = (.ok (some block), reader')) (houtside : v.Outside header block e) :
    ∃ size, AcceptsRoot source options retains header block size ∧ OutsideFile v.request size ∧
      e = .outsideFile v.request.start v.request.stop size := by
  obtain ⟨hnot, hresolve⟩ := houtside
  have hplaced := View.placeRoot_of_not_mismatch hnot
  have hnamed : header.roots.head?.map (·.bytes) = some block.cid.bytes := by
    by_contra hunnamed
    exact hnot 0 .notHeaderRoot (by rw [View.placeRoot, if_neg hunnamed])
  rw [hplaced, hlayout] at hnot hresolve
  obtain ⟨size, hsize⟩ := Layout.exists_fileSize (Layout.valid_new retains) rfl hnot
  rw [hsize] at hresolve
  obtain ⟨hrange, he⟩ := ByteRange.resolve_eq_error_iff.1 hresolve
  exact ⟨size, ⟨by rw [hread], by rw [hread, hnext], hnamed, hnot, hsize⟩, hrange, he⟩

theorem AcceptsRoot.outside {size : Nat} (hlayout : v.layout = Layout.new retains)
    (h : AcceptsRoot source options retains header block size)
    (hrange : OutsideFile v.request size) :
    v.Outside header block (.outsideFile v.request.start v.request.stop size) := by
  have hplaced : v.placeRoot header block = (Layout.new retains).place (.ofBlock block) := by
    rw [View.placeRoot, if_pos h.named, hlayout]
  refine ⟨by rw [hplaced]; exact h.accepted, ?_⟩
  rw [hplaced, h.fileSize]
  exact ByteRange.resolve_eq_error_iff.2 ⟨hrange, rfl⟩

end

/-- The range is refused where header and root are read. -/
theorem AcceptsRoot.refused {source : Source} {options : ReaderOptions} {retains : Bool}
    {header : Header} {block : Block} {size : Nat}
    (h : AcceptsRoot source options retains header block size) {s : Session}
    (hf : s.finished = false) (hreader : s.reader = { source, options })
    (hlayout : s.layout = Layout.new retains) (hrange : OutsideFile s.request size)
    {op : Operation} (hop : s.Opens op) :
    s.outcome op = .error (.outsideFile s.request.start s.request.stop size) := by
  have houtside : s.view.Outside header block
      (.outsideFile s.request.start s.request.stop size) := h.outside hlayout hrange
  have hheader := h.readsHeader
  have hblock := h.readsBlock
  rw [← hreader] at hheader hblock
  rw [(hop.operate_eq hf).2, start_of_not_started hop.1]
  have hreads := { s with started := true }.readsFirst_begin
  generalize { s with started := true }.begin = result at hreads ⊢
  cases hreads with
  | noHeader e' reader hread =>
    rw [show s.reader.readHeader = _ from hread] at hheader
    cases hheader
  | noBlock _ e' reader reader' hread hnext =>
    rw [show s.reader.readHeader = _ from hread, hnext] at hblock
    cases hblock
  | refused _ e' reader reader' s₁ hread hnext =>
    rw [show s.reader.readHeader = _ from hread, hnext] at hblock
    cases hblock
  | empty _ reader reader' s₁ hread hnext =>
    rw [show s.reader.readHeader = _ from hread, hnext] at hblock
    cases hblock
  | root header' block' reader reader' hread hnext =>
    rw [show s.reader.readHeader = _ from hread] at hheader hblock
    rw [hnext] at hblock
    cases hheader
    cases hblock
    have hview : { s with started := true, reader := reader }.readBlock.2.view =
        { s.view with started := true } := view_readBlock _
    exact (processRoot_of_outside (by rw [hview]; exact houtside)).1

/-- Nothing is written before the root is accepted.  Whatever was done to a session, if the
operation that reads header and root fails, the sink is as it was, unless it is the sink that
failed.  And a session refuses a range there and nowhere else: where the root begins a file in
which the range does not lie. -/
theorem nothing_written_before_root (source : Source) (sink : Sink) (request : ByteRange)
    (options : ReaderOptions) (retains : Bool) (ops : List Operation) (op : Operation) :
    let s := ((new source sink request options retains).perform ops).2
    (∀ e, s.Opens op → s.outcome op = .error e →
      (s.operate op).2.sink = sink ∨
        sink.acceptsAll = false ∧ ∃ reason, e = .sinkFailed reason) ∧
    (∀ e, s.outcome op = .error e ∧ e.domain = .validation ↔
      s.Opens op ∧ ∃ header block size, AcceptsRoot source options retains header block size ∧
        OutsideFile request size ∧ e = .outsideFile request.start request.stop size) ∧
    ∀ e, s.outcome op = .error e → e.domain = .validation → e.code = 0x0202 := by
  intro s
  have hinitial := initial_new source sink request options retains
  have hnew := sound_new source sink request options retains
  have hfails (e : Error) (he : s.outcome op = .error e) : s.Fails op e (s.operate op).2 :=
    (hnew.perform hinitial ops).fails hinitial he
  have hbegins (hop : s.Opens op) : s.finished = false ∧ s.reader = { source, options } ∧
      s.layout = Layout.new retains ∧ s.request = request ∧ s.sink = sink := by
    obtain ⟨c, hs⟩ : ∃ c, s = { new source sink request options retains with
        cancelRequested := c } := hnew.perform_of_not_started hinitial hop.1
    rw [hs]
    exact ⟨rfl, rfl, rfl, rfl, rfl⟩
  clear_value s
  have hvalidation (e : Error) : s.outcome op = .error e ∧ e.domain = .validation ↔
      s.Opens op ∧ ∃ header block size, AcceptsRoot source options retains header block size ∧
        OutsideFile request size ∧ e = .outsideFile request.start request.stop size := by
    constructor
    · rintro ⟨he, hdomain⟩
      cases hfails e he with
      | unread _ _ hreading => cases hreading <;> cases hdomain
      | refused _ _ hrefuses =>
        obtain ⟨reason, rfl⟩ := hrefuses.cause
        cases hdomain
      | outside header block reader reader' _ _ hop hread hnext houtside =>
        obtain ⟨-, hreader, hlayout, hrequest, -⟩ := hbegins hop
        rw [hreader] at hread
        rw [← hrequest]
        exact ⟨hop, header, block, exists_acceptsRoot hlayout hread hnext houtside⟩
    · rintro ⟨hop, header, block, size, haccepts, hrange, rfl⟩
      obtain ⟨hf, hreader, hlayout, hrequest, -⟩ := hbegins hop
      rw [← hrequest] at hrange ⊢
      exact ⟨haccepts.refused hf hreader hlayout hrange hop, rfl⟩
  refine ⟨fun e hop he => ?_, hvalidation, fun e he hdomain => ?_⟩
  · obtain ⟨-, -, -, -, hsink⟩ := hbegins hop
    rw [← hsink]
    cases hfails e he with
    | unread _ _ _ hkept => exact Or.inl hkept
    | outside _ _ _ _ _ _ _ _ _ _ hkept => exact Or.inl hkept
    | refused _ _ hrefuses => exact Or.inr ⟨hrefuses.accepts, hrefuses.cause⟩
  · obtain ⟨-, -, -, -, -, -, rfl⟩ := (hvalidation e).1 ⟨he, hdomain⟩
    simp [Error.code, Error.domain, Error.offset, Domain.base, Domain.number, Domain.span]

/-- A file of one byte holds no second byte: the request for it is refused, and nothing is
written. -/
example :
    let body := Header.encodeBody [[0x01, 0x70, 0x00, 0x00]] 1
    let header : Bytes := UInt8.ofNat body.length :: body
    let root : Bytes := [0x0d, 0x01, 0x70, 0x00, 0x00, 0x0a, 0x07, 0x08, 0x02, 0x12, 0x01, 0x61,
      0x18, 0x01]
    let s := new (Source.ofMemory (header ++ root) 0) .unlimited (.openEnded 1) {} false
    s.outcome (.call .step) = .error (.outsideFile 1 none 1) ∧
      (s.operate (.call .step)).2.sink.writes = [] := by
  decide +kernel

end Session

end CarSlice
