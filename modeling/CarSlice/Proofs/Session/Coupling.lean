import CarSlice.Proofs.Session.View

/-!
# Two sessions side by side

Two sessions that differ only in what they read from, what they write to and the bytes of the
blocks that they handle do the same, unless the sink of the second one refuses what that of the
first one takes.

* `Coupling` is what their sinks and their frames may differ in, and what is left of the second
  sink once it has refused a write.
* `Coupling.Pairs`: two sessions that are the same apart from reader and sink.  Their readers are
  related by a `StableUnder` relation, one that lasts when both sources are closed.
* `Coupling.Follows`: two functions have come to the same result, and the sessions behind them are
  still alike, or the second one was refused a write.  `Follows.andThen` is the step from one
  function to the next, and every function of a session that does not read has its lemma
  (`follows_finish`, `follows_processRoot`, `follows_processBlock` and so on).
-/

namespace CarSlice

open Archive (Block Header Reader Writer)
open UnixFs (Content)

/-! ## Sinks -/

theorem Sink.suffix_write (k : Sink) (bytes : Bytes) : k.taken <:+ (k.write bytes).2.taken := by
  rcases hw : k.write bytes with ⟨⟨e⟩ | ⟨⟩, k'⟩
  · exact (write_of_error hw).1 ▸ List.suffix_rfl
  · rw [write_of_ok hw]
    exact List.suffix_cons bytes k.taken

theorem Sink.suffix_flush (k : Sink) : k.taken <:+ k.flush.2.taken :=
  k.flush_keeps.1 ▸ List.suffix_rfl

/-- What two sinks may differ in, and two frames that take each other's place. -/
structure Coupling where
  sinks : Sink → Sink → Prop
  frames : Bytes → Bytes → Prop
  /-- A sink, the failure of another one that has refused a write, and what is left of that one. -/
  parted : Sink → Error → Sink → Prop
  frames_refl (frame : Bytes) : frames frame frame
  length_eq {f f' : Bytes} : frames f f' → f'.length = f.length
  flush {k k' : Sink} : sinks k k' → k'.flush.1 = k.flush.1 ∧ sinks k.flush.2 k'.flush.2
  write {k k' : Sink} {f f' : Bytes} : sinks k k' → frames f f' →
    (k'.write f').1 = (k.write f).1 ∧ sinks (k.write f).2 (k'.write f').2 ∨
      ∃ e, (k'.write f').1 = .error e ∧ parted (k.write f).2 e (k'.write f').2
  /-- It does not matter what the first sink takes afterwards. -/
  grows {k l k' : Sink} {e : Error} : parted k e k' → k.taken <:+ l.taken → parted l e k'

namespace Coupling

theorem length_of_eq {f f' : Bytes} (h : f' = f) : f'.length = f.length := by
  rw [h]

/-- Two sinks that are the same. -/
def same : Coupling where
  sinks k k' := k' = k
  frames f f' := f' = f
  parted _ _ _ := False
  frames_refl _ := rfl
  length_eq h := length_of_eq h
  flush h := by
    subst h
    exact ⟨rfl, rfl⟩
  write h hf := by
    subst h hf
    exact Or.inl ⟨rfl, rfl⟩
  grows h _ := h

/-- Two blocks that are told apart by nothing but the bytes of their frames. -/
structure Blocks (C : Coupling) (b b' : Block) : Prop where
  cid : b'.cid = b.cid
  content : Content.ofBlock b' = Content.ofBlock b
  frame : C.frames b.frame b'.frame

theorem blocks_refl (C : Coupling) (b : Block) : C.Blocks b b :=
  ⟨rfl, rfl, C.frames_refl b.frame⟩

/-! ## Writers -/

/-- What came of a writer, and of one with another sink. -/
structure Emits (C : Coupling) (w : Writer) (x y : Except Error Unit × Writer) : Prop where
  grows : w.sink.taken <:+ x.2.sink.taken
  follows : y.1 = x.1 ∧ (∃ sink, y.2 = { x.2 with sink } ∧ C.sinks x.2.sink sink) ∨
    ∃ e, y.1 = .error e ∧ C.parted x.2.sink e y.2.sink

section

variable {C : Coupling} {w : Writer} {sink : Sink} (h : C.sinks w.sink sink)

include h

theorem emits_emit {f f' : Bytes} (hf : C.frames f f') :
    C.Emits w (w.emit f) ({ w with sink }.emit f') := by
  have hgrows := w.sink.suffix_write f
  have hwrite := C.write h hf
  unfold Writer.emit
  rcases hleft : w.sink.write f with ⟨⟨e⟩ | ⟨⟩, k⟩
  · rcases hright : sink.write f' with ⟨⟨e'⟩ | ⟨⟩, k'⟩
    · rw [hleft, hright] at hwrite
      rw [hleft] at hgrows
      refine ⟨hgrows, ?_⟩
      rcases hwrite with ⟨hsame, hsinks⟩ | hparted
      · exact Or.inl ⟨hsame, k', rfl, hsinks⟩
      · exact Or.inr hparted
    · rw [hleft, hright] at hwrite
      rcases hwrite with ⟨hsame, -⟩ | ⟨e', herror, -⟩
      · cases hsame
      · cases herror
  · rcases hright : sink.write f' with ⟨⟨e'⟩ | ⟨⟩, k'⟩
    · rw [hleft, hright] at hwrite
      rw [hleft] at hgrows
      refine ⟨hgrows, ?_⟩
      rcases hwrite with ⟨hsame, -⟩ | hparted
      · cases hsame
      · exact Or.inr hparted
    · rw [hleft, hright] at hwrite
      rw [hleft] at hgrows
      refine ⟨hgrows, ?_⟩
      rcases hwrite with ⟨-, hsinks⟩ | ⟨e', herror, -⟩
      · left
        refine ⟨rfl, k', ?_, hsinks⟩
        dsimp only
        rw [C.length_eq hf]
      · cases herror

/-- What is counted behind a write that goes through is no reason to differ. -/
theorem emits_counted {f f' : Bytes} (hf : C.frames f f') (count : Writer → Writer)
    (hcount : ∀ (w : Writer) (sink : Sink), count { w with sink } = { count w with sink }) :
    C.Emits w
      (match w.emit f with
      | (.error e, w) => (.error e, w)
      | (.ok (), w) => (.ok (), count w))
      (match { w with sink }.emit f' with
      | (.error e, w) => (.error e, w)
      | (.ok (), w) => (.ok (), count w)) := by
  have hsink (w : Writer) : (count w).sink = w.sink := by
    have hsame := congrArg Writer.sink (hcount w w.sink)
    exact hsame
  obtain ⟨hgrows, hfollows⟩ := emits_emit h hf
  generalize w.emit f = x at hgrows hfollows
  generalize { w with sink }.emit f' = y at hfollows
  rcases x with ⟨⟨e⟩ | ⟨⟩, w₁⟩
  · refine ⟨hgrows, ?_⟩
    rcases hfollows with ⟨hsame, hsinks⟩ | ⟨e', herror, hparted⟩
    · rcases y with ⟨result, w₂⟩
      obtain rfl : result = .error e := hsame
      exact Or.inl ⟨rfl, hsinks⟩
    · rcases y with ⟨result, w₂⟩
      obtain rfl : result = .error e' := herror
      exact Or.inr ⟨e', rfl, hparted⟩
  · refine ⟨(hsink w₁).symm ▸ hgrows, ?_⟩
    rcases hfollows with ⟨hsame, sink', hwriter, hsinks⟩ | ⟨e', herror, hparted⟩
    · rcases y with ⟨result, w₂⟩
      obtain rfl : result = .ok () := hsame
      obtain rfl : w₂ = { w₁ with sink := sink' } := hwriter
      refine Or.inl ⟨rfl, sink', hcount w₁ sink', ?_⟩
      rw [hsink]
      exact hsinks
    · rcases y with ⟨result, w₂⟩
      obtain rfl : result = .error e' := herror
      refine Or.inr ⟨e', rfl, ?_⟩
      show C.parted (count w₁).sink e' w₂.sink
      rw [hsink]
      exact hparted

theorem emits_writeHeader {f f' : Bytes} (hf : C.frames f f') :
    C.Emits w (w.writeHeader f) ({ w with sink }.writeHeader f') := by
  unfold Writer.writeHeader
  show C.Emits w _ (if w.headerWritten = true then _ else _)
  split
  · exact ⟨List.suffix_rfl, Or.inl ⟨rfl, sink, rfl, h⟩⟩
  · exact emits_counted h hf (fun w => { w with headerWritten := true }) fun _ _ => rfl

theorem emits_writeBlock {f f' : Bytes} (hf : C.frames f f') :
    C.Emits w (w.writeBlock f) ({ w with sink }.writeBlock f') := by
  unfold Writer.writeBlock
  show C.Emits w _ (if w.headerWritten = true then _ else _)
  split
  · exact emits_counted h hf (fun w => { w with blocksWritten := w.blocksWritten + 1 })
      fun _ _ => rfl
  · exact ⟨List.suffix_rfl, Or.inl ⟨rfl, sink, rfl, h⟩⟩

end

end Coupling

/-! ## Readers -/

/-- A relation of readers that lasts when both sources are closed.  Related readers have counted
the same. -/
structure StableUnder (Q : Reader → Reader → Prop) : Prop where
  close {r r' : Reader} : Q r r' → Q { r with source := r.source.close }
    { r' with source := r'.source.close }
  bytesConsumed {r r' : Reader} : Q r r' → r'.bytesConsumed = r.bytesConsumed
  unverified {r r' : Reader} : Q r r' → r'.unverified = r.unverified

theorem stableUnder_same : StableUnder fun r r' => r' = r where
  close h := by rw [h]
  bytesConsumed h := by rw [h]
  unverified h := by rw [h]

/-! ## Sessions -/

namespace Session

/-- The same session with another reader and another sink. -/
def across (s : Session) (reader : Reader) (sink : Sink) : Session :=
  { s with reader, writer := { s.writer with sink } }

/-- Goes on behind what did not fail. -/
def andThen {α β : Type} (x : Except Error α × Session)
    (f : α → Session → Except Error β × Session) : Except Error β × Session :=
  match x with
  | (.error e, s) => (.error e, s)
  | (.ok a, s) => f a s

/-- What a session does with an archive without blocks. -/
def beginEmpty (s : Session) (header : Header) : Except Error Unit × Session :=
  match s.passThrough.writeHeader header with
  | (.error e, s) => (.error e, s)
  | (.ok (), s) => s.warnEmpty.finish

end Session

namespace Coupling

open Session (andThen)

/-- Two sessions that are the same apart from their readers and their sinks. -/
def Pairs (C : Coupling) (Q : Reader → Reader → Prop) (s t : Session) : Prop :=
  ∃ reader sink, t = s.across reader sink ∧ Q s.reader reader ∧ C.sinks s.sink sink

/-- What came of a session, and of one that is the same apart from its reader and its sink. -/
structure Follows (C : Coupling) (Q : Reader → Reader → Prop) {α : Type} (s : Session)
    (x y : Except Error α × Session) : Prop where
  grows : s.sink.taken <:+ x.2.sink.taken
  follows : y.1 = x.1 ∧ C.Pairs Q x.2 y.2 ∨
    ∃ e, y.1 = .error e ∧ C.parted x.2.sink e y.2.sink

theorem pairs_same (s : Session) : same.Pairs (fun r r' => r' = r) s s :=
  ⟨s.reader, s.sink, rfl, rfl, rfl⟩

section

variable {C : Coupling} {Q : Reader → Reader → Prop} {s t : Session}

theorem Pairs.phase (h : C.Pairs Q s t) : t.phase = s.phase := by
  obtain ⟨reader, sink, rfl, -, -⟩ := h
  rfl

theorem Pairs.follows {α : Type} {u : Session} (h : C.Pairs Q s t)
    (hgrows : u.sink.taken <:+ s.sink.taken) (result : Except Error α) :
    C.Follows Q u (result, s) (result, t) :=
  ⟨hgrows, Or.inl ⟨rfl, h⟩⟩

theorem Follows.after {α : Type} {u : Session} {x y : Except Error α × Session}
    (h : C.Follows Q s x y) (hgrows : u.sink.taken <:+ s.sink.taken) : C.Follows Q u x y :=
  ⟨hgrows.trans h.grows, h.follows⟩

/-- Two functions that are alike on sessions that are alike go on alike.  If the second session
was refused a write, it is left behind, and the first one only writes more. -/
theorem Follows.andThen {α β : Type} {x y : Except Error α × Session}
    {f g : α → Session → Except Error β × Session} (h : C.Follows Q s x y)
    (hf : ∀ (a : α) (s t : Session), C.Pairs Q s t → C.Follows Q s (f a s) (g a t))
    (hgrows : ∀ (a : α) (s : Session), s.sink.taken <:+ (f a s).2.sink.taken) :
    C.Follows Q s (andThen x f) (andThen y g) := by
  obtain ⟨hbefore, hfollows⟩ := h
  have hafter : x.2.sink.taken <:+ (Session.andThen x f).2.sink.taken := by
    rcases x with ⟨e | a, s₁⟩
    · exact List.suffix_rfl
    · exact hgrows a s₁
  refine ⟨hbefore.trans hafter, ?_⟩
  rcases hfollows with ⟨hsame, hpairs⟩ | ⟨e, herror, hparted⟩
  · rcases x with ⟨result, s₁⟩
    rcases y with ⟨result', t₁⟩
    obtain rfl : result' = result := hsame
    cases result' with
    | error e => exact Or.inl ⟨rfl, hpairs⟩
    | ok a => exact (hf a s₁ t₁ hpairs).follows
  · rcases y with ⟨result, t₁⟩
    obtain rfl : result = .error e := herror
    exact Or.inr ⟨e, rfl, C.grows hparted hafter⟩

/-! ## What does not write -/

theorem Pairs.noteComplete (h : C.Pairs Q s t) : C.Pairs Q s.noteComplete t.noteComplete := by
  obtain ⟨reader, sink, rfl, hreaders, hsinks⟩ := h
  unfold Session.noteComplete
  show C.Pairs Q _ (if s.layout.isComplete = true then _ else _)
  split
  · exact ⟨reader, sink, rfl, hreaders, hsinks⟩
  · exact ⟨reader, sink, rfl, hreaders, hsinks⟩

theorem Pairs.notePhase (h : C.Pairs Q s t) (before : Phase) :
    C.Pairs Q (s.notePhase before) (t.notePhase before) := by
  obtain ⟨reader, sink, rfl, hreaders, hsinks⟩ := h
  unfold Session.notePhase
  show C.Pairs Q _ (if s.phase = before then _ else _)
  split
  · exact ⟨reader, sink, rfl, hreaders, hsinks⟩
  · exact ⟨reader, sink, rfl, hreaders, hsinks⟩

theorem Pairs.warnOfMismatch (h : C.Pairs Q s t) (placement : Placement) :
    C.Pairs Q (s.warnOfMismatch placement) (t.warnOfMismatch placement) := by
  obtain ⟨reader, sink, rfl, hreaders, hsinks⟩ := h
  unfold Session.warnOfMismatch
  cases placement with
  | mismatch offset reason =>
    show C.Pairs Q _ (if s.selection.any (·.lateMismatch) = true then _ else _)
    dsimp only
    split
    · exact ⟨reader, sink, rfl, hreaders, hsinks⟩
    · exact ⟨reader, sink, rfl, hreaders, hsinks⟩
  | structural _ | leaf _ | detached _ => exact ⟨reader, sink, rfl, hreaders, hsinks⟩

theorem Pairs.releaseSource (hQ : StableUnder Q) (h : C.Pairs Q s t) :
    C.Pairs Q s.releaseSource t.releaseSource := by
  obtain ⟨reader, sink, rfl, hreaders, hsinks⟩ := h
  unfold Session.releaseSource
  show C.Pairs Q _ (if (s.stats.cancelled || s.phase == .satisfied) = true then _ else _)
  split
  · exact ⟨_, sink, rfl, hQ.close hreaders, hsinks⟩
  · exact ⟨reader, sink, rfl, hreaders, hsinks⟩

theorem Pairs.fail (hQ : StableUnder Q) (h : C.Pairs Q s t) (e : Error) :
    C.Pairs Q (s.fail e) (t.fail e) := by
  obtain ⟨reader, sink, rfl, hreaders, hsinks⟩ := h
  exact ⟨_, sink, rfl, hQ.close hreaders, hsinks⟩

/-- What to do with the archive depends on the root and on nothing that the sessions differ in. -/
theorem follows_selectByRoot (h : C.Pairs Q s t) (header : Header) {b b' : Block}
    (hb : C.Blocks b b') :
    C.Follows Q s (s.selectByRoot header b) (t.selectByRoot header b') := by
  obtain ⟨reader, sink, rfl, hreaders, hsinks⟩ := h
  have hplace : (s.across reader sink).placeRoot header b' = s.placeRoot header b := by
    unfold Session.placeRoot
    rw [hb.cid, hb.content]
    rfl
  have hrequest : (s.across reader sink).request = s.request := rfl
  unfold Session.selectByRoot
  rw [hplace, hrequest]
  cases s.placeRoot header b with
  | mk placement layout =>
    cases placement with
    | mismatch offset reason =>
      exact ⟨List.suffix_rfl, Or.inl ⟨rfl, reader, sink, rfl, hreaders, hsinks⟩⟩
    | structural _ | leaf _ | detached _ =>
      dsimp only
      cases s.request.resolve (layout.fileSize.getD 0) with
      | error e => exact ⟨List.suffix_rfl, Or.inl ⟨rfl, reader, sink, rfl, hreaders, hsinks⟩⟩
      | ok stop => exact ⟨List.suffix_rfl, Or.inl ⟨rfl, reader, sink, rfl, hreaders, hsinks⟩⟩

/-! ## Writes -/

/-- What a writer does is what the session does that leaves the rest alone. -/
theorem Emits.follows_session {reader : Reader} {x y : Except Error Unit × Writer}
    (h : C.Emits s.writer x y) (hreaders : Q s.reader reader) :
    C.Follows Q s (x.1, { s with writer := x.2 }) (y.1, { s with reader, writer := y.2 }) := by
  refine ⟨h.grows, ?_⟩
  rcases h.follows with ⟨hsame, sink, hwriter, hsinks⟩ | hparted
  · exact Or.inl ⟨hsame, reader, sink, by rw [hwriter]; rfl, hreaders, hsinks⟩
  · exact Or.inr hparted

theorem follows_writeHeader (h : C.Pairs Q s t) (header : Header) :
    C.Follows Q s (s.writeHeader header) (t.writeHeader header) := by
  obtain ⟨reader, sink, rfl, hreaders, hsinks⟩ := h
  exact (emits_writeHeader hsinks (C.frames_refl header.frame)).follows_session hreaders

/-- A block that was written is counted. -/
theorem writeBlock_eq (s : Session) (block : Block) :
    s.writeBlock block = andThen
      ((s.writer.writeBlock block.frame).1,
        { s with writer := (s.writer.writeBlock block.frame).2 })
      fun _ s => (.ok (), { s with stats := { s.stats with blocksOut := s.stats.blocksOut + 1 } }) := by
  unfold Session.writeBlock
  rcases s.writer.writeBlock block.frame with ⟨⟨e⟩ | ⟨⟩, writer⟩
  · rfl
  · rfl

theorem follows_writeBlock (h : C.Pairs Q s t) {b b' : Block} (hb : C.Blocks b b') :
    C.Follows Q s (s.writeBlock b) (t.writeBlock b') := by
  obtain ⟨reader, sink, rfl, hreaders, hsinks⟩ := h
  have hemits := (emits_writeBlock hsinks hb.frame).follows_session (s := s) hreaders
  rw [writeBlock_eq, writeBlock_eq]
  apply hemits.andThen
  · rintro - s₁ - ⟨reader₁, sink₁, rfl, hreaders₁, hsinks₁⟩
    exact ⟨List.suffix_rfl, Or.inl ⟨rfl, reader₁, sink₁, rfl, hreaders₁, hsinks₁⟩⟩
  · exact fun _ _ => List.suffix_rfl

/-! ## Ends -/

theorem follows_flush (h : C.Pairs Q s t) : C.Follows Q s s.flush t.flush := by
  obtain ⟨reader, sink, rfl, hreaders, hsinks⟩ := h
  obtain ⟨hresult, hflushed⟩ := C.flush hsinks
  unfold Session.flush
  show C.Follows Q s _ (if s.writer.headerWritten = true then _ else _)
  split
  · exact ⟨s.sink.suffix_flush, Or.inl ⟨hresult, reader, sink.flush.2, rfl, hreaders, hflushed⟩⟩
  · exact ⟨List.suffix_rfl, Or.inl ⟨rfl, reader, sink, rfl, hreaders, hsinks⟩⟩

theorem finish_eq (s : Session) :
    s.finish = andThen ({ s with finished := true }.releaseSource).flush fun _ s₁ =>
      (.ok (), s₁.reported) := by
  have hfinishes := s.finishesAs_finish
  generalize s.finish = result at hfinishes
  cases hfinishes with
  | refused e s₁ hflush => rw [hflush, andThen]
  | flushed s₁ hflush => rw [hflush, andThen]

theorem follows_finish (hQ : StableUnder Q) (h : C.Pairs Q s t) :
    C.Follows Q s s.finish t.finish := by
  have hfinished : C.Pairs Q { s with finished := true } { t with finished := true } := by
    obtain ⟨reader, sink, rfl, hreaders, hsinks⟩ := h
    exact ⟨reader, sink, rfl, hreaders, hsinks⟩
  have hsink : { s with finished := true }.releaseSource.sink = s.sink := by
    unfold Session.releaseSource
    split <;> rfl
  have hflush := follows_flush (hfinished.releaseSource hQ)
  rw [finish_eq, finish_eq]
  apply (hflush.after (u := s) (hsink ▸ List.suffix_rfl)).andThen
  · rintro - s₁ - ⟨reader₁, sink₁, rfl, hreaders₁, hsinks₁⟩
    have hstats : (s₁.across reader₁ sink₁).finalStats = s₁.finalStats := by
      unfold Session.finalStats Session.across
      rw [hQ.bytesConsumed hreaders₁, hQ.unverified hreaders₁]
      rfl
    refine ⟨List.suffix_rfl, Or.inl ⟨rfl, reader₁, sink₁, ?_, hreaders₁, hsinks₁⟩⟩
    dsimp only
    rw [Session.reported, hstats]
    rfl
  · exact fun _ _ => List.suffix_rfl

theorem suffix_finish (s : Session) : s.sink.taken <:+ s.finish.2.sink.taken :=
  (follows_finish stableUnder_same (pairs_same s)).grows

theorem follows_settle (hQ : StableUnder Q) (h : C.Pairs Q s t) (before : Phase) :
    C.Follows Q s (s.settle before) (t.settle before) := by
  have hnoted := h.noteComplete.notePhase before
  have hsink : (s.noteComplete.notePhase before).sink = s.sink :=
    congrArg Writer.sink (s.writer_noted before)
  unfold Session.settle Session.finishIfSatisfied
  rw [hnoted.phase]
  split
  · exact (follows_finish hQ hnoted).after (hsink ▸ List.suffix_rfl)
  · exact hnoted.follows (hsink ▸ List.suffix_rfl) _

theorem suffix_settle (s : Session) (before : Phase) :
    s.sink.taken <:+ (s.settle before).2.sink.taken :=
  (follows_settle stableUnder_same (pairs_same s) before).grows

/-! ## Blocks -/

theorem handleRoot_eq (s : Session) (header : Header) (block : Block) :
    s.handleRoot header block = andThen (s.selectByRoot header block) fun _ s₁ =>
      andThen (s₁.writeHeader header) fun _ s₂ => s₂.writeBlock block := by
  have hhandles := s.handlesRoot_handleRoot header block
  generalize s.handleRoot header block = result at hhandles
  cases hhandles with
  | unselected e s₁ hselect => rw [hselect, andThen]
  | headless e s₁ s₂ hselect hheader => rw [hselect, andThen, hheader, andThen]
  | headed s₁ s₂ hselect hheader => rw [hselect, andThen, hheader, andThen]

theorem follows_writeRoot (h : C.Pairs Q s t) (header : Header) {b b' : Block}
    (hb : C.Blocks b b') :
    C.Follows Q s (andThen (s.writeHeader header) fun _ s₁ => s₁.writeBlock b)
      (andThen (t.writeHeader header) fun _ t₁ => t₁.writeBlock b') := by
  apply (follows_writeHeader h header).andThen
  · exact fun _ _ _ h₁ => follows_writeBlock h₁ hb
  · exact fun _ s₁ =>
      (follows_writeBlock (pairs_same s₁) (blocks_refl same b)).grows

theorem follows_handleRoot (h : C.Pairs Q s t) (header : Header) {b b' : Block}
    (hb : C.Blocks b b') :
    C.Follows Q s (s.handleRoot header b) (t.handleRoot header b') := by
  rw [handleRoot_eq, handleRoot_eq]
  apply (follows_selectByRoot h header hb).andThen
  · exact fun _ _ _ h₁ => follows_writeRoot h₁ header hb
  · exact fun _ s₁ => (follows_writeRoot (pairs_same s₁) header (blocks_refl same b)).grows

theorem eq_of_settlesWork {work result : Except Error Unit × Session}
    (h : s.SettlesWork work result) :
    result = andThen work fun _ s₁ => s₁.settle s.phase := by
  cases h with
  | failed => rfl
  | settled => rfl

/-- Work that is alike is settled alike. -/
theorem Follows.settles (hQ : StableUnder Q) (h : C.Pairs Q s t)
    {x y x' y' : Except Error Unit × Session} (hwork : C.Follows Q s x y)
    (hx : s.SettlesWork x x') (hy : t.SettlesWork y y') : C.Follows Q s x' y' := by
  rw [eq_of_settlesWork hx, eq_of_settlesWork hy, h.phase]
  apply hwork.andThen
  · exact fun _ _ _ h₁ => follows_settle hQ h₁ s.phase
  · exact fun _ s₁ => suffix_settle s₁ s.phase

theorem follows_processRoot (hQ : StableUnder Q) (h : C.Pairs Q s t) (header : Header)
    {b b' : Block} (hb : C.Blocks b b') :
    C.Follows Q s (s.processRoot header b) (t.processRoot header b') :=
  (follows_handleRoot h header hb).settles hQ h (s.settlesWork_processRoot header b)
    (t.settlesWork_processRoot header b')

theorem follows_carryOut (h : C.Pairs Q s t) (decision : Decision) {b b' : Block}
    (hb : C.Blocks b b') : C.Follows Q s (s.carryOut decision b) (t.carryOut decision b') := by
  cases decision with
  | emit => exact follows_writeBlock h hb
  | drop =>
    obtain ⟨reader, sink, rfl, hreaders, hsinks⟩ := h
    exact ⟨List.suffix_rfl, Or.inl ⟨rfl, reader, sink, rfl, hreaders, hsinks⟩⟩

theorem selectBlock_eq (s : Session) (selection : Selection) (block : Block) :
    s.selectBlock selection block =
      andThen ((s.decided selection block).carryOut
          (selection.decide (s.layout.place (.ofBlock block)).1).1 block)
        fun _ s₁ => (.ok (), s₁.warnOfMismatch (s.layout.place (.ofBlock block)).1) := by
  have hselects := s.selectsBlock_selectBlock selection block
  generalize s.selectBlock selection block = result at hselects
  cases hselects with
  | refused e s₁ hcarried => rw [hcarried, andThen]
  | carried s₁ hcarried => rw [hcarried, andThen]

theorem sink_warnOfMismatch (s : Session) (placement : Placement) :
    (s.warnOfMismatch placement).sink = s.sink :=
  congrArg Writer.sink (s.writer_warnOfMismatch placement)

theorem follows_selectBlock (h : C.Pairs Q s t) (selection : Selection) {b b' : Block}
    (hb : C.Blocks b b') :
    C.Follows Q s (s.selectBlock selection b) (t.selectBlock selection b') := by
  have hlayout : t.layout = s.layout := by
    obtain ⟨reader, sink, rfl, -, -⟩ := h
    rfl
  have hdecided : C.Pairs Q (s.decided selection b) (t.decided selection b') := by
    obtain ⟨reader, sink, rfl, hreaders, hsinks⟩ := h
    unfold Session.decided
    rw [hb.content]
    exact ⟨reader, sink, rfl, hreaders, hsinks⟩
  rw [selectBlock_eq, selectBlock_eq, hb.content, hlayout]
  have hcarried := follows_carryOut hdecided
    (selection.decide (s.layout.place (.ofBlock b)).1).1 hb
  apply (hcarried.after (u := s) List.suffix_rfl).andThen
  · intro _ s₁ t₁ h₁
    exact (h₁.warnOfMismatch _).follows (sink_warnOfMismatch s₁ _ ▸ List.suffix_rfl) _
  · intro _ s₁
    exact sink_warnOfMismatch s₁ _ ▸ List.suffix_rfl

theorem follows_handleBlock (h : C.Pairs Q s t) {b b' : Block} (hb : C.Blocks b b') :
    C.Follows Q s (s.handleBlock b) (t.handleBlock b') := by
  have hselection : t.selection = s.selection := by
    obtain ⟨reader, sink, rfl, -, -⟩ := h
    rfl
  unfold Session.handleBlock
  rw [hselection]
  cases s.selection with
  | none => exact follows_writeBlock h hb
  | some selection =>
    dsimp only
    split
    · exact follows_writeBlock h hb
    · exact follows_selectBlock h selection hb

theorem follows_processBlock (hQ : StableUnder Q) (h : C.Pairs Q s t) {b b' : Block}
    (hb : C.Blocks b b') : C.Follows Q s (s.processBlock b) (t.processBlock b') :=
  (follows_handleBlock h hb).settles hQ h (s.settlesWork_processBlock b)
    (t.settlesWork_processBlock b')

/-! ## Where no block comes -/

theorem follows_endOfArchive (hQ : StableUnder Q) (h : C.Pairs Q s t) :
    C.Follows Q s s.endOfArchive t.endOfArchive := by
  obtain ⟨reader, sink, rfl, hreaders, hsinks⟩ := h
  have hpairs : C.Pairs Q s (s.across reader sink) := ⟨reader, sink, rfl, hreaders, hsinks⟩
  unfold Session.endOfArchive
  show C.Follows Q s _ (if s.phase ≠ .passthrough ∧ s.layout.isIncomplete = true then _ else _)
  split
  · have hwarned : C.Pairs Q
        ({ s with stats := { s.stats with incompleteFile := true } } : Session).warnIncomplete
        ({ s.across reader sink with
          stats := { (s.across reader sink).stats with incompleteFile := true } } :
            Session).warnIncomplete :=
      ⟨reader, sink, rfl, hreaders, hsinks⟩
    exact (follows_finish hQ hwarned).after List.suffix_rfl
  · exact follows_finish hQ hpairs

theorem beginEmpty_eq (s : Session) (header : Header) :
    s.beginEmpty header =
      andThen (s.passThrough.writeHeader header) fun _ s₁ => s₁.warnEmpty.finish := by
  unfold Session.beginEmpty
  rcases s.passThrough.writeHeader header with ⟨⟨e⟩ | ⟨⟩, s₁⟩
  · rfl
  · rfl

theorem follows_beginEmpty (hQ : StableUnder Q) (h : C.Pairs Q s t) (header : Header) :
    C.Follows Q s (s.beginEmpty header) (t.beginEmpty header) := by
  have hpasses : C.Pairs Q s.passThrough t.passThrough := by
    obtain ⟨reader, sink, rfl, hreaders, hsinks⟩ := h
    exact ⟨reader, sink, rfl, hreaders, hsinks⟩
  rw [beginEmpty_eq, beginEmpty_eq]
  apply ((follows_writeHeader hpasses header).after (u := s) List.suffix_rfl).andThen
  · rintro - s₁ - ⟨reader₁, sink₁, rfl, hreaders₁, hsinks₁⟩
    have hwarned : C.Pairs Q s₁.warnEmpty (s₁.across reader₁ sink₁).warnEmpty :=
      ⟨reader₁, sink₁, rfl, hreaders₁, hsinks₁⟩
    exact (follows_finish hQ hwarned).after List.suffix_rfl
  · exact fun _ s₁ => suffix_finish s₁.warnEmpty

theorem follows_stop (hQ : StableUnder Q) (h : C.Pairs Q s t) : C.Follows Q s s.stop t.stop := by
  obtain ⟨reader, sink, rfl, hreaders, hsinks⟩ := h
  have hcancelled : C.Pairs Q
      { s with started := true, stats := { s.stats with cancelled := true } }
      { s.across reader sink with
        started := true
        stats := { (s.across reader sink).stats with cancelled := true } } :=
    ⟨reader, sink, rfl, hreaders, hsinks⟩
  exact (follows_finish hQ hcancelled).after List.suffix_rfl

end

end Coupling

end CarSlice
