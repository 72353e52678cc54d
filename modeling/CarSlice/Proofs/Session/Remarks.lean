import CarSlice.Proofs.Session.View

/-!
# What a session says on the way

A session tells of changes of its phase and of its end.  All else that it says is a remark, on a
block that could not be verified or on an archive that is not as it should be.

* `Event.remarks` lists the identifiers of remarks, and `Remarks` says that a session has made some
  and has said nothing else meanwhile.
* `said_flush`, `said_writeBlock` and so on: what says nothing.
* `remarks_readBlock` and `carried_remarks`: neither what is read nor what is done with it is told of
  by anything but remarks.
* `Remarks.filter`: events of another kind are those that were there before.
-/

namespace CarSlice

open Archive (Block Header)

/-- The identifiers of remarks. -/
def Event.remarks : List Text :=
  [utf8 "digest_unverified", utf8 "range_passthrough", utf8 "range_late_mismatch",
    utf8 "range_incomplete_dag"]

namespace Session

/-! ## What says nothing -/

theorem said_releaseSource (s : Session) : s.releaseSource.said = s.said := by
  unfold releaseSource
  split <;> rfl

theorem said_flush (s : Session) : s.flush.2.said = s.said := by
  unfold flush
  split <;> rfl

theorem said_writeBlock (s : Session) (block : Block) : (s.writeBlock block).2.said = s.said := by
  unfold writeBlock
  split <;> rfl

theorem said_noteComplete (s : Session) : s.noteComplete.said = s.said := by
  unfold noteComplete
  split <;> rfl

/-! ## Remarks -/

/-- A session that has made some remarks before it is another one, and has said nothing else. -/
def Remarks (s s' : Session) : Prop :=
  ∃ events, s'.published = s.published ++ events ∧ ∀ e ∈ events, e.id ∈ Event.remarks

theorem remarks_of_said {s s' : Session} (h : s'.said = s.said) : s.Remarks s' :=
  ⟨[], by rw [published, h, published, List.append_nil], fun e he => by cases he⟩

theorem Remarks.trans {s s' s'' : Session} (h : s.Remarks s') (h' : s'.Remarks s'') :
    s.Remarks s'' := by
  obtain ⟨events, hpublished, hremarks⟩ := h
  obtain ⟨events', hpublished', hremarks'⟩ := h'
  refine ⟨events ++ events', ?_, ?_⟩
  · rw [hpublished', hpublished, List.append_assoc]
  · intro e he
    rcases List.mem_append.1 he with hmem | hmem
    · exact hremarks e hmem
    · exact hremarks' e hmem

/-- Remarks are no events of another kind. -/
theorem Remarks.filter {s s' : Session} (h : s.Remarks s') {p : Event → Bool}
    (hp : ∀ e : Event, e.id ∈ Event.remarks → p e = false) :
    ∃ events, s'.published = s.published ++ events ∧ events.filter p = [] := by
  obtain ⟨events, hpublished, hremarks⟩ := h
  refine ⟨events, hpublished, List.filter_eq_nil_iff.2 fun e he => ?_⟩
  simp [hp e (hremarks e he)]

theorem remarks_publish {s : Session} {e : Event} (h : e.id ∈ Event.remarks) :
    s.Remarks (s.publish e) :=
  ⟨[e], by simp [published, publish], by simpa using h⟩

theorem remarks_warnNotOneFile (s : Session) (reason : Mismatch) :
    s.Remarks (s.warnNotOneFile reason) :=
  remarks_publish (by simp [warningEvent, Event.remarks])

theorem remarks_warnLate (s : Session) (reason : Mismatch) : s.Remarks (s.warnLate reason) :=
  remarks_publish (by simp [warningEvent, Event.remarks])

theorem remarks_warnEmpty (s : Session) : s.Remarks s.warnEmpty :=
  remarks_publish (by simp [warningEvent, Event.remarks])

theorem remarks_warnIncomplete (s : Session) : s.Remarks s.warnIncomplete :=
  remarks_publish (by simp [warningEvent, Event.remarks])

/-! ## Blocks -/

theorem remarks_readBlock (s : Session) : s.Remarks s.readBlock.2 := by
  unfold readBlock
  split
  · exact remarks_of_said rfl
  · exact remarks_of_said rfl
  · dsimp only
    split
    · exact (remarks_of_said rfl).trans (remarks_publish (by simp [unverifiedEvent, Event.remarks]))
    · exact remarks_of_said rfl

theorem carried_remarks : CarriedByWrites Remarks where
  trans := Remarks.trans
  selects _ _ _ _ := remarks_of_said rfl
  drops _ _ := remarks_of_said rfl
  warnsNotOneFile := remarks_warnNotOneFile
  warnsLate := remarks_warnLate
  header _ _ := remarks_of_said rfl
  block s block := remarks_of_said (s.said_writeBlock block)

end Session

end CarSlice
