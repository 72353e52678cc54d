import CarSlice.Archive.Progress
import CarSlice.Session.Carried

/-!
# Running a session to its end

`run` repeats `step` as long as there is more to do. It ends because a step after
which there is more to do has read a block, and a block takes bytes from the
source (`remaining_lt_of_step`).
-/

namespace CarSlice.Session

open Archive (Block Header Reader)

/-- How many bytes of the source are left. -/
def remaining (s : Session) : Nat :=
  s.reader.remaining

/-! ## What takes no bytes -/

theorem remaining_releaseSource (s : Session) : s.releaseSource.remaining = s.remaining := by
  unfold releaseSource
  split <;> rfl

theorem finished_releaseSource (s : Session) : s.releaseSource.finished = s.finished := by
  unfold releaseSource
  split <;> rfl

theorem remaining_flush (s : Session) : s.flush.2.remaining = s.remaining := by
  unfold flush
  split <;> rfl

theorem finished_flush (s : Session) : s.flush.2.finished = s.finished := by
  unfold flush
  split <;> rfl

theorem remaining_finish (s : Session) : s.finish.2.remaining = s.remaining :=
  (finish_keeps remaining (fun _ => rfl) s).trans
    ((remaining_flush _).trans (remaining_releaseSource _))

theorem finished_finish (s : Session) : s.finish.2.finished = true :=
  (finish_keeps finished (fun _ => rfl) s).trans
    ((finished_flush _).trans (finished_releaseSource _))

theorem Keeps.remaining {s s' : Session} (h : s.Keeps s') : s'.remaining = s.remaining :=
  congrArg Reader.remaining h.reader

theorem remaining_settle (s : Session) (before : Phase) :
    (s.settle before).2.remaining = s.remaining := by
  have hnoted := (s.keeps_noted before).remaining
  have hsettles := s.settlesAs_settle before
  generalize s.settle before = result at hsettles
  cases hsettles with
  | ended => rw [remaining_finish, hnoted]
  | goesOn => exact hnoted

/-- Nothing that is done with a block takes bytes. -/
theorem SettlesWork.remaining {s : Session} {work result : Except Error Unit × Session}
    (h : s.SettlesWork work result) (hkeeps : s.Keeps work.2) :
    result.2.remaining = s.remaining := by
  cases h with
  | failed e s₁ => exact hkeeps.remaining
  | settled s₁ => exact (s₁.remaining_settle s.phase).trans hkeeps.remaining

/-! ## What takes bytes -/

theorem finished_endOfArchive (s : Session) : s.endOfArchive.2.finished = true := by
  have hends := s.endsArchive_endOfArchive
  generalize s.endOfArchive = result at hends
  cases hends with
  | incomplete => exact finished_finish _
  | complete => exact s.finished_finish

/-- Reading a block takes bytes. -/
theorem remaining_readBlock_lt {s : Session} {block : Block} {reader : Reader}
    (h : s.reader.next = (.ok (some block), reader)) : s.readBlock.2.remaining < s.remaining := by
  obtain ⟨blocksIn, said, hread⟩ := s.readBlock_eq
  rw [hread, h]
  exact Reader.remaining_next_lt h

/-- A session that goes on behind the root has read a block. -/
theorem remaining_advance_lt {s : Session} (hok : s.advance.1 = .ok ())
    (hf : s.advance.2.finished = false) : s.advance.2.remaining < s.remaining := by
  have hreads := s.readsNext_advance
  generalize s.advance = result at hreads hok hf
  cases hreads with
  | unread e => cases hok
  | exhausted reader =>
    rw [finished_endOfArchive] at hf
    cases hf
  | block block reader hnext =>
    have hsettles := s.readBlock.2.settlesWork_processBlock block
    rw [hsettles.remaining (s.readBlock.2.keeps_handleBlock block)]
    exact remaining_readBlock_lt hnext

/-- A session that goes on after its root has read a block. -/
theorem remaining_begin_lt {s : Session} (hok : s.begin.1 = .ok ())
    (hf : s.begin.2.finished = false) : s.begin.2.remaining < s.remaining := by
  have hheader := s.reader.remaining_readHeader_le
  have hreads := s.readsFirst_begin
  generalize s.begin = result at hreads hok hf
  cases hreads with
  | noHeader e => cases hok
  | noBlock header e => cases hok
  | refused header e => cases hok
  | empty header reader reader' s₁ =>
    rw [finished_finish] at hf
    cases hf
  | root header block reader reader' hread hnext =>
    rw [hread] at hheader
    have hsettles := { s with reader }.readBlock.2.settlesWork_processRoot header block
    rw [hsettles.remaining (keeps_handleRoot _ header block)]
    exact Nat.lt_of_lt_of_le (remaining_readBlock_lt (s := { s with reader }) hnext) hheader

theorem of_concluded_more {result : Except Error Unit × Session}
    (h : (concluded result).1 = .ok true) :
    result.1 = .ok () ∧ result.2.finished = false ∧ (concluded result).2 = result.2 := by
  have hok : result.1 = .ok () := by
    rw [← map_concluded, h]
    rfl
  rw [concluded_of_ok hok] at h ⊢
  exact ⟨hok, by simpa using h, rfl⟩

/-- A step after which there is more to do has taken bytes from the source. -/
theorem remaining_step_lt {s : Session} (h : s.step.1 = .ok true) :
    s.step.2.remaining < s.remaining := by
  have hsteps := s.stepsAs_step
  generalize s.step = result at hsteps h ⊢
  cases hsteps with
  | idle => cases h
  | stopped =>
    rcases hstop : s.stop.1 with e | ⟨⟩
    · rw [hstop] at h
      cases h
    · rw [hstop] at h
      cases h
  | advanced =>
    obtain ⟨hok, hgoes, hafter⟩ := of_concluded_more h
    rw [hafter]
    exact remaining_advance_lt hok hgoes
  | begun =>
    obtain ⟨hok, hgoes, hafter⟩ := of_concluded_more h
    rw [hafter]
    exact remaining_begin_lt (s := { s with started := true }) hok hgoes

theorem remaining_lt_of_step {s s' : Session} (h : s.step = (.ok true, s')) :
    s'.remaining < s.remaining := by
  have hlt := remaining_step_lt (congrArg Prod.fst h)
  rwa [h] at hlt

/-! ## The run -/

/-- Steps until there is nothing more to do or a step fails. -/
def run (s : Session) : Except Error Unit × Session :=
  match _h : s.step with
  | (.error e, s) => (.error e, s)
  | (.ok false, s) => (.ok (), s)
  | (.ok true, s) => s.run
termination_by s.remaining
decreasing_by exact remaining_lt_of_step _h

end CarSlice.Session
