import CarSlice.Proofs.Session.Operations

/-!
# The count of blocks that were read

A session counts a block when it has read it, before it knows what will become of it.  Nothing
else touches this count, be it an end or a failure.  So the count behind any row of operations is
the number of blocks that the row has handled (`blocksIn_perform`).
-/

namespace CarSlice

open Archive (Block Header Reader)

namespace Session

/-! ## What reads no block -/

theorem blocksIn_flush (s : Session) : s.flush.2.stats.blocksIn = s.stats.blocksIn := by
  unfold flush
  split <;> rfl

theorem blocksIn_finish (s : Session) : s.finish.2.stats.blocksIn = s.stats.blocksIn := by
  have hrelease : { s with finished := true }.releaseSource.stats.blocksIn = s.stats.blocksIn := by
    unfold releaseSource
    split <;> rfl
  rw [finish_keeps (·.stats.blocksIn) (fun _ => rfl), blocksIn_flush, hrelease]

theorem blocksIn_settle (s : Session) (before : Phase) :
    (s.settle before).2.stats.blocksIn = s.stats.blocksIn := by
  have hnoted : (s.noteComplete.notePhase before).stats.blocksIn = s.stats.blocksIn := by
    obtain ⟨selection, said, hnoted⟩ := s.noted_eq before
    rw [hnoted]
  have hsettles := s.settlesAs_settle before
  generalize s.settle before = result at hsettles
  cases hsettles with
  | ended => rw [blocksIn_finish, hnoted]
  | goesOn => exact hnoted

theorem carried_blocksIn : CarriedByWrites fun s s' => s'.stats.blocksIn = s.stats.blocksIn where
  trans first second := second.trans first
  selects _ _ _ _ := rfl
  drops _ _ := rfl
  warnsNotOneFile _ _ := rfl
  warnsLate _ _ := rfl
  header _ _ := rfl
  block s block := by
    unfold writeBlock
    split <;> rfl

theorem SettlesWork.blocksIn {s : Session} {work result : Except Error Unit × Session}
    (h : s.SettlesWork work result) (hkept : work.2.stats.blocksIn = s.stats.blocksIn) :
    result.2.stats.blocksIn = s.stats.blocksIn := by
  cases h with
  | failed e s₁ => exact hkept
  | settled s₁ => exact (s₁.blocksIn_settle s.phase).trans hkept

theorem blocksIn_processBlock (s : Session) (block : Block) :
    (s.processBlock block).2.stats.blocksIn = s.stats.blocksIn :=
  (s.settlesWork_processBlock block).blocksIn (carried_blocksIn.handleBlock s block)

theorem blocksIn_processRoot (s : Session) (header : Header) (block : Block) :
    (s.processRoot header block).2.stats.blocksIn = s.stats.blocksIn :=
  (s.settlesWork_processRoot header block).blocksIn (carried_blocksIn.handleRoot s header block)

theorem blocksIn_endOfArchive (s : Session) :
    s.endOfArchive.2.stats.blocksIn = s.stats.blocksIn := by
  have hends := s.endsArchive_endOfArchive
  generalize s.endOfArchive = result at hends
  cases hends with
  | incomplete => exact blocksIn_finish _
  | complete => exact s.blocksIn_finish

theorem blocksIn_concluded (result : Except Error Unit × Session) :
    (concluded result).2.stats.blocksIn = result.2.stats.blocksIn :=
  concluded_keeps (·.stats.blocksIn) (fun _ _ => rfl) result

/-! ## What reads a block -/

theorem blocksIn_readBlock (s : Session) :
    s.readBlock.2.stats.blocksIn = s.stats.blocksIn + s.nextBlock?.toList.length := by
  unfold readBlock nextBlock?
  split
  · next h => rw [h]; rfl
  · next h => rw [h]; rfl
  · next h =>
    rw [h]
    dsimp only
    split <;> rfl

theorem blocksIn_advance (s : Session) :
    s.advance.2.stats.blocksIn = s.stats.blocksIn + s.nextBlock?.toList.length := by
  have hreads := s.readsNext_advance
  generalize s.advance = result at hreads
  cases hreads with
  | unread e reader hnext =>
    rw [nextBlock?, hnext]
    rfl
  | exhausted reader hnext =>
    rw [nextBlock?, hnext]
    exact blocksIn_endOfArchive { s with reader }
  | block block reader hnext =>
    exact (s.readBlock.2.blocksIn_processBlock block).trans s.blocksIn_readBlock

theorem blocksIn_begin (s : Session) :
    s.begin.2.stats.blocksIn = s.stats.blocksIn + s.firstBlock?.toList.length := by
  have hheaded {header : Header} {reader : Reader} {result : Except Error Unit} {s₁ : Session}
      (hw : { s with reader }.passThrough.writeHeader header = (result, s₁)) :
      s₁.stats.blocksIn = s.stats.blocksIn :=
    (congrArg (fun result => result.2.stats.blocksIn) hw).symm
  have hreads := s.readsFirst_begin
  generalize s.begin = result at hreads
  cases hreads with
  | noHeader e reader hread => simp [firstBlock?, hread]
  | noBlock header e reader reader' hread hnext => simp [firstBlock?, hread, nextBlock?, hnext]
  | refused header e reader reader' s₁ hread hnext hw =>
    simp [firstBlock?, hread, nextBlock?, hnext, hheaded hw]
  | empty header reader reader' s₁ hread hnext hw =>
    have hkept := hheaded hw
    have hfinish := s₁.warnEmpty.blocksIn_finish.trans hkept
    simp [firstBlock?, hread, nextBlock?, hnext, hfinish]
  | root header block reader reader' hread hnext =>
    have hcount := blocksIn_readBlock { s with reader }
    have hfirst : s.firstBlock?.toList.length = { s with reader }.nextBlock?.toList.length := by
      simp [firstBlock?, hread, nextBlock?, hnext]
    rw [hfirst, blocksIn_processRoot, hcount]

/-! ## Operations -/

theorem blocksIn_start (s : Session) :
    s.start.2.stats.blocksIn = s.stats.blocksIn + s.opening.length := by
  cases hs : s.started with
  | true => simp [start, opening, hs]
  | false =>
    have hbegin := blocksIn_begin { s with started := true }
    rw [start_of_not_started hs, blocksIn_concluded, hbegin, opening, if_neg (by simp [hs]),
      List.length_map]
    rfl

theorem blocksIn_step (s : Session) :
    s.step.2.stats.blocksIn = s.stats.blocksIn + s.handled.length := by
  cases hf : s.finished with
  | true =>
    obtain ⟨hnone, hsame⟩ := step_of_finished hf
    rw [hnone, hsame]
    rfl
  | false =>
    cases hc : s.cancelRequested with
    | true =>
      have hstop : s.stop.2.stats.blocksIn = s.stats.blocksIn := blocksIn_finish _
      rw [(step_of_cancelled hf hc).1, step_eq_stop hf hc, hstop]
      rfl
    | false =>
      cases hs : s.started with
      | true =>
        have hincoming : s.incoming? =
            s.nextBlock?.map fun block => (block, s.view.placementOf? block) := by
          simp [incoming?, hf, hc, hs]
        rw [step_of_started hf hc hs, blocksIn_concluded, blocksIn_advance, handled, hincoming,
          List.length_map, Option.toList_map, List.length_map]
      | false =>
        rw [(step_eq_start hf hc hs).1, (step_eq_start hf hc hs).2, blocksIn_start]

theorem blocksIn_operate (s : Session) (op : Operation) :
    (s.operate op).2.stats.blocksIn = s.stats.blocksIn + (s.operate op).1.length := by
  cases op with
  | start => exact s.blocksIn_start
  | call c =>
    cases c with
    | step => exact s.blocksIn_step
    | cancel => rfl

/-- A row of operations counts every block that it handles, whatever becomes of the block, and no
other. -/
theorem blocksIn_perform (s : Session) (ops : List Operation) :
    (s.perform ops).2.stats.blocksIn = s.stats.blocksIn + (s.perform ops).1.length := by
  induction ops generalizing s with
  | nil => rfl
  | cons op ops ih =>
    show ((s.operate op).2.perform ops).2.stats.blocksIn =
      s.stats.blocksIn + ((s.operate op).1 ++ ((s.operate op).2.perform ops).1).length
    rw [ih, blocksIn_operate, List.length_append, Nat.add_assoc]

end Session

end CarSlice
