import CarSlice.Proofs.Session.Intake
import CarSlice.Proofs.Session.Nesting

/-!
# How many steps a run takes

A step after which there is more to do has read a block, and the least section is five bytes long:
one for its length and four for a CID with an empty digest.  So the bytes of the source bound the
number of steps, whatever phase the session is in.

* `Block.Readable.five_le_length_frame` and `exists_gave_five_of_next`: what a block takes from the
  source.
* `next_of_step`: what a session has read if there is more to do.
* `Loops` is the loop of a run with its number of steps, and `Loops.steps_le` bounds it.
* `run_takes_few_steps` puts these together behind every row of demands.
-/

namespace CarSlice

open Archive (Block Header Reader ReaderOptions)

/-! ## The least section -/

theorem Archive.Block.Readable.five_le_length_frame {b : Block} {maxSize : Nat}
    (h : b.Readable maxSize) : 5 ≤ b.frame.length := by
  have hlength := Varint.read?_length h.length
  have hcid := Cid.decode?_length_add_four h.cid
  rw [Block.frame_eq, List.length_append]
  rw [List.length_nil] at hlength
  omega

/-- A reader that returns a block has taken its section from the front of its source, and the
header before it if that was not read yet. -/
theorem Archive.Reader.exists_gave_five_of_next {r r' : Reader} {block : Block}
    (h : r.next = (.ok (some block), r')) :
    ∃ got, r.source.Gave got r'.source ∧ 5 ≤ got.length := by
  have hframe := (readable_of_next h).five_le_length_frame
  have hreads := r.readsNext_next
  rw [h] at hreads
  cases hreads with
  | behind header r₁ result hread hsection =>
    obtain ⟨front, hfront⟩ := exists_gave_of_readHeader hread
    refine ⟨front ++ block.frame, hfront.trans (passed_of_nextSection_some hsection).source, ?_⟩
    rw [List.length_append]
    omega

namespace Session

/-! ## One step -/

theorem next_of_advance {s : Session} (hok : s.advance.1 = .ok ())
    (hf : s.advance.2.finished = false) : ∃ block, s.reader.next.1 = .ok (some block) := by
  have hreads := s.readsNext_advance
  generalize s.advance = result at hreads hok hf
  cases hreads with
  | unread e => cases hok
  | exhausted reader =>
    rw [finished_endOfArchive] at hf
    cases hf
  | block block reader hnext => exact ⟨block, congrArg Prod.fst hnext⟩

theorem next_of_begin {s : Session} (hok : s.begin.1 = .ok ()) (hf : s.begin.2.finished = false) :
    ∃ block, s.reader.next.1 = .ok (some block) := by
  have hreads := s.readsFirst_begin
  generalize s.begin = result at hreads hok hf
  cases hreads with
  | noHeader e => cases hok
  | noBlock header e => cases hok
  | refused header e => cases hok
  | empty header reader reader' s₁ =>
    rw [finished_finish] at hf
    cases hf
  | root header block reader reader' hread hnext =>
    exact ⟨block, by rw [Reader.next_of_readHeader hread, hnext]⟩

/-- A step after which there is more to do has called its reader once, for a block, and has left it
there. -/
theorem next_of_step {s s' : Session} (h : s.step = (.ok true, s')) :
    ∃ block, s.reader.next = (.ok (some block), s'.reader) := by
  have hf : s.finished = false := by
    by_contra hf
    rw [step, if_pos (by simpa using hf)] at h
    cases h
  have hc : s.cancelRequested = false := by
    by_contra hc
    rw [step_eq_stop hf (by simpa using hc)] at h
    cases hstop : s.stop.1 with
    | error e => simp [hstop, Except.map] at h
    | ok _ => simp [hstop, Except.map] at h
  have hgoes : s'.finished = false := by
    have hmore := more_of_step hf hc (congrArg Prod.fst h)
    rw [h] at hmore
    simpa using hmore.symm
  have hconcluded {result : Except Error Unit × Session} (hresult : s.step = concluded result) :
      result.1 = .ok () ∧ result.2 = s' := by
    rw [h] at hresult
    rcases result with ⟨⟨e⟩ | ⟨⟩, s₁⟩
    · cases hresult
    · exact ⟨rfl, (congrArg Prod.snd hresult).symm⟩
  cases hs : s.started with
  | true =>
    obtain ⟨hok, hafter⟩ := hconcluded (step_of_started hf hc hs)
    obtain ⟨block, hnext⟩ := next_of_advance hok (by rw [hafter]; exact hgoes)
    have hleaves := s.leaves_advance.goesOn (by rw [hafter]; exact hgoes)
    rw [hafter] at hleaves
    exact ⟨block, Prod.ext hnext hleaves.symm⟩
  | false =>
    obtain ⟨hok, hafter⟩ := hconcluded (step_of_not_started hf hc hs)
    obtain ⟨block, hnext⟩ := next_of_begin hok (by rw [hafter]; exact hgoes)
    have hleaves := (leaves_begin { s with started := true }).goesOn (by rw [hafter]; exact hgoes)
    rw [hafter] at hleaves
    exact ⟨block, Prod.ext hnext hleaves.symm⟩

theorem exists_gave_five_of_step {s s' : Session} (h : s.step = (.ok true, s')) :
    ∃ got, s.source.Gave got s'.source ∧ 5 ≤ got.length := by
  obtain ⟨block, hnext⟩ := next_of_step h
  exact Reader.exists_gave_five_of_next hnext

/-! ## The loop -/

/-- Steps that are repeated as long as there is more to do, with their number and what they come
to.  Between them the session may be cancelled. -/
inductive Loops : Session → Nat → Except Error Unit × Session → Prop where
  | failed {s s' : Session} {e : Error} (h : s.step = (.error e, s')) : Loops s 1 (.error e, s')
  | done {s s' : Session} (h : s.step = (.ok false, s')) : Loops s 1 (.ok (), s')
  | more {s s' : Session} {n : Nat} {result : Except Error Unit × Session}
      (h : s.step = (.ok true, s')) (hrest : s'.Loops n result) : Loops s (n + 1) result
  | cancelled {s : Session} {n : Nat} {result : Except Error Unit × Session}
      (h : s.cancel.Loops n result) : Loops s n result

theorem exists_loops_run (s : Session) : ∃ n, s.Loops n s.run := by
  fun_induction run s with
  | case1 s e s' h => exact ⟨1, .failed h⟩
  | case2 s s' h => exact ⟨1, .done h⟩
  | case3 s s' h ih =>
    obtain ⟨n, hrest⟩ := ih
    exact ⟨n + 1, .more h hrest⟩

/-- Every step but the last one takes five bytes or more of what is left. -/
theorem Loops.steps_le {s : Session} {n : Nat} {result : Except Error Unit × Session}
    (h : s.Loops n result) : n ≤ s.remaining / 5 + 1 := by
  induction h with
  | failed | done => exact Nat.le_add_left 1 _
  | @more s s' n result h hrest ih =>
    obtain ⟨got, hgave, hfive⟩ := exists_gave_five_of_step h
    have hless : s.remaining = got.length + s'.remaining :=
      (congrArg List.length hgave.unread).trans List.length_append
    omega
  | cancelled h ih => exact ih

/-! ## Rows of demands -/

theorem Leaves.remaining {s : Session} {reader : Reader} (h : s.Leaves reader) :
    s.remaining = reader.remaining := by
  rcases h.stands with hreader | hreader
  · rw [Session.remaining, hreader]
  · rw [Session.remaining, hreader]
    rfl

theorem remaining_start_le (s : Session) : s.start.2.remaining ≤ s.remaining := by
  cases hs : s.started with
  | true =>
    rw [start, if_pos hs]
  | false =>
    rw [start_of_not_started hs, (leaves_concluded (leaves_begin _)).remaining]
    exact s.reader.remaining_next_le

theorem remaining_step_le (s : Session) : s.step.2.remaining ≤ s.remaining := by
  have hsteps := s.stepsAs_step
  generalize s.step = result at hsteps ⊢
  cases hsteps with
  | idle => exact Nat.le_refl _
  | stopped => exact Nat.le_of_eq (remaining_finish _)
  | advanced =>
    rw [(leaves_concluded s.leaves_advance).remaining]
    exact s.reader.remaining_next_le
  | begun =>
    rw [(leaves_concluded (leaves_begin _)).remaining]
    exact s.reader.remaining_next_le

theorem remaining_operate_le (s : Session) (op : Operation) :
    (s.operate op).2.remaining ≤ s.remaining := by
  cases op with
  | start => exact s.remaining_start_le
  | call c =>
    cases c with
    | step => exact s.remaining_step_le
    | cancel => exact Nat.le_refl _

theorem remaining_perform_le (s : Session) (ops : List Operation) :
    (s.perform ops).2.remaining ≤ s.remaining := by
  induction ops generalizing s with
  | nil => exact Nat.le_refl _
  | cons op ops ih => exact Nat.le_trans (ih (s.operate op).2) (s.remaining_operate_le op)

/-- Behind every row of demands, whatever the source holds and whatever the sink refuses: a step
after which there is more to do has taken five bytes or more from the front of what was left.  A
run is a loop of steps that comes to an end, and such a loop, also one that is cancelled on its
way, makes at most one step for every five bytes of the source, and one. -/
theorem run_takes_few_steps (source : Source) (sink : Sink) (request : ByteRange)
    (options : ReaderOptions) (retains : Bool) (demands : List Demand) :
    let s := ((new source sink request options retains).serveAll demands).2
    (∀ s', s.step = (.ok true, s') → ∃ got, s.source.Gave got s'.source ∧ 5 ≤ got.length) ∧
      (∃ n, s.Loops n s.run) ∧
      ∀ n result, s.Loops n result → n ≤ source.unread.length / 5 + 1 := by
  intro s
  refine ⟨fun s' => exists_gave_five_of_step, s.exists_loops_run, fun n result hloops => ?_⟩
  have hle : s.remaining ≤ source.unread.length :=
    serveAll_of_perform (P := fun s _ => s.remaining ≤ source.unread.length)
      (remaining_perform_le _) demands
  exact Nat.le_trans hloops.steps_le (Nat.add_le_add_right (Nat.div_le_div_right hle) 1)

/-- Two sections without a payload, with CIDs whose digest is empty.  No step takes less than the
second one. -/
example :
    let body := Header.encodeBody [[0x01, 0x55, 0x00, 0x00]] 1
    let header : Bytes := UInt8.ofNat body.length :: body
    let least : Bytes := [0x04, 0x01, 0x55, 0x00, 0x00]
    let source := Source.ofMemory (header ++ least ++ least) 0
    let s := (new source .unlimited (.openEnded 0) {} false).step.2
    s.step.1 = .ok true ∧ s.step.2.source.position = s.source.position + 5 := by
  decide +kernel

end Session

end CarSlice
