import CarSlice.Proofs.Session.Chunking
import CarSlice.Proofs.Session.Nesting

/-!
# Ended and cancelled sessions

What a caller can ask of a session comes down to starts, steps and cancellations, so a row of
demands ends where a row of operations does (`exists_perform_eq_serveAll`), and what every row of
operations keeps holds behind every row of demands (`serveAll_of_perform`).

* `Shut` is what every failure leaves: the session is finished and its source is closed
  (`shut_of_serve`).
* `ended_sessions_rest`: behind a failure and behind an end nothing happens any more.
* `Halted` is what becomes of a session that was cancelled, whether or not the last flush goes
  through.
* `cancelled_session_halts`: the next step or run of a cancelled session comes to that.
-/

namespace CarSlice

open Archive (Block Header Reader ReaderOptions Writer)

namespace Session

/-! ## Rows of demands -/

/-- The failure that a reply tells of. -/
def Reply.error? : Reply → Option Error
  | .done (.error e) => some e
  | .more (.error e) => some e
  | _ => none

/-- The blocks that are handled to meet a demand. -/
def account (s : Session) : Demand → List Handled
  | .start => s.opening
  | .step => s.handled
  | .run => s.journal
  | .cancel => []

/-- The blocks that are handled to meet a row of demands. -/
def accountAll (s : Session) : List Demand → List Handled
  | [] => []
  | d :: demands => s.account d ++ (s.serve d).2.accountAll demands

/-- A demand is met by a row of operations. -/
theorem exists_perform_eq_serve (s : Session) (d : Demand) :
    ∃ ops, s.perform ops = (s.account d, (s.serve d).2) := by
  cases d with
  | start => exact ⟨[.start], by simp [perform, operate, account, serve]⟩
  | step => exact ⟨[.call .step], by simp [perform, operate, call, account, serve]⟩
  | run =>
    obtain ⟨n, hn⟩ := s.exists_perform_eq_run
    exact ⟨List.replicate n (.call .step), hn⟩
  | cancel => exact ⟨[.call .cancel], by simp [perform, operate, call, account, serve]⟩

theorem exists_perform_eq_serveAll (s : Session) (demands : List Demand) :
    ∃ ops, s.perform ops = (s.accountAll demands, (s.serveAll demands).2) := by
  induction demands generalizing s with
  | nil => exact ⟨[], rfl⟩
  | cons d demands ih =>
    obtain ⟨first, hfirst⟩ := s.exists_perform_eq_serve d
    obtain ⟨rest, hrest⟩ := ih (s.serve d).2
    refine ⟨first ++ rest, ?_⟩
    rw [perform_append, hfirst, hrest]
    rfl

/-- What holds behind every row of operations holds behind every row of demands. -/
theorem serveAll_of_perform {P : Session → List Handled → Prop} {s : Session}
    (h : ∀ ops, P (s.perform ops).2 (s.perform ops).1) (demands : List Demand) :
    P (s.serveAll demands).2 (s.accountAll demands) := by
  obtain ⟨ops, hops⟩ := s.exists_perform_eq_serveAll demands
  have hrow := h ops
  rw [hops] at hrow
  exact hrow

theorem Sound.serve {v₀ : View} (hv₀ : v₀.Initial) {s : Session} {entries : List Handled}
    (h : Sound v₀ s entries) (d : Demand) : Sound v₀ (s.serve d).2 (entries ++ s.account d) := by
  obtain ⟨ops, hops⟩ := s.exists_perform_eq_serve d
  have hrow := h.perform hv₀ ops
  rw [hops] at hrow
  exact hrow

theorem sound_serveAll (source : Source) (sink : Sink) (request : ByteRange)
    (options : ReaderOptions) (retains : Bool) (demands : List Demand) :
    let s := new source sink request options retains
    Sound s.view (s.serveAll demands).2 (s.accountAll demands) := by
  intro s
  apply serveAll_of_perform (P := Sound s.view)
  exact (sound_new source sink request options retains).perform
    (initial_new source sink request options retains)

/-! ## Failures -/

/-- A session that is finished and has closed its source. -/
structure Shut (s : Session) : Prop where
  finished : s.finished = true
  closed : s.source.closed = true

theorem shut_concluded {result : Except Error Unit × Session} {e : Error}
    (h : result.1 = .error e) : (concluded result).2.Shut := by
  rcases result with ⟨⟨e'⟩ | ⟨⟩, s⟩
  · exact ⟨rfl, rfl⟩
  · cases h

theorem reader_stop (s : Session) : s.stop.2.reader = s.closeSource.reader := by
  unfold stop
  rw [reader_finish, reader_releaseSource]
  rfl

theorem shut_stop (s : Session) : s.stop.2.Shut :=
  ⟨s.finished_stop, by rw [source, reader_stop]; rfl⟩

theorem shut_of_start {s : Session} {e : Error} (h : s.start.1 = .error e) : s.start.2.Shut := by
  cases hs : s.started with
  | true =>
    rw [start, if_pos hs] at h
    cases h
  | false =>
    rw [start_of_not_started hs] at h ⊢
    exact shut_concluded h

theorem error_of_concluded {result : Except Error Unit × Session} {e : Error}
    (h : (concluded result).1 = .error e) : result.1 = .error e := by
  have hmapped := map_concluded result
  rw [h] at hmapped
  exact hmapped.symm

theorem shut_of_step {s : Session} {e : Error} (h : s.step.1 = .error e) : s.step.2.Shut := by
  have hsteps := s.stepsAs_step
  generalize s.step = result at hsteps h ⊢
  cases hsteps with
  | idle => cases h
  | stopped => exact s.shut_stop
  | advanced => exact shut_concluded (error_of_concluded h)
  | begun => exact shut_concluded (error_of_concluded h)

theorem shut_of_run {s : Session} {e : Error} (h : s.run.1 = .error e) : s.run.2.Shut := by
  fun_induction run s with
  | case1 s e' s' hstep =>
    have hshut : s.step.2.Shut := shut_of_step (congrArg Prod.fst hstep)
    rw [hstep] at hshut
    exact hshut
  | case2 s s' hstep => cases h
  | case3 s s' hstep ih => exact ih h

/-- Whatever fails, the session is finished and its source is closed. -/
theorem shut_of_serve {s : Session} {d : Demand} {e : Error}
    (h : (s.serve d).1.error? = some e) : (s.serve d).2.Shut := by
  cases d with
  | start =>
    apply shut_of_start (e := e)
    cases hstart : s.start.1 <;> simp_all [serve, Reply.error?]
  | step =>
    apply shut_of_step (e := e)
    cases hstep : s.step.1 <;> simp_all [serve, Reply.error?]
  | run =>
    apply shut_of_run (e := e)
    cases hrun : s.run.1 <;> simp_all [serve, Reply.error?]
  | cancel => cases h

/-! ## Ended sessions -/

theorem serve_of_finished {s : Session} (hf : s.finished = true) (hs : s.started = true) :
    s.serve .start = (.done (.ok ()), s) ∧ s.serve .step = (.more (.ok false), s) ∧
      s.serve .run = (.done (.ok ()), s) := by
  have hstart : s.start = (.ok (), s) := if_pos hs
  have hstep : s.step = (.ok false, s) := if_pos hf
  have hrun : s.run = (.ok (), s) := by rw [run_eq, hstep]
  refine ⟨?_, ?_, ?_⟩
  · rw [serve, hstart]
  · rw [serve, hstep]
  · rw [serve, hrun]

/-- The same session with another reader and another writer. -/
def between (s : Session) (reader : Reader) (writer : Writer) : Session :=
  { s with reader, writer }

/-- Whatever a source holds and whatever a sink refuses, behind every row of demands: if a demand
fails, the session is finished and its source is closed.  If the session is finished, a start, a
step and a run do nothing without failure.  The session behind them is the same, its source, its
sink, its counts and all it has said.  This would be so with any reader and writer in the place
of its own, whether or not there is something to read, to write or to flush. -/
theorem ended_sessions_rest (source : Source) (sink : Sink) (request : ByteRange)
    (options : ReaderOptions) (retains : Bool) (demands : List Demand) :
    let s := ((new source sink request options retains).serveAll demands).2
    (∀ (d : Demand) (e : Error), (s.serve d).1.error? = some e →
        (s.serve d).2.finished = true ∧ (s.serve d).2.source.closed = true) ∧
      (s.finished = true → ∀ (reader : Reader) (writer : Writer),
        let s' := s.between reader writer
        s'.serve .start = (.done (.ok ()), s') ∧
          s'.serve .step = (.more (.ok false), s') ∧
          s'.serve .run = (.done (.ok ()), s')) := by
  intro s
  constructor
  · intro d e he
    have hshut := shut_of_serve he
    exact ⟨hshut.finished, hshut.closed⟩
  · intro hf reader writer s'
    have hs : s.started = true :=
      (sound_serveAll source sink request options retains demands).begun hf
    exact serve_of_finished (s := s') hf hs

/-! ## Cancelled sessions -/

theorem Sound.cancelRequested_operate {v₀ : View} (hv₀ : v₀.Initial) {s : Session}
    {entries : List Handled} (h : Sound v₀ s entries) (op : Operation)
    (hop : op ≠ .call .cancel) : (s.operate op).2.cancelRequested = s.cancelRequested := by
  have heffect := effect_operate h.begun op
  generalize s.operate op = after at heffect
  generalize s.outcome op = result at heffect
  cases heffect with
  | idle => rfl
  | cancelled hcancel => exact absurd hcancel hop
  | stopped hf hc => exact congrArg View.cancelRequested (step_of_cancelled hf hc).2.1
  | opened hf hopens =>
    rcases start_rootTurn hf hopens.1 (h.not_headerWritten hv₀ hf hopens.1) with
      ⟨-, hended, -⟩ | ⟨header, block, fate, -, hturn, -⟩
    · exact hended.keeps.cancelRequested
    · exact hturn.keeps.cancelRequested
  | advanced hf hc hs =>
    rcases step_turn hf hc (h.ready hv₀ hf hs) with ⟨-, hview, -⟩ | ⟨block, fate, -, hturn, -⟩
    · exact congrArg View.cancelRequested hview
    · exact hturn.keeps.cancelRequested

theorem Sound.cancelRequested_steps {v₀ : View} (hv₀ : v₀.Initial) {s : Session}
    {entries : List Handled} (h : Sound v₀ s entries) (n : Nat) :
    (s.perform (List.replicate n (.call .step))).2.cancelRequested = s.cancelRequested := by
  induction n generalizing s entries with
  | zero => rfl
  | succ n ih =>
    have hfirst := h.cancelRequested_operate hv₀ (.call .step) (by simp)
    exact (ih (h.operate hv₀ (.call .step))).trans hfirst

theorem Sound.cancelRequested_serve {v₀ : View} (hv₀ : v₀.Initial) {s : Session}
    {entries : List Handled} (h : Sound v₀ s entries) (d : Demand) :
    (s.serve d).2.cancelRequested = true ↔ s.cancelRequested = true ∨ d = .cancel := by
  cases d with
  | start =>
    have hkept : s.start.2.cancelRequested = s.cancelRequested :=
      h.cancelRequested_operate hv₀ .start (by simp)
    simp [Session.serve, hkept]
  | step =>
    have hkept : s.step.2.cancelRequested = s.cancelRequested :=
      h.cancelRequested_operate hv₀ (.call .step) (by simp)
    simp [Session.serve, hkept]
  | run =>
    obtain ⟨n, hn⟩ := s.exists_perform_eq_run
    have hkept := h.cancelRequested_steps hv₀ n
    rw [hn] at hkept
    have hkept : s.run.2.cancelRequested = s.cancelRequested := hkept
    simp [Session.serve, hkept]
  | cancel => simp [Session.serve, cancel]

/-- A session is cancelled by a cancellation and by nothing else, and this is not taken back. -/
theorem Sound.cancelRequested_serveAll {v₀ : View} (hv₀ : v₀.Initial) {s : Session}
    {entries : List Handled} (h : Sound v₀ s entries) (demands : List Demand) :
    (s.serveAll demands).2.cancelRequested = true ↔
      s.cancelRequested = true ∨ Demand.cancel ∈ demands := by
  induction demands generalizing s entries with
  | nil => simp [serveAll]
  | cons d demands ih =>
    show ((s.serve d).2.serveAll demands).2.cancelRequested = true ↔ _
    rw [ih (h.serve hv₀ d), h.cancelRequested_serve hv₀ d, List.mem_cons, or_assoc,
      eq_comm (a := d)]

/-- An end flushes the sink if there is a header, and is refused exactly when the flush is. -/
theorem flush_of_finish (s : Session) :
    (s.finish.1, s.finish.2.writer) =
      if s.writer.headerWritten then s.writer.flush else (.ok (), s.writer) := by
  have hrelease : { s with finished := true }.releaseSource.writer = s.writer := by
    unfold releaseSource
    split <;> rfl
  have hflush : ({ s with finished := true }.releaseSource.flush.1,
      { s with finished := true }.releaseSource.flush.2.writer) =
        if s.writer.headerWritten then s.writer.flush else (.ok (), s.writer) := by
    unfold flush
    rw [hrelease]
    split
    · rfl
    · rw [hrelease]
  have hfinishes := s.finishesAs_finish
  generalize s.finish = result at hfinishes
  cases hfinishes with
  | refused e s₁ hf =>
    rw [hf] at hflush
    exact hflush
  | flushed s₁ hf =>
    rw [hf] at hflush
    exact hflush

theorem result_finish (s : Session) :
    s.finish.1 = if s.writer.headerWritten then s.sink.flush.1 else .ok () :=
  (congrArg Prod.fst s.flush_of_finish).trans (apply_ite Prod.fst _ _ _)

theorem writer_finish (s : Session) :
    s.finish.2.writer = if s.writer.headerWritten then s.writer.flush.2 else s.writer :=
  (congrArg Prod.snd s.flush_of_finish).trans (apply_ite Prod.snd _ _ _)

/-- What becomes of a session that was cancelled, and whether its end is refused.  Nothing is read
and nothing is written, and a header that was written before is flushed. -/
structure Halted (s s' : Session) (result : Except Error Unit) : Prop where
  finished : s'.finished = true
  reader : s'.reader = { s.reader with source := s.reader.source.close }
  writer : s'.writer = if s.writer.headerWritten then s.writer.flush.2 else s.writer
  flushed : result = if s.writer.headerWritten then s.sink.flush.1 else .ok ()
  ending : s'.ending = { s.ending with cancelled := true, sourceClosed := true }

theorem halted_stop (s : Session) : s.Halted s.stop.2 s.stop.1 where
  finished := s.finished_stop
  reader := s.reader_stop
  writer := writer_finish _
  flushed := result_finish _
  ending := by
    unfold stop
    rw [ending_finish, ending_releaseSource]
    simp [Session.ending]

theorem Halted.taken {s s' : Session} {result : Except Error Unit} (h : s.Halted s' result) :
    s'.sink.taken = s.sink.taken := by
  show s'.writer.sink.taken = s.writer.sink.taken
  rw [h.writer]
  split
  · exact s.writer.sink.flush_keeps.1
  · rfl

/-- A step and a run of a session that was cancelled are its end. -/
theorem serve_of_cancelled {s : Session} (hf : s.finished = false)
    (hc : s.cancelRequested = true) {d : Demand} (hd : d = .step ∨ d = .run) :
    (s.serve d).2 = s.stop.2 ∧ ∀ e, (s.serve d).1.error? = some e ↔ s.stop.1 = .error e := by
  have hstep := step_eq_stop hf hc
  rcases hd with rfl | rfl
  · rw [serve, hstep]
    refine ⟨rfl, fun e => ?_⟩
    cases s.stop.1 <;> simp [Reply.error?, Except.map]
  · have hrun : s.run = (s.stop.1, s.stop.2) := by
      rw [run_eq, hstep]
      cases s.stop.1 <;> rfl
    rw [serve, hrun]
    refine ⟨rfl, fun e => ?_⟩
    cases s.stop.1 <;> simp [Reply.error?]

/-- Behind every row of demands with a cancellation among them, whatever the source holds and
whatever the sink refuses: if the session is not finished, the next step or run reads nothing and
writes nothing.  It flushes the sink if the header was written, closes the source and leaves the
session finished, with the cancellation in its counts.  It fails exactly if that flush does, and
all the rest holds in that case as well. -/
theorem cancelled_session_halts (source : Source) (sink : Sink) (request : ByteRange)
    (options : ReaderOptions) (retains : Bool) (demands : List Demand)
    (hcancel : Demand.cancel ∈ demands) :
    let s := ((new source sink request options retains).serveAll demands).2
    s.finished = false → ∀ d : Demand, d = .step ∨ d = .run →
      let s' := (s.serve d).2
      s'.reader = { s.reader with source := s.reader.source.close } ∧
        s'.sink.taken = s.sink.taken ∧
        s'.writer = (if s.writer.headerWritten then s.writer.flush.2 else s.writer) ∧
        s'.source.closed = true ∧ s'.finished = true ∧ s'.stats.cancelled = true ∧
        ∀ e, (s.serve d).1.error? = some e ↔
          s.writer.headerWritten = true ∧ s.sink.flush.1 = .error e := by
  intro s hf d hd s'
  have hc : s.cancelRequested = true :=
    ((sound_new source sink request options retains).cancelRequested_serveAll
      (initial_new source sink request options retains) demands).2 (Or.inr hcancel)
  obtain ⟨hserve, herror⟩ := serve_of_cancelled hf hc hd
  have hhalted : s.Halted s' s.stop.1 := by
    show s.Halted (s.serve d).2 s.stop.1
    rw [hserve]
    exact s.halted_stop
  refine ⟨hhalted.reader, hhalted.taken, hhalted.writer, ?_, hhalted.finished,
    congrArg Ending.cancelled hhalted.ending, ?_⟩
  · show s'.reader.source.closed = true
    rw [hhalted.reader]
    rfl
  · intro e
    rw [herror, hhalted.flushed]
    cases hheader : s.writer.headerWritten with
    | true => simp
    | false => simp

/-- The header of an archive was written when its session was cancelled, and the sink fails on the
flush. -/
theorem cancelled_with_failing_flush :
    let body := Header.encodeBody [[0x01, 0x70, 0x00, 0x00]] 1
    let header : Bytes := UInt8.ofNat body.length :: body
    let source := Source.ofMemory (header ++ [0x06, 0x01, 0x55, 0x00, 0x00, 0x61, 0x62]) 0
    let sink : Sink := { kind := .stream true }
    let demands : List Demand := [.step, .cancel]
    let s := ((new source sink (.openEnded 0) {} false).serveAll demands).2
    Demand.cancel ∈ demands ∧ s.finished = false ∧ s.writer.headerWritten = true ∧
      (s.serve .run).1.error? = some (.sinkFailed none) ∧ (s.serve .run).2.finished = true ∧
      (s.serve .run).2.stats.cancelled = true ∧ (s.serve .run).2.source.closed = true := by
  intro body header source sink demands s
  have hcancel : Demand.cancel ∈ demands := by decide
  have hf : s.finished = false := by decide +kernel
  have hheader : s.writer.headerWritten = true := by decide +kernel
  have hflush : s.sink.flush.1 = .error (.sinkFailed none) := by decide +kernel
  obtain ⟨-, -, -, hclosed, hfinished, hcancelled, herror⟩ :=
    cancelled_session_halts source sink (.openEnded 0) {} false demands hcancel hf .run
      (Or.inr rfl)
  exact ⟨hcancel, hf, hheader, (herror _).2 ⟨hheader, hflush⟩, hfinished, hcancelled, hclosed⟩

end Session

end CarSlice
