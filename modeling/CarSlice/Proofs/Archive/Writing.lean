import CarSlice.Archive.Writer
import CarSlice.Proofs.Sink

/-!
# What a writer has written

A caller writes header and blocks in any order, tries again what was refused, and flushes in
between.  `Writer.perform` makes a row of such calls over a sink that may change its mind from one
call to the next, and gives the result of every call.

* `Effect` lists what a call can do: fail and leave everything as it was, flush, or write the
  header first or a block behind it (`effect_call`).
* `HasWritten` relates a writer to the writes that succeeded.  A call keeps it with the write that
  it makes, if it makes one (`HasWritten.call`), and so does a row (`HasWritten.perform`).
* `call_eq_verdict` says when a call fails: it is out of turn, or the sink refuses it.
* `successful_writes_reach_sink` puts these together.
-/

namespace CarSlice.Archive.Writer

/-! ## Calls -/

/-- What a caller may ask of a writer. -/
inductive Call where
  | header (frame : Bytes)
  | block (frame : Bytes)
  | flush
  deriving Repr, DecidableEq

/-- The frame that a call is to write, if it is to write one. -/
def Call.frame? : Call → Option Bytes
  | .header frame | .block frame => some frame
  | .flush => none

/-- A call, with the writer behind it. -/
def call (w : Writer) : Call → Except Error Unit × Writer
  | .header frame => w.writeHeader frame
  | .block frame => w.writeBlock frame
  | .flush => w.flush

/-- What happens to a writer: a call, or its sink goes on under other terms. -/
inductive Event where
  | call (c : Call)
  | sinkTurns (terms : Sink.Terms)
  deriving Repr, DecidableEq

/-- A row of events: the calls with their results, and the writer behind them. -/
def perform (w : Writer) : List Event → List (Call × Except Error Unit) × Writer
  | [] => ([], w)
  | .call c :: events =>
    ((c, (w.call c).1) :: ((w.call c).2.perform events).1, ((w.call c).2.perform events).2)
  | .sinkTurns terms :: events => { w with sink := w.sink.under terms }.perform events

/-- The write that a call with some result has made, if it has made one. -/
def written? : Call × Except Error Unit → Option Call
  | (.flush, _) | (_, .error _) => none
  | (c, .ok ()) => some c

/-- What a call comes to.  Out of turn it fails without the sink, and else the sink decides. -/
def verdict (w : Writer) : Call → Except Error Unit
  | .header frame => if w.headerWritten then .error .headerTwice else (w.sink.write frame).1
  | .block frame => if w.headerWritten then (w.sink.write frame).1 else .error .blockBeforeHeader
  | .flush => w.sink.flush.1

/-! ## One call -/

/-- What one call can do. -/
inductive Effect (w : Writer) : Call → Except Error Unit × Writer → Prop where
  | failed (c : Call) (e : Error) (sink : Sink) (hsame : sink.taken = w.sink.taken) :
      Effect w c (.error e, { w with sink })
  | flushed (sink : Sink) (hsame : sink.taken = w.sink.taken) :
      Effect w .flush (.ok (), { w with sink })
  | header (frame : Bytes) (hfirst : w.headerWritten = false) :
      Effect w (.header frame)
        (.ok (),
          { w with
            sink := w.sink.take frame
            headerWritten := true
            bytesWritten := satAdd w.bytesWritten frame.length })
  | block (frame : Bytes) (hbehind : w.headerWritten = true) :
      Effect w (.block frame)
        (.ok (),
          { w with
            sink := w.sink.take frame
            bytesWritten := satAdd w.bytesWritten frame.length
            blocksWritten := w.blocksWritten + 1 })

theorem effect_writeHeader (w : Writer) (frame : Bytes) :
    w.Effect (.header frame) (w.writeHeader frame) := by
  unfold writeHeader emit
  split
  · exact .failed _ _ w.sink rfl
  · next hfirst =>
    rcases hwrite : w.sink.write frame with ⟨_ | ⟨⟩, sink⟩
    · exact .failed _ _ sink (Sink.write_of_error hwrite).1
    · obtain rfl := Sink.write_of_ok hwrite
      exact .header frame (by simpa using hfirst)

theorem effect_writeBlock (w : Writer) (frame : Bytes) :
    w.Effect (.block frame) (w.writeBlock frame) := by
  unfold writeBlock emit
  split
  · next hbehind =>
    rcases hwrite : w.sink.write frame with ⟨_ | ⟨⟩, sink⟩
    · exact .failed _ _ sink (Sink.write_of_error hwrite).1
    · obtain rfl := Sink.write_of_ok hwrite
      exact .block frame hbehind
  · exact .failed _ _ w.sink rfl

theorem effect_flush (w : Writer) : w.Effect .flush w.flush := by
  have hsame := w.sink.flush_keeps.1
  unfold flush
  rcases hflush : w.sink.flush with ⟨_ | ⟨⟩, sink⟩
  · rw [hflush] at hsame
    exact .failed _ _ sink hsame
  · rw [hflush] at hsame
    exact .flushed sink hsame

theorem effect_call (w : Writer) (c : Call) : w.Effect c (w.call c) := by
  cases c with
  | header frame => exact w.effect_writeHeader frame
  | block frame => exact w.effect_writeBlock frame
  | flush => exact w.effect_flush

/-- A call fails out of turn, or because the sink refuses it. -/
theorem call_eq_verdict (w : Writer) (c : Call) : (w.call c).1 = w.verdict c := by
  cases c with
  | header frame =>
    simp only [call, verdict, writeHeader, emit]
    split
    · rfl
    · rcases w.sink.write frame with ⟨_ | _, _⟩ <;> rfl
  | block frame =>
    simp only [call, verdict, writeBlock, emit]
    split
    · rcases w.sink.write frame with ⟨_ | _, _⟩ <;> rfl
    · rfl
  | flush => rfl

/-! ## Rows of calls -/

/-- A writer that was made over a sink and has made some writes. -/
structure HasWritten (sink : Sink) (w : Writer) (writes : List Call) : Prop where
  reached : w.sink.writes = sink.writes ++ writes.filterMap Call.frame?
  bytes : w.bytesWritten = min (writes.filterMap Call.frame?).flatten.length maxCount
  order : writes = [] ∧ w.headerWritten = false ∧ w.blocksWritten = 0 ∨
    ∃ (header : Bytes) (blocks : List Bytes), writes = .header header :: blocks.map .block ∧
      w.headerWritten = true ∧ w.blocksWritten = blocks.length

theorem hasWritten_new (sink : Sink) : HasWritten sink { sink } [] :=
  ⟨(List.append_nil _).symm, rfl, Or.inl ⟨rfl, rfl, rfl⟩⟩

section

variable {sink : Sink} {w : Writer} {writes : List Call}

/-- What the sink does apart from taking writes does not matter. -/
theorem HasWritten.withSink (h : HasWritten sink w writes) {sink' : Sink}
    (hsame : sink'.writes = w.sink.writes) : HasWritten sink { w with sink := sink' } writes :=
  ⟨hsame.trans h.reached, h.bytes, h.order⟩

/-- A write is one more behind the others. -/
theorem filterMap_frame?_concat {c : Call} {frame : Bytes} (hc : c.frame? = some frame) :
    (writes ++ [c]).filterMap Call.frame? = writes.filterMap Call.frame? ++ [frame] := by
  rw [List.filterMap_append, List.filterMap_cons_some hc, List.filterMap_nil]

theorem HasWritten.reached_take (h : HasWritten sink w writes) {c : Call} {frame : Bytes}
    (hc : c.frame? = some frame) : (w.sink.take frame).writes =
      sink.writes ++ (writes ++ [c]).filterMap Call.frame? := by
  rw [Sink.writes_take, h.reached, filterMap_frame?_concat hc, List.append_assoc]

theorem HasWritten.bytes_take (h : HasWritten sink w writes) {c : Call} {frame : Bytes}
    (hc : c.frame? = some frame) : satAdd w.bytesWritten frame.length =
      min ((writes ++ [c]).filterMap Call.frame?).flatten.length maxCount := by
  rw [filterMap_frame?_concat hc, List.flatten_append, List.flatten_singleton, List.length_append,
    h.bytes, satAdd]
  omega

/-- A call makes the write that its result says. -/
theorem HasWritten.call (h : HasWritten sink w writes) (c : Call) :
    HasWritten sink (w.call c).2 (writes ++ (written? (c, (w.call c).1)).toList) := by
  have heffect := w.effect_call c
  generalize w.call c = result at heffect ⊢
  cases heffect with
  | failed _ e sink' hsame =>
    have hnone : written? (c, .error e) = none := by cases c <;> rfl
    rw [hnone, Option.toList_none, List.append_nil]
    exact h.withSink (Sink.writes_of_taken hsame)
  | flushed sink' hsame =>
    rw [written?, Option.toList_none, List.append_nil]
    exact h.withSink (Sink.writes_of_taken hsame)
  | header frame hfirst =>
    refine ⟨h.reached_take rfl, h.bytes_take rfl, Or.inr ⟨frame, [], ?_⟩⟩
    rcases h.order with ⟨rfl, -, hnone⟩ | ⟨header, blocks, -, hbehind, -⟩
    · exact ⟨rfl, rfl, hnone⟩
    · rw [hfirst] at hbehind
      cases hbehind
  | block frame hbehind =>
    refine ⟨h.reached_take rfl, h.bytes_take rfl, Or.inr ?_⟩
    rcases h.order with ⟨-, hfirst, -⟩ | ⟨header, blocks, rfl, -, hcount⟩
    · rw [hbehind] at hfirst
      cases hfirst
    · refine ⟨header, blocks ++ [frame], ?_, hbehind, ?_⟩
      · rw [List.map_append]
        rfl
      · rw [List.length_append, ← hcount]
        rfl

theorem HasWritten.perform (h : HasWritten sink w writes) (events : List Event) :
    HasWritten sink (w.perform events).2 (writes ++ (w.perform events).1.filterMap written?) := by
  induction events generalizing w writes with
  | nil => rwa [Writer.perform, List.filterMap_nil, List.append_nil]
  | cons event events ih =>
    cases event with
    | call c =>
      have hrow := ih (h.call c)
      rw [List.append_assoc] at hrow
      rw [Writer.perform, List.filterMap_cons]
      cases hwritten : written? (c, (w.call c).1) with
      | none => rwa [hwritten] at hrow
      | some write => rwa [hwritten] at hrow
    | sinkTurns terms => exact ih (h.withSink rfl)

end

/-- Behind every row of calls, over every sink that takes a write whole or refuses it whole, however
it makes up its mind: the sink has got the frames of the writes that succeeded, in their order, each
in one piece.  The first of them is a header and all others are blocks.  The counts are the bytes of
these frames, up to the largest count, and the blocks among them.  The next call fails exactly if it
is out of turn or the sink refuses it, and then it changes nothing of all that. -/
theorem successful_writes_reach_sink (sink : Sink) (events : List Event) :
    let row := perform { sink } events
    let writes := row.1.filterMap written?
    let frames := writes.filterMap Call.frame?
    let w := row.2
    w.sink.writes = sink.writes ++ frames ∧ w.sink.output = sink.output ++ frames.flatten ∧
      (writes = [] ∧ w.headerWritten = false ∧ w.blocksWritten = 0 ∨
        ∃ (header : Bytes) (blocks : List Bytes), writes = .header header :: blocks.map .block ∧
          w.headerWritten = true ∧ w.blocksWritten = blocks.length) ∧
      w.bytesWritten = min frames.flatten.length maxCount ∧
      ∀ c, (w.call c).1 = w.verdict c ∧ ∀ e w', w.call c = (.error e, w') →
        w'.sink.writes = w.sink.writes ∧ w'.headerWritten = w.headerWritten ∧
          w'.bytesWritten = w.bytesWritten ∧ w'.blocksWritten = w.blocksWritten := by
  intro row writes frames w
  have hwritten : HasWritten sink w ([] ++ writes) := (hasWritten_new sink).perform events
  refine ⟨hwritten.reached, ?_, hwritten.order, hwritten.bytes, fun c => ?_⟩
  · rw [Sink.output, hwritten.reached, List.flatten_append]
    rfl
  · refine ⟨w.call_eq_verdict c, fun e w' hcall => ?_⟩
    have heffect := w.effect_call c
    rw [hcall] at heffect
    cases heffect with
    | failed _ _ sink' hsame => exact ⟨Sink.writes_of_taken hsame, rfl, rfl, rfl⟩

end CarSlice.Archive.Writer
