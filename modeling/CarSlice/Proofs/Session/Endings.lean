import CarSlice.Proofs.Archive.Consumption
import CarSlice.Proofs.Session.Success

/-!
# How sessions end

A session that ends without failure and was not cancelled says why: its range is complete,
or it passed everything through, or the archive ended inside the file
(`ends_as_reported`).

* `View.Moves.not_detached`: no operation places a block behind the end of the file.
* `View.Unfilled`, which every operation keeps, says that nothing is passed through once the
  file is complete.  So a complete file ends the session.
* `Openly` is what an operation without failure keeps of a session that is not cancelled.
-/

namespace CarSlice

open Archive (Block Header Reader ReaderOptions)

namespace Session

/-! ## The end of the file -/

/-- No block is placed behind the end of the file. -/
theorem View.Moves.not_detached {v v' : View} {handled : List Handled} (h : v.Moves handled v')
    {e : Handled} (he : e ∈ handled) (offset : Nat) : e.placement ≠ some (.detached offset) := by
  have hplaced {l : Layout} (hl : l.Valid) (hstage : l.stage ≠ .complete) (block : Block) :
      some (l.place (.ofBlock block)).1 ≠ some (.detached offset) := by
    intro hdetached
    exact Layout.place_not_detached hl hstage _ offset (Option.some.inj hdetached)
  cases h with
  | flags => cases he
  | ended => cases he
  | root header block fate _ hlayout hfresh =>
    obtain rfl := List.mem_singleton.1 he
    show some (v.placeRoot header block).1 ≠ _
    unfold View.placeRoot
    split_ifs
    · exact hplaced hlayout (by simp [hfresh]) block
    · simp
  | turn block p fate _ hlayout hturn =>
    obtain rfl := List.mem_singleton.1 he
    cases hturn with
    | passed => simp
    | kept _ _ _ _ _ hunderway => exact hplaced hlayout (by simp [hunderway]) block
    | dropped _ _ _ hunderway => exact hplaced hlayout (by simp [hunderway]) block

/-- A file that is passed through is not complete. -/
def View.Unfilled (v : View) : Prop :=
  v.phase = .passthrough → v.layout.isComplete = false

theorem View.Unfilled.noteComplete {v : View} (h : v.Unfilled) : v.noteComplete.Unfilled := by
  intro hphase
  have hselection := View.selection_noteComplete (v := v) (by simp [hphase])
  rw [View.phase, hselection] at hphase
  exact h hphase

theorem View.Unfilled.emits {w v' : View} (h : w.Unfilled) {block : Block} {fate : Fate}
    (hv : w.Emits block fate v') : v'.Unfilled := by
  cases hv with
  | written => exact View.Unfilled.noteComplete (v := w.writeBlock block) h
  | refused => exact h

/-- A selection turns to passing everything through only where the layout gives up. -/
theorem unfilled_decided {l : Layout} (hl : l.Valid) (hstage : l.stage ≠ .complete)
    {s : Selection} (hopen : s.phase.isOpen = true) (c : UnixFs.Content)
    (h : (s.decide (l.place c).1).2.phase = .passthrough) : (l.place c).2.isComplete = false := by
  rcases Selection.decide_place_phase hl hstage hopen c with ⟨⟨reason, hplace⟩, -⟩ | ⟨-, hmoved⟩
  · simp [hplace, Layout.fail, Layout.isComplete]
  · rw [h] at hmoved
    obtain ⟨-, hp⟩ : _ ∧ Phase.passthrough = s.phase := by simpa using hmoved
    rw [← hp] at hopen
    cases hopen

theorem View.Unfilled.turn {v v' : View} (h : v.Unfilled) (hlayout : v.layout.Valid)
    {block : Block} {p : Option Placement} {fate : Fate} (hv : v.Turn block p fate v') :
    v'.Unfilled := by
  cases hv with
  | passed _ _ _ hemits => exact h.emits hemits
  | kept selection _ _ _ hopen hunderway _ hemits =>
    have hdecided : (v.decided selection block).Unfilled :=
      unfilled_decided hlayout (by simp [hunderway]) hopen _
    exact hdecided.emits hemits
  | dropped selection _ hopen hunderway =>
    exact View.Unfilled.noteComplete (v := (v.decided selection block).dropBlock)
      (unfilled_decided hlayout (by simp [hunderway]) hopen _)

theorem View.Chosen.unfilled {v w : View} {header : Header} {block : Block}
    (hw : v.Chosen header block w) (hlayout : v.layout.Valid)
    (hfresh : v.layout.stage = .fresh) : w.Unfilled := by
  have hstage : v.layout.stage ≠ .complete := by simp [hfresh]
  cases hw with
  | passed selection hmismatch =>
    intro _
    rcases hmismatch with ⟨offset, reason, hmismatch⟩
    show (v.placeRoot header block).2.isComplete = false
    unfold View.placeRoot at hmismatch ⊢
    split_ifs at hmismatch ⊢
    · refine unfilled_decided hlayout hstage (s := .ofRange 0 0 none) rfl _ ?_
      rw [hmismatch]
      rfl
    · simp [Layout.isComplete, hfresh]
  | selected stop hnot =>
    show _ = Phase.passthrough → (v.placeRoot header block).2.isComplete = false
    rw [View.placeRoot_of_not_mismatch hnot]
    exact unfilled_decided hlayout hstage rfl _

theorem View.RootTurn.unfilled {v v' : View} {header : Header} {block : Block} {fate : Fate}
    (hv : v.RootTurn header block fate v') (hlayout : v.layout.Valid)
    (hfresh : v.layout.stage = .fresh) (hselection : v.selection = none) : v'.Unfilled := by
  cases hv with
  | outside =>
    intro hphase
    have hphase : v.phase = .passthrough := hphase
    rw [View.phase, hselection] at hphase
    cases hphase
  | refused _ hw => exact hw.unfilled hlayout hfresh
  | emitted w _ _ hw hemits =>
    exact View.Unfilled.emits (w := w.writeHeader header) (hw.unfilled hlayout hfresh) hemits

theorem View.Moves.unfilled {v v' : View} {handled : List Handled} (h : v.Moves handled v')
    (hv : v.Unfilled) : v'.Unfilled := by
  cases h with
  | flags => exact hv
  | ended _ hfresh _ hended =>
    intro _
    have hlayout : v'.layout = v.layout := by cases hended <;> rfl
    simp [hlayout, Layout.isComplete, hfresh]
  | root header block fate _ hlayout hfresh hselection hturn =>
    exact hturn.unfilled hlayout hfresh hselection
  | turn block p fate _ hlayout hturn => exact hv.turn hlayout hturn

/-! ## The end of the session -/

/-- What is known of a session that was neither cancelled nor failed, given whether its source
was closed before it began. -/
structure Openly (closed : Bool) (s : Session) : Prop where
  uncancelled : s.cancelRequested = false
  source : s.source.closed = (closed || s.stats.sourceClosed)
  sourceClosed : s.finished = true → s.stats.sourceClosed = (s.phase == .satisfied)
  incompleteFile : s.finished = true →
    (s.stats.incompleteFile = true ↔ s.phase ≠ .satisfied ∧ s.phase ≠ .passthrough)

theorem openly_new (source : Source) (sink : Sink) (request : ByteRange) (options : ReaderOptions)
    (retains : Bool) : (new source sink request options retains).Openly source.closed where
  uncancelled := rfl
  source := (Bool.or_false _).symm
  sourceClosed hf := by cases hf
  incompleteFile hf := by cases hf

section

variable {closed : Bool} {s s' : Session} {reader : Reader} (h : s.Openly closed)
  (hsilent : s.ending = { cancelled := false, incompleteFile := false, sourceClosed := false })
  (hclosed : reader.source.closed = s.source.closed) (hcancel : s'.cancelRequested = false)

include h hsilent hclosed hcancel

theorem Openly.settled (hsettled : s.Settled reader s') : s'.Openly closed := by
  have hbefore : s.source.closed = closed := by
    rw [h.source, show s.stats.sourceClosed = false from congrArg Ending.sourceClosed hsilent,
      Bool.or_false]
  have hfinished : s'.finished = (s'.phase == .satisfied) := hsettled.finished
  have hends : s'.stats.sourceClosed = s'.finished := by
    have hending := congrArg Ending.sourceClosed hsettled.ending
    rw [hsilent] at hending
    exact hending
  have hincomplete : s'.stats.incompleteFile = false := by
    have hending := congrArg Ending.incompleteFile hsettled.ending
    rw [hsilent] at hending
    exact hending
  refine ⟨hcancel, ?_, fun _ => hends.trans hfinished, fun hf => ?_⟩
  · show s'.reader.source.closed = _
    rw [hsettled.reader, hends, hfinished]
    by_cases hphase : s'.phase = .satisfied
    · simp [hphase, Source.close]
    · simp [hphase, hclosed, hbefore]
  · rw [hf] at hfinished
    have hphase : s'.phase = .satisfied := by simpa using hfinished.symm
    simp [hincomplete, hphase]

theorem Openly.exhausted {incomplete : Bool} (hexhausted : s.Exhausted reader incomplete s')
    (hphase : s'.phase ≠ .satisfied)
    (hincomplete : incomplete = true ↔ s'.phase ≠ .passthrough) : s'.Openly closed := by
  have hends : s'.stats.sourceClosed = false := by
    have hending := congrArg Ending.sourceClosed hexhausted.ending
    rw [hsilent] at hending
    exact hending
  have hincomplete' : s'.stats.incompleteFile = incomplete := by
    have hending := congrArg Ending.incompleteFile hexhausted.ending
    rw [hsilent] at hending
    exact hending
  refine ⟨hcancel, ?_, fun _ => ?_, fun _ => ?_⟩
  · show s'.reader.source.closed = _
    rw [hexhausted.reader, hclosed, h.source, hends,
      show s.stats.sourceClosed = false from congrArg Ending.sourceClosed hsilent]
  · rw [hends]
    simpa using hphase
  · rw [hincomplete', hincomplete]
    simp [hphase]

end

theorem Openly.operate {v₀ : View} (hv₀ : v₀.Initial) {closed : Bool} {s : Session}
    {entries : List Handled} (hs : Steady v₀ s entries) (h : s.Openly closed) {op : Operation}
    (hop : op ≠ .call .cancel) (hok : s.outcome op = .ok ()) : (s.operate op).2.Openly closed := by
  have hsuccess := hs.success hv₀ hok
  generalize s.operate op = after at hsuccess
  cases hsuccess with
  | idle => exact h
  | cancelled hcancel => exact absurd hcancel hop
  | stopped _ _ hc =>
    rw [h.uncancelled] at hc
    cases hc
  | begins entries s' hf _ hbegins =>
    have hsilent := hs.silent hf
    cases hbegins with
    | root header block fate reader reader' _ hread hnext hturn _ hsettled =>
      exact h.settled hsilent
        ((Reader.closed_of_next hnext).trans (Reader.closed_of_readHeader hread))
        (hturn.keeps.cancelRequested.trans h.uncancelled) hsettled
    | empty header selection reader reader' _ hread hnext hphase hview hexhausted =>
      have hpass : s'.phase = .passthrough := by
        rw [← phase_view, hview]
        exact hphase
      exact h.exhausted hsilent
        ((Reader.closed_of_next hnext).trans (Reader.closed_of_readHeader hread))
        ((congrArg View.cancelRequested hview).trans h.uncancelled) hexhausted
        (by simp [hpass]) (by simp [hpass])
  | advances entries s' hf hready hadvances =>
    have hsilent := hs.silent hf
    cases hadvances with
    | block block fate reader _ hnext hturn _ hsettled =>
      exact h.settled hsilent (Reader.closed_of_next hnext)
        (hturn.keeps.cancelRequested.trans h.uncancelled) hsettled
    | exhausted reader _ hnext hview hexhausted =>
      have hphase : s'.phase = s.phase := congrArg View.phase hview
      refine h.exhausted hsilent (Reader.closed_of_next hnext)
        ((congrArg View.cancelRequested hview).trans h.uncancelled) hexhausted ?_ ?_
      · rw [hphase]
        exact hready.not_satisfied
      · -- A session that is ready passes everything through, or the layout has slots to fill.
        rw [hphase]
        rcases hready.selection with ⟨selection, hselection, hpass | ⟨-, hunderway⟩⟩
        · have hpass : s.phase = .passthrough := by
            rw [← phase_view, View.phase, hselection]
            exact hpass
          simp [hpass]
        · have hunderway : s.layout.stage = .underway := hunderway
          simp [Layout.isIncomplete, hunderway]

theorem Openly.perform {v₀ : View} (hv₀ : v₀.Initial) {closed : Bool} {s : Session}
    {entries : List Handled} (hs : Steady v₀ s entries) (h : s.Openly closed)
    {ops : List Operation} (hops : .call .cancel ∉ ops) (hok : s.Succeeds ops) :
    (s.perform ops).2.Openly closed := by
  induction ops generalizing s entries with
  | nil => exact h
  | cons op ops ih =>
    simp only [List.mem_cons, not_or] at hops
    rcases hok with ⟨hfirst, hrest⟩
    exact ih (hs.operate hv₀ op) (h.operate hv₀ hs (Ne.symm hops.1) hfirst) hops.2 hrest

/-- Whatever a source holds and whatever is done to a session: no block is placed behind the
end of the file, and a complete file ends the session.  If no operation fails and none
cancels the session, then one that has ended is satisfied, or has passed everything through,
or says that the file is incomplete, and no two of these.  It has closed its source if it is
satisfied and not else. -/
theorem ends_as_reported (source : Source) (sink : Sink) (request : ByteRange)
    (options : ReaderOptions) (retains : Bool) (ops : List Operation) :
    let entries := ((new source sink request options retains).perform ops).1
    let s := ((new source sink request options retains).perform ops).2
    (∀ e ∈ entries, ∀ offset, e.placement ≠ some (.detached offset)) ∧
      (s.layout.isComplete = true → s.finished = true) ∧
      (.call .cancel ∉ ops → (new source sink request options retains).Succeeds ops →
        s.finished = true →
        s.stats.phase = s.phase ∧
          (s.stats.incompleteFile = true ↔ s.phase ≠ .satisfied ∧ s.phase ≠ .passthrough) ∧
          s.stats.sourceClosed = (s.phase == .satisfied) ∧
          s.source.closed = (source.closed || s.phase == .satisfied)) := by
  intro entries s
  have hinitial := initial_new source sink request options retains
  have hsteady := steady_new source sink request options retains
  have hafter : Steady (new source sink request options retains).view s entries :=
    hsteady.perform hinitial ops
  refine ⟨?_, fun hcomplete => ?_, fun hops hok hf => ?_⟩
  · have hinvariant : View.Invariant fun _ entries =>
        ∀ e ∈ entries, ∀ offset, e.placement ≠ some (.detached offset) := by
      intro v v' entries handled hmoves hp e he
      rcases List.mem_append.1 he with he | he
      · exact hp e he
      · exact hmoves.not_detached he
    exact hsteady.toSound.invariant hinitial hinvariant (by simp) ops
  · have hinvariant : View.Invariant fun v _ => v.Unfilled :=
      fun v v' entries handled hmoves hp => hmoves.unfilled hp
    have hunfilled : s.view.Unfilled :=
      hsteady.toSound.invariant hinitial hinvariant (fun hphase => by cases hphase) ops
    by_contra hf
    have hf : s.finished = false := by simpa using hf
    rcases hafter.goesOn hf with ⟨-, hview⟩ | hready
    · have hlayout : s.layout = Layout.new retains := congrArg View.layout hview
      rw [hlayout] at hcomplete
      cases hcomplete
    · rcases hready.selection with ⟨selection, hselection, hpass | ⟨-, hunderway⟩⟩
      · have hphase : s.view.phase = .passthrough := by
          rw [View.phase, hselection]
          exact hpass
        have hnot : s.layout.isComplete = false := hunfilled hphase
        rw [hcomplete] at hnot
        cases hnot
      · have hunderway : s.layout.stage = .underway := hunderway
        simp [Layout.isComplete, hunderway] at hcomplete
  · have hopenly : s.Openly source.closed :=
      Openly.perform hinitial hsteady (openly_new source sink request options retains) hops hok
    have hreports : s.Reports := hsteady.reports hinitial hok (fun hf => by cases hf) hf
    refine ⟨hreports.phase, hopenly.incompleteFile hf, hopenly.sourceClosed hf, ?_⟩
    rw [hopenly.source, hopenly.sourceClosed hf]

end Session

end CarSlice
