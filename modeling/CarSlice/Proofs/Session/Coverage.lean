import CarSlice.Proofs.NodeSizes
import CarSlice.Proofs.Session.Journal

/-!
# No block that is needed is dropped

Whatever bytes a session reads, and whatever is asked of it, its journal explains its
counts and its output.  Two invariants carry this from step to step.

* `Counted`: the counts and the writes are those of the journal.
* `Placed`: the intervals of the journal tile the file up to the cursor, the selection
  tracks the cursor, and what was dropped lies before the range.

`no_needed_block_dropped` puts them together: a session that is satisfied has seen the
whole range, and has dropped no byte of it.
-/

namespace CarSlice

open Archive (Block Header ReaderOptions)
open UnixFs (Content)

namespace Session

/-- The intervals of blocks that were handled, in order. -/
def placedIntervals (entries : List Handled) : List Interval :=
  entries.filterMap Handled.interval?

/-- The writes of the blocks that were written, in order. -/
def framesOf (entries : List Handled) : List Bytes :=
  (entries.filter (·.fate == .written)).map (·.block.frame)

theorem placedIntervals_append (entries : List Handled) (e : Handled) :
    placedIntervals (entries ++ [e]) = placedIntervals entries ++ e.interval?.toList := by
  cases h : e.interval? <;> simp [placedIntervals, h]

/-! ## Counts and writes -/

/-- What a session has counted and written since the view `v₀` is what its entries say. -/
structure Counted (v₀ v : View) (entries : List Handled) : Prop where
  out : v.blocksOut = v₀.blocksOut + entries.countP (·.fate == .written)
  discarded : v.blocksDiscarded = v₀.blocksDiscarded + entries.countP (·.fate == .dropped)
  /-- In front of the blocks there is at most the header. -/
  taken : ∃ front, front.length ≤ 1 ∧
    v.taken.reverse = v₀.taken.reverse ++ front ++ framesOf entries
  accepts : v₀.accepts = true → v.accepts = true
  /-- Once the range was found to lie in the file, only the sink makes a session fail. -/
  refused : v.selection ≠ none → ∀ e ∈ entries, e.fate = .failed → v₀.accepts = false

theorem Counted.emits {v₀ w v' : View} {entries : List Handled} (h : Counted v₀ w entries)
    (hselection : w.selection ≠ none) {block : Block} {fate : Fate}
    (hv : w.Emits block fate v') (p : Option Placement) :
    Counted v₀ v' (entries ++ [⟨block, p, fate⟩]) := by
  rcases h.taken with ⟨front, hfront, htaken⟩
  have hrefused := h.refused hselection
  cases hv with
  | written =>
    refine ⟨?_, ?_, ⟨front, hfront, ?_⟩, h.accepts, fun _ => ?_⟩
    · show w.blocksOut + 1 = _
      rw [h.out]
      simp
      omega
    · show w.blocksDiscarded = _
      rw [h.discarded]
      simp
    · show (block.frame :: w.taken).reverse = _
      rw [List.reverse_cons, htaken]
      simp [framesOf]
    · intro e he hfate
      rcases List.mem_append.1 he with he | he
      · exact hrefused e he hfate
      · obtain rfl := List.mem_singleton.1 he
        cases hfate
  | refused haccepts =>
    refine ⟨?_, ?_, ⟨front, hfront, ?_⟩, h.accepts, fun _ => ?_⟩
    · rw [h.out]
      simp
    · rw [h.discarded]
      simp
    · rw [htaken]
      simp [framesOf]
    · intro e he hfate
      cases hv₀ : v₀.accepts with
      | false => rfl
      | true =>
        rw [h.accepts hv₀] at haccepts
        cases haccepts

theorem Counted.turn {v₀ v v' : View} {entries : List Handled} (h : Counted v₀ v entries)
    (hselection : v.selection ≠ none) {block : Block} {p : Option Placement} {fate : Fate}
    (hv : v.Turn block p fate v') : Counted v₀ v' (entries ++ [⟨block, p, fate⟩]) := by
  have hdecided (selection : Selection) : Counted v₀ (v.decided selection block) entries :=
    ⟨h.out, h.discarded, h.taken, h.accepts, fun _ => h.refused hselection⟩
  cases hv with
  | passed _ _ _ hemits => exact h.emits hselection hemits none
  | kept selection _ _ _ _ _ _ hemits =>
    exact (hdecided selection).emits (by simp [View.decided]) hemits _
  | dropped selection =>
    rcases h.taken with ⟨front, hfront, htaken⟩
    refine ⟨?_, ?_, ⟨front, hfront, ?_⟩, h.accepts, fun _ => ?_⟩
    · show v.blocksOut = _
      rw [h.out]
      simp
    · show v.blocksDiscarded + 1 = _
      rw [h.discarded]
      simp
      omega
    · show v.taken.reverse = _
      rw [htaken]
      simp [framesOf]
    · intro e he hfate
      rcases List.mem_append.1 he with he | he
      · exact h.refused hselection e he hfate
      · obtain rfl := List.mem_singleton.1 he
        cases hfate

/-- At its root a session has counted nothing yet. -/
theorem counted_rootTurn {v v' : View} (hselection : v.selection = none) {header : Header}
    {block : Block} {fate : Fate} (hv : v.RootTurn header block fate v')
    (p : Option Placement) : Counted v v' [⟨block, p, fate⟩] := by
  cases hv with
  | outside e h hstop =>
    refine ⟨by simp [View.rootPlaced], by simp [View.rootPlaced], ⟨[], by simp, ?_⟩, id,
      fun hsome => absurd hselection hsome⟩
    simp [View.rootPlaced, framesOf]
  | refused _ hw haccepts =>
    have hrefused : v.accepts = false := by cases hw <;> exact haccepts
    rcases hw.counts with ⟨hout, hdiscarded⟩
    refine ⟨by simp [hout], by simp [hdiscarded], ⟨[], by simp, ?_⟩, ?_, fun _ _ _ _ => hrefused⟩
    · cases hw <;> simp [View.rootPlaced, framesOf]
    · intro h
      rw [h] at hrefused
      cases hrefused
  | emitted w _ _ hw hemits =>
    have hcounted : Counted v (w.writeHeader header) [] := by
      rcases hw.counts with ⟨hout, hdiscarded⟩
      refine ⟨hout, hdiscarded, ⟨[header.frame], by simp, ?_⟩, ?_, by simp⟩
      · cases hw <;> simp [View.writeHeader, View.rootPlaced, framesOf]
      · intro h
        cases hw <;> exact h
    have hsome : (w.writeHeader header).selection ≠ none := by
      cases hw <;> simp [View.writeHeader]
    exact hcounted.emits hsome hemits p

/-! ## Intervals and the range -/

/-- How far a session has come in the file, and that it dropped nothing it needs. -/
structure Placed (v : View) (entries : List Handled) : Prop where
  layout : v.layout.Valid
  fileSize_le : ∀ size ∈ v.layout.fileSize, size ≤ maxCount
  tiles : Tiles 0 (placedIntervals entries) v.layout.cursor
  dropped : ∀ e ∈ entries, e.fate = .dropped →
    ∃ i, e.placement = some (.leaf i) ∧ i.stop ≤ v.request.start
  selected : ∀ selection ∈ v.selection, selection.phase ≠ .passthrough →
    ∃ stop, v.resolvedEnd = some stop ∧ (∃ size, v.layout.fileSize = some size ∧ stop ≤ size) ∧
      selection.Tracks v.request.start stop v.layout.cursor ∧
      (selection.phase = .satisfied → stop ≤ v.layout.cursor)

/-- A complete file reaches to the end of the range. -/
theorem Placed.noteComplete {v : View} {entries : List Handled} (h : Placed v entries) :
    Placed v.noteComplete entries := by
  refine ⟨h.layout, h.fileSize_le, h.tiles, h.dropped, ?_⟩
  by_cases hcomplete : v.layout.isComplete = true
  · intro selection hselection hphase
    simp only [View.noteComplete, hcomplete, if_true] at hselection
    obtain ⟨selection', hselection', rfl⟩ := Option.map_eq_some_iff.1 hselection
    have hphase' : selection'.phase ≠ .passthrough := by
      intro hp
      simp [Selection.fileComplete, hp] at hphase
    obtain ⟨stop, hstop, ⟨size, hsize, hle⟩, htracks, -⟩ :=
      h.selected selection' hselection' hphase'
    have hcursor := h.layout.fileSize_of_complete (by simpa [Layout.isComplete] using hcomplete)
      h.fileSize_le
    have hreached : stop ≤ v.layout.cursor := by
      rw [hsize] at hcursor
      have := Option.some.inj hcursor
      omega
    refine ⟨stop, hstop, ⟨size, hsize, hle⟩, ?_, fun _ => hreached⟩
    simp only [Selection.fileComplete, hphase', if_false]
    exact ⟨htracks.startRemaining, htracks.endRemaining, by simp⟩
  · intro selection hselection
    simp only [View.noteComplete, hcomplete, if_false, Bool.false_eq_true] at hselection
    exact h.selected selection hselection

theorem Placed.emits {w v' : View} {entries : List Handled} (h : Placed w entries)
    {block : Block} {fate : Fate} (hv : w.Emits block fate v') : Placed v' entries := by
  cases hv with
  | written =>
    have hwritten : Placed (w.writeBlock block) entries :=
      ⟨h.layout, h.fileSize_le, h.tiles, h.dropped, h.selected⟩
    exact hwritten.noteComplete
  | refused => exact h

/-- Placing the next block moves the cursor behind its interval, and the selection with
it.  The block may be dropped if the selection says so. -/
theorem Placed.decided {v : View} {entries : List Handled} (h : Placed v entries)
    {selection : Selection} (hselection : v.selection = some selection)
    (hopen : selection.phase.isOpen = true) (hunderway : v.layout.stage = .underway)
    {block : Block} {fate : Fate}
    (hfate : fate = .dropped →
      (selection.decide (v.layout.place (.ofBlock block)).1).1 = .drop) :
    Placed (v.decided selection block)
      (entries ++ [⟨block, some (v.layout.place (.ofBlock block)).1, fate⟩]) := by
  have hphase : selection.phase ≠ .passthrough := by
    intro hp
    simp [hp, Phase.isOpen] at hopen
  obtain ⟨stop, hstop, ⟨size, hsize, hle⟩, htracks, -⟩ :=
    h.selected selection hselection hphase
  have hplace := Selection.decide_place h.layout (by simp [hunderway]) htracks hopen
    (.ofBlock block)
  refine ⟨h.layout.place _, ?_, ?_, ?_, ?_⟩
  · refine Layout.place_fileSize_le h.layout h.fileSize_le fun hfresh => ?_
    simp [hunderway] at hfresh
  · rw [placedIntervals_append]
    exact h.tiles.append (Layout.place_tiles h.layout _)
  · intro e he hdropped
    rcases List.mem_append.1 he with he | he
    · exact h.dropped e he hdropped
    · obtain rfl := List.mem_singleton.1 he
      have hdrop := hfate hdropped
      rcases hplace with ⟨-, -, hemit, -⟩ | ⟨-, hinterval, hfollows⟩
      · rw [hemit] at hdrop
        cases hdrop
      · rw [hdrop] at hfollows
        rcases hfollows.of_drop with ⟨hdata, hbefore⟩
        refine ⟨v.layout.span (.ofBlock block), ?_, hbefore⟩
        show some (v.layout.place (.ofBlock block)).1 = _
        rw [hinterval, Placement.ofInterval, if_pos hdata]
  · intro selection' hselection' hphase'
    obtain rfl := Option.some.inj hselection'
    rcases hplace with ⟨-, -, -, hpass⟩ | ⟨hslots, -, hfollows⟩
    · exact absurd hpass hphase'
    · obtain ⟨slots, hslots⟩ := Option.isSome_iff_exists.1 hslots
      obtain ⟨frames, -, -, htaken⟩ := Layout.place_taken h.layout hslots
      have hlayout : (v.decided selection block).layout =
          v.layout.taken (.ofBlock block) frames := by
        show (v.layout.place (.ofBlock block)).2 = _
        rw [htaken]
      rw [hlayout]
      refine ⟨stop, hstop, ⟨size, ?_, hle⟩, hfollows.tracks, fun hsatisfied => ?_⟩
      · show some (v.layout.fileSize.getD _) = some size
        rw [hsize]
        rfl
      · exact hfollows.stop_le hsatisfied

theorem Placed.turn {v v' : View} {entries : List Handled} (h : Placed v entries)
    {block : Block} {p : Option Placement} {fate : Fate} (hv : v.Turn block p fate v') :
    Placed v' (entries ++ [⟨block, p, fate⟩]) := by
  cases hv with
  | passed _ _ _ hemits =>
    refine Placed.emits (w := v) ⟨h.layout, h.fileSize_le, ?_, ?_, h.selected⟩ hemits
    · rw [placedIntervals_append]
      simpa [Handled.interval?] using h.tiles
    · intro e he hdropped
      rcases List.mem_append.1 he with he | he
      · exact h.dropped e he hdropped
      · obtain rfl := List.mem_singleton.1 he
        cases hemits <;> cases hdropped
  | kept selection _ _ hselection hopen hunderway _ hemits =>
    refine Placed.emits (h.decided hselection hopen hunderway ?_) hemits
    intro hdropped
    cases hemits <;> cases hdropped
  | dropped selection hselection hopen hunderway hdrop =>
    have hdecided : Placed (v.decided selection block)
        (entries ++ [⟨block, some (v.layout.place (.ofBlock block)).1, .dropped⟩]) :=
      h.decided hselection hopen hunderway fun _ => hdrop
    have hdropped : Placed (v.decided selection block).dropBlock
        (entries ++ [⟨block, some (v.layout.place (.ofBlock block)).1, .dropped⟩]) :=
      ⟨hdecided.layout, hdecided.fileSize_le, hdecided.tiles, hdecided.dropped,
        hdecided.selected⟩
    exact hdropped.noteComplete

/-! ## The root -/

theorem View.placeRoot_of_not_mismatch {v : View} {header : Header} {block : Block}
    (h : ∀ offset reason, (v.placeRoot header block).1 ≠ .mismatch offset reason) :
    v.placeRoot header block = v.layout.place (.ofBlock block) := by
  unfold placeRoot at h ⊢
  split_ifs at h ⊢
  · rfl
  · exact absurd rfl (h 0 .notHeaderRoot)

theorem placed_rootPlaced {v : View} (hlayout : v.layout.Valid) (hsize : v.layout.fileSize = none)
    (hselection : v.selection = none) (header : Header) (block : Block) {fate : Fate}
    (hfate : fate ≠ .dropped) :
    Placed (v.rootPlaced header block) [⟨block, some (v.placeRoot header block).1, fate⟩] := by
  have hcursor := hlayout.unsized hsize
  have hnone : ∀ size ∈ v.layout.fileSize, size ≤ maxCount := by simp [hsize]
  have htiles : placedIntervals [⟨block, some (v.placeRoot header block).1, fate⟩] =
      (v.placeRoot header block).1.interval?.toList :=
    placedIntervals_append [] _
  have hnodes : ∀ root, Content.ofBlock block = .node root → root.inlineSize ≤ maxCount :=
    fun root => Content.inlineSize_le_of_ofBlock
  have hroot : (v.placeRoot header block).2.Valid ∧
      (∀ size ∈ (v.placeRoot header block).2.fileSize, size ≤ maxCount) ∧
      Tiles 0 (v.placeRoot header block).1.interval?.toList
        (v.placeRoot header block).2.cursor := by
    unfold View.placeRoot
    split_ifs
    · refine ⟨hlayout.place _, Layout.place_fileSize_le hlayout hnone fun _ => hnodes, ?_⟩
      rw [← hcursor]
      exact Layout.place_tiles hlayout _
    · exact ⟨hlayout, hnone, hcursor.symm⟩
  refine ⟨hroot.1, hroot.2.1, ?_, ?_, ?_⟩
  · rw [htiles]
    exact hroot.2.2
  · intro e he hdropped
    obtain rfl := List.mem_singleton.1 he
    exact absurd hdropped hfate
  · intro selection hmem
    have hmem : v.selection = some selection := hmem
    rw [hselection] at hmem
    cases hmem

theorem placed_chosen {v w : View} (hlayout : v.layout.Valid) (hfresh : v.layout.stage = .fresh)
    (hselection : v.selection = none) {header : Header} {block : Block}
    (hw : v.Chosen header block w) {fate : Fate} (hfate : fate ≠ .dropped) :
    Placed w [⟨block, some (v.placeRoot header block).1, fate⟩] := by
  have hsize := hlayout.fresh hfresh
  have h := placed_rootPlaced hlayout hsize hselection header block hfate
  cases hw with
  | passed selection _ hphase =>
    refine ⟨h.layout, h.fileSize_le, h.tiles, h.dropped, ?_⟩
    intro selection' hmem hnot
    obtain rfl := Option.some.inj hmem
    exact absurd hphase hnot
  | selected stop hnot hstop =>
    refine ⟨h.layout, h.fileSize_le, h.tiles, h.dropped, ?_⟩
    intro selection hmem hphase
    obtain rfl := Option.some.inj hmem
    have hplaced := View.placeRoot_of_not_mismatch hnot
    rw [hplaced] at hnot hstop
    have htracks : (Selection.ofRange v.request.start stop
        (some ((v.layout.place (.ofBlock block)).2.fileSize.getD 0))).Tracks
          v.request.start stop v.layout.cursor := by
      rw [hlayout.unsized hsize]
      exact Selection.tracks_ofRange _ _ _
    rcases Selection.decide_place hlayout (by simp [hfresh]) htracks rfl (.ofBlock block) with
      ⟨-, ⟨offset, reason, hmismatch⟩, -⟩ | ⟨hslots, -, hfollows⟩
    · exact absurd hmismatch (hnot offset reason)
    · obtain ⟨slots, hslots⟩ := Option.isSome_iff_exists.1 hslots
      obtain ⟨frames, -, -, htaken⟩ := Layout.place_taken hlayout hslots
      have hcursor : (v.layout.place (.ofBlock block)).2.cursor =
          (v.layout.span (.ofBlock block)).stop := by rw [htaken]; rfl
      have hfile : ∃ size, (v.layout.place (.ofBlock block)).2.fileSize = some size := by
        rw [htaken]
        exact ⟨_, rfl⟩
      rcases hfile with ⟨size, hfile⟩
      have hle := (ByteRange.resolve_le hstop).2
      show ∃ stop', some stop = some stop' ∧
        (∃ size, (v.placeRoot header block).2.fileSize = some size ∧ stop' ≤ size) ∧
        Selection.Tracks _ v.request.start stop' (v.placeRoot header block).2.cursor ∧
        (_ → stop' ≤ (v.placeRoot header block).2.cursor)
      rw [hplaced, hcursor]
      exact ⟨stop, rfl, ⟨size, hfile, by simpa [hfile] using hle⟩, hfollows.tracks,
        fun hsatisfied => hfollows.stop_le hsatisfied⟩

theorem placed_rootTurn {v v' : View} (hlayout : v.layout.Valid)
    (hfresh : v.layout.stage = .fresh) (hselection : v.selection = none) {header : Header}
    {block : Block} {fate : Fate} (hv : v.RootTurn header block fate v') :
    Placed v' [⟨block, some (v.placeRoot header block).1, fate⟩] := by
  cases hv with
  | outside =>
    exact placed_rootPlaced hlayout (hlayout.fresh hfresh) hselection header block (by simp)
  | refused _ hw => exact placed_chosen hlayout hfresh hselection hw (by simp)
  | emitted w _ _ hw hemits =>
    have hfate : fate ≠ .dropped := by cases hemits <;> simp
    have h := placed_chosen hlayout hfresh hselection hw hfate
    have hwritten : Placed (w.writeHeader header) _ :=
      ⟨h.layout, h.fileSize_le, h.tiles, h.dropped, h.selected⟩
    exact hwritten.emits hemits

/-! ## Sessions that go on -/

/-- Behind a block that was written or dropped, a session that is not satisfied is ready
for the next one. -/
theorem ready_noteComplete {w : View} (hstarted : w.started = true)
    (hheader : w.headerWritten = true) {selection : Selection}
    (hselection : w.selection = some selection)
    (hstage : selection.phase = .passthrough ∨
      w.layout.stage = .underway ∨ w.layout.stage = .complete)
    (hnot : w.noteComplete.phase ≠ .satisfied) : w.noteComplete.Ready := by
  refine ⟨hstarted, hheader, ?_⟩
  by_cases hcomplete : w.layout.isComplete = true
  · have hnoted : w.noteComplete.selection = some selection.fileComplete := by
      simp [View.noteComplete, hcomplete, hselection]
    rw [View.phase, hnoted] at hnot
    refine ⟨_, hnoted, Or.inl ?_⟩
    by_cases hphase : selection.phase = .passthrough
    · simp [Selection.fileComplete, hphase]
    · simp [Selection.fileComplete, hphase] at hnot
  · have hnoted : w.noteComplete.selection = some selection := by
      simp [View.noteComplete, hcomplete, hselection]
    rw [View.phase, hnoted] at hnot
    refine ⟨_, hnoted, ?_⟩
    rcases hstage with hphase | hunderway | hstage
    · exact Or.inl hphase
    · have hnot : selection.phase ≠ .satisfied := hnot
      cases hphase : selection.phase <;> simp_all [Phase.isOpen, View.noteComplete]
    · exact absurd (by simp [Layout.isComplete, hstage]) hcomplete

theorem View.Emits.ready {w v' : View} {block : Block} {fate : Fate}
    (h : w.Emits block fate v') (hfate : fate ≠ .failed) (hnot : v'.phase ≠ .satisfied)
    (hstarted : w.started = true) (hheader : w.headerWritten = true) {selection : Selection}
    (hselection : w.selection = some selection)
    (hstage : selection.phase = .passthrough ∨
      w.layout.stage = .underway ∨ w.layout.stage = .complete) : v'.Ready := by
  cases h with
  | written => exact ready_noteComplete (w := w.writeBlock block) hstarted hheader hselection hstage hnot
  | refused => exact absurd rfl hfate

/-- The selection passes everything through, or the layout has taken the block. -/
theorem stage_of_decide {l : Layout} (hl : l.Valid) (hstage : l.stage ≠ .complete)
    {s : Selection} (hopen : s.phase.isOpen = true) (c : Content) :
    (s.decide (l.place c).1).2.phase = .passthrough ∨
      (l.place c).2.stage = .underway ∨ (l.place c).2.stage = .complete := by
  cases hslots : l.slotsAfter? c with
  | none =>
    left
    rcases Layout.place_refused hl hslots with ⟨reason, hplace⟩ | ⟨hcomplete, -⟩
    · rw [hplace]
      exact (Selection.decide_mismatch hopen _ _).2
    · exact absurd hcomplete hstage
  | some slots => exact Or.inr (Layout.place_pending hl hslots).2

theorem View.Turn.ready {v v' : View} {block : Block} {p : Option Placement} {fate : Fate}
    (h : v.Turn block p fate v') (hlayout : v.layout.Valid) (hready : v.Ready)
    (hfate : fate ≠ .failed) (hnot : v'.phase ≠ .satisfied) : v'.Ready := by
  cases h with
  | passed _ _ hphase hemits =>
    rcases hready.selection with ⟨selection, hselection, -⟩
    rw [View.phase, hselection] at hphase
    exact hemits.ready hfate hnot hready.started hready.headerWritten hselection
      (Or.inl hphase)
  | kept selection _ _ hselection hopen hunderway _ hemits =>
    exact hemits.ready hfate hnot hready.started hready.headerWritten rfl
      (stage_of_decide hlayout (by simp [hunderway]) hopen _)
  | dropped selection hselection hopen hunderway =>
    exact ready_noteComplete (w := (v.decided selection block).dropBlock) hready.started
      hready.headerWritten rfl (stage_of_decide hlayout (by simp [hunderway]) hopen _) hnot

theorem View.RootTurn.ready {v v' : View} {header : Header} {block : Block} {fate : Fate}
    (h : v.RootTurn header block fate v') (hlayout : v.layout.Valid)
    (hfresh : v.layout.stage = .fresh) (hstarted : v.started = true) (hfate : fate ≠ .failed)
    (hnot : v'.phase ≠ .satisfied) : v'.Ready := by
  cases h with
  | outside => exact absurd rfl hfate
  | refused => exact absurd rfl hfate
  | emitted w _ _ hw hemits =>
    cases hw with
    | passed selection _ hphase =>
      exact hemits.ready hfate hnot hstarted rfl rfl (Or.inl hphase)
    | selected stop hmismatch hstop =>
      have hplaced := View.placeRoot_of_not_mismatch hmismatch
      apply hemits.ready hfate hnot hstarted rfl rfl
      show _ ∨ (v.placeRoot header block).2.stage = _ ∨ (v.placeRoot header block).2.stage = _
      rw [hplaced]
      exact stage_of_decide hlayout (by simp [hfresh]) rfl _

/-! ## Every run -/

/-- What holds of a session that started with the view `v₀` and has handled `entries`. -/
structure Consistent (v₀ : View) (s : Session) (entries : List Handled) : Prop where
  request : s.view.request = v₀.request
  counted : Counted v₀ s.view entries
  placed : Placed s.view entries
  /-- The session has not begun, or it is ready for the next block. -/
  goesOn : s.finished = false →
    entries = [] ∧ s.view = { v₀ with cancelRequested := s.cancelRequested } ∨ s.view.Ready
  /-- A block on which the session failed is the last one. -/
  failed : ∀ e ∈ entries, e.fate = .failed → s.finished = true ∧ entries.getLast? = some e

/-- The view of a session that has not begun. -/
structure View.Initial (v₀ : View) : Prop where
  layout : ∃ retains, v₀.layout = Layout.new retains
  selection : v₀.selection = none
  headerWritten : v₀.headerWritten = false
  started : v₀.started = false

theorem consistent_refl {s : Session} (h : s.view.Initial) : Consistent s.view s [] := by
  rcases h.layout with ⟨retains, hlayout⟩
  have hvalid := Layout.valid_new retains
  refine ⟨rfl, ⟨rfl, rfl, ⟨[], by simp, by simp [framesOf]⟩, id, by simp⟩, ?_, ?_, by simp⟩
  · rw [← hlayout] at hvalid
    refine ⟨hvalid, by simp [hlayout], ?_, by simp, by simp [h.selection]⟩
    rw [hlayout]
    rfl
  · intro _
    exact Or.inl ⟨rfl, rfl⟩

/-- What has been counted does not depend on whether the session has begun. -/
theorem Counted.of_eq {v₀ v v' : View} {entries : List Handled}
    (hv : v = { v₀ with started := v.started, cancelRequested := v.cancelRequested })
    (h : Counted v v' entries) : Counted v₀ v' entries := by
  rw [hv] at h
  exact ⟨h.out, h.discarded, h.taken, h.accepts, h.refused⟩

theorem counted_ended {v v' : View} (h : v.Ended v') : Counted v v' [] := by
  cases h with
  | unread => exact ⟨rfl, rfl, ⟨[], by simp, by simp [framesOf]⟩, id, by simp⟩
  | passed => exact ⟨rfl, rfl, ⟨[], by simp, by simp [framesOf]⟩, id, by simp⟩
  | written header =>
    exact ⟨rfl, rfl, ⟨[header.frame], by simp, by simp [framesOf, View.writeHeader]⟩, id, by simp⟩

theorem placed_ended {v v' : View} (hplaced : Placed v []) (h : v.Ended v') : Placed v' [] := by
  cases h with
  | unread => exact hplaced
  | passed selection hphase =>
    refine ⟨hplaced.layout, hplaced.fileSize_le, hplaced.tiles, hplaced.dropped, ?_⟩
    intro selection' hmem hnot
    obtain rfl := Option.some.inj hmem
    exact absurd hphase hnot
  | written header selection hphase =>
    refine ⟨hplaced.layout, hplaced.fileSize_le, hplaced.tiles, hplaced.dropped, ?_⟩
    intro selection' hmem hnot
    obtain rfl := Option.some.inj hmem
    exact absurd hphase hnot

/-- A block was handled, and the session goes on only if it is ready. -/
theorem Consistent.handle {v₀ : View} {s s' : Session} {entries : List Handled} {e : Handled}
    (h : Consistent v₀ s entries) (hf : s.finished = false)
    (hrequest : s'.view.request = s.view.request) (hcounted : Counted v₀ s'.view (entries ++ [e]))
    (hplaced : Placed s'.view (entries ++ [e]))
    (hready : s'.finished = false → e.fate ≠ .failed ∧ s'.view.Ready) :
    Consistent v₀ s' (entries ++ [e]) := by
  refine ⟨hrequest.trans h.request, hcounted, hplaced, fun hf' => Or.inr (hready hf').2, ?_⟩
  intro e' he hfailed
  rcases List.mem_append.1 he with he | he
  · have hfinished := (h.failed e' he hfailed).1
    rw [hf] at hfinished
    cases hfinished
  · obtain rfl := List.mem_singleton.1 he
    refine ⟨?_, by simp⟩
    by_contra hnot
    exact (hready (by simpa using hnot)).1 hfailed

/-- The session has ended without another block. -/
theorem Consistent.finish {v₀ : View} {s s' : Session} {entries : List Handled}
    (h : Consistent v₀ s entries) (hf : s.finished = false) (hf' : s'.finished = true)
    (hrequest : s'.view.request = s.view.request) (hcounted : Counted v₀ s'.view entries)
    (hplaced : Placed s'.view entries) : Consistent v₀ s' entries := by
  refine ⟨hrequest.trans h.request, hcounted, hplaced, fun hnot => ?_, ?_⟩
  · rw [hf'] at hnot
    cases hnot
  · intro e he hfailed
    have hfinished := (h.failed e he hfailed).1
    rw [hf] at hfinished
    cases hfinished

theorem Consistent.step_ready {v₀ : View} {s : Session} {entries : List Handled}
    (h : Consistent v₀ s entries) (hf : s.finished = false) (hc : s.cancelRequested = false)
    (hready : s.view.Ready) : Consistent v₀ s.step.2 (entries ++ s.handled) := by
  rcases step_turn hf hc hready with ⟨hnone, hview, hends⟩ | ⟨block, fate, hsome, hturn, hgo⟩
  · rw [hnone, List.append_nil]
    exact h.finish hf hends (by rw [hview]) (hview ▸ h.counted) (hview ▸ h.placed)
  · rcases hready.selection with ⟨selection, hselection, -⟩
    rw [hsome]
    refine h.handle hf hturn.keeps.request (h.counted.turn (by simp [hselection]) hturn)
      (h.placed.turn hturn) ?_
    intro hf'
    obtain ⟨hfate, hnot⟩ := hgo hf'
    exact ⟨hfate, hturn.ready h.placed.layout hready hfate hnot⟩

/-- A session whose root was handled, or that ended before it. -/
theorem Consistent.opened {v₀ : View} (hv₀ : v₀.Initial) {s s' : Session} {entries : List Handled}
    (h : Consistent v₀ s []) (hf : s.finished = false)
    (hview : s.view = { v₀ with cancelRequested := s.cancelRequested })
    (hroot : (entries = [] ∧ View.Ended { s.view with started := true } s'.view ∧
        s'.finished = true) ∨
      ∃ header block fate, entries = [⟨block, some (s.view.placeRoot header block).1, fate⟩] ∧
        View.RootTurn { s.view with started := true } header block fate s'.view ∧
        s'.GoesOn fate) : Consistent v₀ s' entries := by
  rcases hv₀.layout with ⟨retains, hlayout⟩
  have hselection : { s.view with started := true }.selection = none :=
    (congrArg View.selection hview).trans hv₀.selection
  have hfresh : s.view.layout.stage = .fresh := by
    rw [congrArg View.layout hview]
    show v₀.layout.stage = .fresh
    rw [hlayout]
  have hplaced : Placed { s.view with started := true } [] :=
    ⟨h.placed.layout, h.placed.fileSize_le, h.placed.tiles, h.placed.dropped, h.placed.selected⟩
  have hv : { s.view with started := true } =
      { v₀ with started := true, cancelRequested := s.view.cancelRequested } := by
    rw [hview]
  rcases hroot with ⟨rfl, hended, hends⟩ | ⟨header, block, fate, rfl, hturn, hgo⟩
  · exact h.finish hf hends hended.keeps.request ((counted_ended hended).of_eq hv)
      (placed_ended hplaced hended)
  · refine h.handle (e := ⟨block, _, fate⟩) hf hturn.keeps.request ?_ ?_ ?_
    · exact (counted_rootTurn hselection hturn _).of_eq hv
    · exact placed_rootTurn hplaced.layout hfresh hselection hturn
    · intro hf'
      obtain ⟨hfate, hnot⟩ := hgo hf'
      exact ⟨hfate, hturn.ready hplaced.layout hfresh rfl hfate hnot⟩

theorem Consistent.step_root {v₀ : View} (hv₀ : v₀.Initial) {s : Session}
    (h : Consistent v₀ s []) (hf : s.finished = false) (hc : s.cancelRequested = false)
    (hview : s.view = { v₀ with cancelRequested := s.cancelRequested }) :
    Consistent v₀ s.step.2 s.handled := by
  have hstarted : s.started = false := (congrArg View.started hview).trans hv₀.started
  have hheader : s.view.headerWritten = false :=
    (congrArg View.headerWritten hview).trans hv₀.headerWritten
  exact h.opened hv₀ hf hview (step_rootTurn hf hc hstarted hheader)

/-- Asking for an end changes nothing else. -/
theorem Consistent.cancel {v₀ : View} {s : Session} {entries : List Handled}
    (h : Consistent v₀ s entries) : Consistent v₀ s.cancel entries := by
  have hcounted := h.counted
  have hplaced := h.placed
  refine ⟨h.request, ?_, ?_, ?_, h.failed⟩
  · exact ⟨hcounted.out, hcounted.discarded, hcounted.taken, hcounted.accepts, hcounted.refused⟩
  · exact ⟨hplaced.layout, hplaced.fileSize_le, hplaced.tiles, hplaced.dropped, hplaced.selected⟩
  · intro hf
    rcases h.goesOn hf with ⟨hnil, hview⟩ | hready
    · left
      refine ⟨hnil, ?_⟩
      show { s.view with cancelRequested := true } = { v₀ with cancelRequested := true }
      rw [hview]
    · exact Or.inr ⟨hready.started, hready.headerWritten, hready.selection⟩

/-- A step keeps the session consistent with the blocks it handles. -/
theorem Consistent.step {v₀ : View} (hv₀ : v₀.Initial) {s : Session} {entries : List Handled}
    (h : Consistent v₀ s entries) : Consistent v₀ s.step.2 (entries ++ s.handled) := by
  by_cases hf : s.finished = true
  · obtain ⟨hnone, hsame⟩ := step_of_finished hf
    rw [hnone, hsame, List.append_nil]
    exact h
  have hf : s.finished = false := by simpa using hf
  by_cases hc : s.cancelRequested = true
  · obtain ⟨hnone, hview, hends⟩ := step_of_cancelled hf hc
    rw [hnone, List.append_nil]
    refine h.finish hf hends (by rw [hview]) ?_ ?_
    · rw [hview]
      have hcounted := h.counted
      exact ⟨hcounted.out, hcounted.discarded, hcounted.taken, hcounted.accepts,
        hcounted.refused⟩
    · rw [hview]
      have hplaced := h.placed
      exact ⟨hplaced.layout, hplaced.fileSize_le, hplaced.tiles, hplaced.dropped,
        hplaced.selected⟩
  have hc : s.cancelRequested = false := by simpa using hc
  rcases h.goesOn hf with ⟨rfl, hview⟩ | hready
  · exact h.step_root hv₀ hf hc hview
  · exact h.step_ready hf hc hready

theorem Consistent.replay {v₀ : View} (hv₀ : v₀.Initial) {s : Session} {entries : List Handled}
    (h : Consistent v₀ s entries) (calls : List Call) :
    Consistent v₀ (s.replay calls).2 (entries ++ (s.replay calls).1) := by
  induction calls generalizing s entries with
  | nil =>
    show Consistent v₀ s (entries ++ [])
    rw [List.append_nil]
    exact h
  | cons c calls ih =>
    show Consistent v₀ ((s.call c).2.replay calls).2
      (entries ++ ((s.call c).1 ++ ((s.call c).2.replay calls).1))
    rw [← List.append_assoc]
    apply ih
    cases c with
    | step => exact h.step hv₀
    | cancel =>
      rw [show (s.call .cancel).1 = [] from rfl, List.append_nil]
      exact h.cancel

theorem initial_new (source : Source) (sink : Sink) (request : ByteRange)
    (options : ReaderOptions) (retains : Bool) :
    (new source sink request options retains).view.Initial :=
  ⟨⟨retains, rfl⟩, rfl, rfl, rfl⟩

/-- The blocks that were not dropped cover the range up to the cursor. -/
theorem Placed.exists_covering {v : View} {entries : List Handled} (h : Placed v entries)
    {offset : Nat} (hstart : v.request.start ≤ offset) (hcursor : offset < v.layout.cursor) :
    ∃ e ∈ entries, (∃ i ∈ e.interval?, i.start ≤ offset ∧ offset < i.stop) ∧
      e.fate ≠ .dropped := by
  obtain ⟨i, hi, hlo, hhi⟩ := h.tiles.exists_mem (Nat.zero_le offset) hcursor
  obtain ⟨e, he, hinterval⟩ := List.mem_filterMap.1 hi
  refine ⟨e, he, ⟨i, hinterval, hlo, hhi⟩, fun hdropped => ?_⟩
  obtain ⟨i', hplacement, hbefore⟩ := h.dropped e he hdropped
  have heq : some i' = some i := by
    rw [← hinterval, Handled.interval?, hplacement]
    rfl
  have : i' = i := Option.some.inj heq
  rw [this] at hbefore
  omega

/-- Whatever a source holds, whatever is asked for, whatever the sink does, and whenever
the session is cancelled: the journal of the calls explains what is counted and written,
its intervals tile the file up to the cursor, and only leaves that stop at or before the
start of the range are dropped.  A session that is satisfied has come to the end of its
range, and what it has written covers the range.  The one exception is the block that a
sink refused, on which the session has failed. -/
theorem no_needed_block_dropped (source : Source) (sink : Sink) (request : ByteRange)
    (options : ReaderOptions) (retains : Bool) (calls : List Call) :
    let entries := ((new source sink request options retains).replay calls).1
    let s := ((new source sink request options retains).replay calls).2
    s.stats.blocksDiscarded = entries.countP (·.fate == .dropped) ∧
      s.stats.blocksOut = entries.countP (·.fate == .written) ∧
      (∃ front, front.length ≤ 1 ∧ s.sink.writes = sink.writes ++ front ++ framesOf entries) ∧
      Tiles 0 (placedIntervals entries) s.layout.cursor ∧
      (∀ e ∈ entries, e.fate = .dropped →
        ∃ i, e.placement = some (.leaf i) ∧ i.stop ≤ request.start) ∧
      (s.phase = .satisfied →
        ∃ stop, s.resolvedEnd = some stop ∧ stop ≤ s.layout.cursor ∧
          ∀ offset, request.start ≤ offset → offset < stop →
            ∃ e ∈ entries, (∃ i ∈ e.interval?, i.start ≤ offset ∧ offset < i.stop) ∧
              (e.fate = .written ∨
                e.fate = .failed ∧ entries.getLast? = some e ∧ s.finished = true ∧
                  sink.acceptsAll = false)) := by
  intro entries s
  have hinitial := initial_new source sink request options retains
  have h : Consistent (new source sink request options retains).view s entries :=
    (consistent_refl hinitial).replay hinitial calls
  have hrequest : s.view.request = request := h.request
  have hplaced := h.placed
  have hcounted := h.counted
  refine ⟨?_, ?_, hcounted.taken, hplaced.tiles, ?_, ?_⟩
  · exact hcounted.discarded.trans (Nat.zero_add _)
  · exact hcounted.out.trans (Nat.zero_add _)
  · intro e he hdropped
    rw [← hrequest]
    exact hplaced.dropped e he hdropped
  · intro hsatisfied
    have hphase : s.view.phase = .satisfied := hsatisfied
    cases hselection : s.view.selection with
    | none =>
      rw [View.phase, hselection] at hphase
      cases hphase
    | some selection =>
      rw [View.phase, hselection] at hphase
      have hphase : selection.phase = .satisfied := hphase
      obtain ⟨stop, hstop, -, -, hreached⟩ :=
        hplaced.selected selection hselection (by simp [hphase])
      have hreached : stop ≤ s.layout.cursor := hreached hphase
      refine ⟨stop, hstop, hreached, fun offset hlo hhi => ?_⟩
      obtain ⟨e, he, hcovers, hkept⟩ :=
        hplaced.exists_covering (hrequest ▸ hlo) (Nat.lt_of_lt_of_le hhi hreached)
      refine ⟨e, he, hcovers, ?_⟩
      cases hfate : e.fate with
      | written => exact Or.inl rfl
      | dropped => exact absurd hfate hkept
      | failed =>
        obtain ⟨hfinished, hlast⟩ := h.failed e he hfate
        exact Or.inr ⟨rfl, hlast, hfinished,
          hcounted.refused (by simp [hselection]) e he hfate⟩

/-- The exception occurs: the root holds two bytes, the first of which is asked for, and
the sink takes nothing.  The session fails, but its selection is satisfied. -/
theorem refused_write_leaves_range_uncovered :
    let cid : Bytes := [0x01, 0x70, 0x00, 0x00]
    let body := Header.encodeBody [cid] 1
    let root : Bytes := cid ++ [0x0a, 0x06, 0x08, 0x02, 0x12, 0x02, 0x61, 0x62]
    let source := Source.ofMemory
      ([UInt8.ofNat body.length] ++ body ++ ([UInt8.ofNat root.length] ++ root)) 0
    let sink : Sink := { kind := .guarded [], budget := some 0 }
    let request : ByteRange :=
      { start := 0, stop := some 1, ordered := fun _ _ => Nat.zero_le _ }
    let entries := ((new source sink request {} false).replay [.step]).1
    let s := ((new source sink request {} false).replay [.step]).2
    s.phase = .satisfied ∧ s.resolvedEnd = some 1 ∧
      entries.map (·.interval?) = [some ⟨0, 2, true⟩] ∧ entries.map (·.fate) = [.failed] ∧
      s.sink.writes = [] := by
  decide +kernel

end Session

end CarSlice
