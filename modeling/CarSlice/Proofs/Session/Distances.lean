import CarSlice.Proofs.Layout.Failures
import CarSlice.Proofs.Session.Demands

/-!
# A selection keeps abreast of its layout

A layout adds up how far it has come, a selection counts down what is left, and neither sees the
other.  What holds the two together is the interval of a placement.

* `Selection.consumes_decide`: a selection that still looks at placements takes the length of the
  interval off both counts, whatever it is told of and whatever becomes of the block.
* `Layout.interval_place`: the interval leads from the cursor before a block to the cursor behind
  it, also where the sums are cut off.
* `Selection.Measures` therefore lasts from one cursor to the next (`Measures.place`): both counts
  are the distances to the ends of the range.
* `View.Abreast` says so of a session whose root was accepted.  No operation breaks it: a mismatch
  moves neither side, and where everything is passed through neither side is asked again.
* `counts_keep_abreast_of_cursor` says it of every row of demands.
-/

namespace CarSlice

open Archive (Block Header ReaderOptions)
open UnixFs (Content)

/-! ## The interval of a placement -/

theorem Interval.length_empty (offset : Nat) : (Interval.empty offset).length = 0 := by
  show (offset + wordValues - offset) % wordValues = 0
  rw [Nat.add_sub_cancel_left, Nat.mod_self]

theorem Placement.interval_ofInterval (i : Interval) : (ofInterval i).interval = i := by
  unfold ofInterval
  split <;> rfl

namespace Layout

theorem interval_place {l : Layout} (hl : l.Valid) (c : Content) :
    (l.place c).1.interval.start = l.cursor ∧
      (l.place c).1.interval.stop = (l.place c).2.cursor := by
  rcases place_cases hl c with ⟨frames, hplace⟩ | ⟨reason, hplace⟩ | ⟨-, hplace⟩
  · rw [hplace, Placement.interval_ofInterval]
    exact ⟨rfl, rfl⟩
  · rw [hplace]
    exact ⟨rfl, rfl⟩
  · rw [hplace]
    exact ⟨rfl, rfl⟩

/-- The size of a file is not changed by any block. -/
theorem place_fileSize {l : Layout} (hl : l.Valid) {size : Nat} (h : l.fileSize = some size)
    (c : Content) : (l.place c).2.fileSize = some size := by
  rcases place_cases hl c with ⟨frames, hplace⟩ | ⟨reason, hplace⟩ | ⟨-, hplace⟩
  · rw [hplace]
    show some (l.fileSize.getD c.fullSize) = some size
    rw [h, Option.getD_some]
  · rw [hplace]
    exact h
  · rw [hplace]
    exact h

end Layout

/-! ## The counts of a selection -/

namespace Selection

/-- A length was taken off both counts. -/
structure Consumes (s s' : Selection) (length : Nat) : Prop where
  startRemaining : s'.startRemaining = s.startRemaining - length
  endRemaining : s'.endRemaining = s.endRemaining - length

theorem consumes_emitSpan (s : Selection) (length : Nat) :
    s.Consumes (s.emitSpan length) length := by
  rw [emitSpan_eq]
  exact ⟨rfl, rfl⟩

/-- The one way that takes nothing off is for nodes without bytes of their own. -/
theorem consumes_decideSpan (s : Selection) (length : Nat) (isStructural : Bool) :
    s.Consumes (s.decideSpan length isStructural).2 length := by
  rw [decideSpan]
  split_ifs with hearly hbefore hstructural hquiet
  · exact ⟨rfl, rfl⟩
  · exact ⟨rfl, rfl⟩
  · obtain rfl : length = 0 := by
      simp only [Bool.and_eq_true, beq_iff_eq] at hquiet
      exact hquiet.2
    exact ⟨rfl, rfl⟩
  · have hspan := consumes_emitSpan { s with phase := .emitting } length
    exact ⟨hspan.startRemaining, hspan.endRemaining⟩
  · exact s.consumes_emitSpan length

theorem consumes_decide {s : Selection} (hopen : s.phase.isOpen = true) (p : Placement) :
    s.Consumes (s.decide p).2 p.interval.length := by
  unfold decide
  cases hphase : s.phase with
  | satisfied | passthrough =>
    rw [hphase] at hopen
    cases hopen
  | awaitingStructure | discarding | emitting =>
    cases p with
    | mismatch offset reason =>
      rw [Placement.interval, Interval.length_empty]
      exact ⟨rfl, rfl⟩
    | detached offset =>
      rw [Placement.interval, Interval.length_empty]
      exact ⟨rfl, rfl⟩
    | structural i => exact s.consumes_decideSpan i.length true
    | leaf i => exact s.consumes_decideSpan i.length false

/-- The counts are the distances from a cursor to the ends of the range, or zero behind them. -/
structure Measures (s : Selection) (start stop cursor : Nat) : Prop where
  startRemaining : s.startRemaining = start - cursor
  endRemaining : s.endRemaining = stop - cursor

section

variable {s : Selection} {start stop : Nat}

theorem Measures.consume {s' : Selection} {i : Interval} (h : s.Measures start stop i.start)
    (hs : s.Consumes s' i.length) (hle : i.start ≤ i.stop) (hmax : i.stop ≤ maxCount) :
    s'.Measures start stop i.stop := by
  have hlength : i.length = i.stop - i.start := i.length_eq hle hmax
  have hstart := h.startRemaining
  have hend := h.endRemaining
  have hstart' := hs.startRemaining
  have hend' := hs.endRemaining
  constructor <;> omega

/-- Whatever block a layout places, the counts follow its cursor. -/
theorem Measures.place {l : Layout} (hl : l.Valid) (h : s.Measures start stop l.cursor)
    (hopen : s.phase.isOpen = true) (c : Content) :
    (s.decide (l.place c).1).2.Measures start stop (l.place c).2.cursor := by
  obtain ⟨hstart, hstop⟩ := Layout.interval_place hl c
  have hle : l.cursor ≤ (l.place c).2.cursor := (Layout.place_tiles hl c).le
  have hmax : (l.place c).2.cursor ≤ maxCount := (hl.place c).cursor_le
  have hs := consumes_decide hopen (l.place c).1
  -- From here on the placement is only its interval.
  generalize (l.place c).1 = p at hstart hstop hs ⊢
  rw [← hstart] at h hle
  rw [← hstop] at hle hmax ⊢
  exact h.consume hs hle hmax

/-- A file that is complete changes the phase and no count. -/
theorem Measures.fileComplete {cursor : Nat} (h : s.Measures start stop cursor) :
    s.fileComplete.Measures start stop cursor := by
  unfold Selection.fileComplete
  split <;> exact ⟨h.startRemaining, h.endRemaining⟩

end

end Selection

namespace Session

/-! ## One operation -/

/-- The end of the range is known just when a root was accepted in whose file the range lies, and
from then on the counts of the selection are the distances from the cursor. -/
structure View.Abreast (v : View) : Prop where
  resolved (stop : Nat) : v.resolvedEnd = some stop ↔
    ∃ size, v.layout.fileSize = some size ∧ v.request.resolve size = .ok stop
  measures (stop : Nat) : v.resolvedEnd = some stop →
    ∃ selection, v.selection = some selection ∧
      selection.Measures v.request.start stop v.layout.cursor

theorem View.Abreast.noteComplete {v : View} (h : v.Abreast) : v.noteComplete.Abreast := by
  refine ⟨h.resolved, fun stop hstop => ?_⟩
  obtain ⟨selection, hselection, hmeasures⟩ := h.measures stop hstop
  by_cases hcomplete : v.layout.isComplete = true
  · exact ⟨selection.fileComplete, by simp [View.noteComplete, hcomplete, hselection],
      hmeasures.fileComplete⟩
  · exact ⟨selection, by simp [View.noteComplete, hcomplete, hselection], hmeasures⟩

theorem View.Abreast.emits {w v' : View} (h : w.Abreast) {block : Block} {fate : Fate}
    (hv : w.Emits block fate v') : v'.Abreast := by
  cases hv with
  | written =>
    have hwritten : (w.writeBlock block).Abreast := ⟨h.resolved, h.measures⟩
    exact hwritten.noteComplete
  | refused => exact h

/-- Layout and selection are told of the same block, also where it is a mismatch. -/
theorem View.Abreast.decided {v : View} (h : v.Abreast) (hlayout : v.layout.Valid)
    {selection : Selection} (hselection : v.selection = some selection)
    (hopen : selection.phase.isOpen = true) (hunderway : v.layout.stage = .underway)
    (block : Block) : (v.decided selection block).Abreast := by
  obtain ⟨reached, size, hsize, -⟩ := hlayout.exists_reached hunderway
  have hsize' : (v.decided selection block).layout.fileSize = some size :=
    Layout.place_fileSize hlayout hsize _
  constructor
  · intro stop
    rw [hsize', ← hsize]
    exact h.resolved stop
  · intro stop hstop
    obtain ⟨selection', hselection', hmeasures⟩ := h.measures stop hstop
    rw [hselection] at hselection'
    obtain rfl := Option.some.inj hselection'
    exact ⟨_, rfl, hmeasures.place hlayout hopen _⟩

theorem View.Abreast.turn {v v' : View} (h : v.Abreast) (hlayout : v.layout.Valid) {block : Block}
    {p : Option Placement} {fate : Fate} (hv : v.Turn block p fate v') : v'.Abreast := by
  cases hv with
  | passed _ _ _ hemits => exact h.emits hemits
  | kept selection _ _ hselection hopen hunderway _ hemits =>
    exact (h.decided hlayout hselection hopen hunderway block).emits hemits
  | dropped selection hselection hopen hunderway =>
    have hdecided := h.decided hlayout hselection hopen hunderway block
    have hdropped : (v.decided selection block).dropBlock.Abreast :=
      ⟨hdecided.resolved, hdecided.measures⟩
    exact hdropped.noteComplete

/-! ### The root -/

/-- Before the root is placed, no end of the range is known. -/
theorem View.Abreast.resolvedEnd_eq_none {v : View} (h : v.Abreast)
    (hselection : v.selection = none) : v.resolvedEnd = none := by
  cases hstop : v.resolvedEnd with
  | none => rfl
  | some stop =>
    obtain ⟨selection, hsome, -⟩ := h.measures stop hstop
    rw [hselection] at hsome
    cases hsome

/-- As long as no end of the range is known, it does not matter what the selection is. -/
theorem abreast_of_unresolved {v : View} (hstop : v.resolvedEnd = none)
    (h : ∀ size stop, v.layout.fileSize = some size → v.request.resolve size ≠ .ok stop) :
    v.Abreast := by
  refine ⟨fun stop => ⟨fun hsome => ?_, ?_⟩, fun stop hsome => ?_⟩
  · rw [hstop] at hsome
    cases hsome
  · rintro ⟨size, hsize, hresolve⟩
    exact absurd hresolve (h size stop hsize)
  · rw [hstop] at hsome
    cases hsome

section

variable {v : View} (hlayout : v.layout.Valid) (hfresh : v.layout.stage = .fresh)
  {header : Header} {block : Block}

include hlayout hfresh

/-- A root that is not accepted says nothing of a file. -/
theorem fileSize_placeRoot_of_mismatch {offset : Nat} {reason : Mismatch}
    (h : (v.placeRoot header block).1 = .mismatch offset reason) :
    (v.placeRoot header block).2.fileSize = none := by
  have hnone : v.layout.fileSize = none := hlayout.fresh hfresh
  unfold View.placeRoot at h ⊢
  split_ifs at h ⊢
  · rw [Layout.place_of_mismatch hlayout h]
    exact hnone
  · exact hnone

theorem View.Abreast.chosen {w : View} (h : v.Abreast) (hselection : v.selection = none)
    (hw : v.Chosen header block w) : w.Abreast := by
  cases hw with
  | passed selection hmismatch hphase =>
    obtain ⟨offset, reason, hmismatch⟩ := hmismatch
    have hnone := fileSize_placeRoot_of_mismatch hlayout hfresh hmismatch
    refine abreast_of_unresolved (h.resolvedEnd_eq_none hselection) fun size stop hsize => ?_
    have hsize : (v.placeRoot header block).2.fileSize = some size := hsize
    rw [hnone] at hsize
    cases hsize
  | selected stop hnot hstop =>
    have hplaced := View.placeRoot_of_not_mismatch hnot
    obtain ⟨size, hsize⟩ := Layout.exists_fileSize hlayout hfresh (hplaced ▸ hnot)
    rw [← hplaced] at hsize
    constructor
    · intro stop'
      show some stop = some stop' ↔ ∃ size', (v.placeRoot header block).2.fileSize = some size' ∧
        v.request.resolve size' = .ok stop'
      rw [hsize, Option.getD_some] at hstop
      simp [hsize, hstop]
    · intro stop' hstop'
      obtain rfl := Option.some.inj hstop'
      have hnew : (Selection.ofRange v.request.start stop
          (some ((v.placeRoot header block).2.fileSize.getD 0))).Measures
            v.request.start stop v.layout.cursor := by
        -- Nothing was placed before the root, so that the cursor is still at the beginning.
        rw [hlayout.unsized (hlayout.fresh hfresh)]
        exact ⟨rfl, rfl⟩
      have hmeasures := hnew.place hlayout rfl (.ofBlock block)
      rw [← hplaced] at hmeasures
      exact ⟨_, rfl, hmeasures⟩

theorem View.Abreast.rootTurn {v' : View} (h : v.Abreast) (hselection : v.selection = none)
    {fate : Fate} (hv : v.RootTurn header block fate v') : v'.Abreast := by
  cases hv with
  | outside e hnot hstop =>
    have hplaced := View.placeRoot_of_not_mismatch hnot
    obtain ⟨size, hsize⟩ := Layout.exists_fileSize hlayout hfresh (hplaced ▸ hnot)
    rw [← hplaced] at hsize
    rw [hsize, Option.getD_some] at hstop
    refine abreast_of_unresolved (h.resolvedEnd_eq_none hselection) fun size' stop hsize' => ?_
    have hsize' : (v.placeRoot header block).2.fileSize = some size' := hsize'
    rw [hsize] at hsize'
    obtain rfl := Option.some.inj hsize'
    show v.request.resolve size ≠ .ok stop
    rw [hstop]
    simp
  | refused _ hw => exact h.chosen hlayout hfresh hselection hw
  | emitted w _ _ hw hemits =>
    have hchosen := h.chosen hlayout hfresh hselection hw
    have hwritten : (w.writeHeader header).Abreast := ⟨hchosen.resolved, hchosen.measures⟩
    exact hwritten.emits hemits

end

theorem View.Abreast.ended {v v' : View} (h : v.Abreast) (hselection : v.selection = none)
    (hv : v.Ended v') : v'.Abreast := by
  have hstop := h.resolvedEnd_eq_none hselection
  have hnot (size stop : Nat) (hsize : v.layout.fileSize = some size) :
      v.request.resolve size ≠ .ok stop := by
    intro hresolve
    have hsome := (h.resolved stop).2 ⟨size, hsize, hresolve⟩
    rw [hstop] at hsome
    cases hsome
  cases hv with
  | unread => exact h
  | passed => exact abreast_of_unresolved hstop hnot
  | written => exact abreast_of_unresolved hstop hnot

/-! ## Every row of demands -/

/-- No operation breaks it, whether or not it fails. -/
theorem invariant_abreast : View.Invariant fun v _ => v.Abreast := by
  intro v v' entries handled hmoves h
  cases hmoves with
  | flags => exact ⟨h.resolved, h.measures⟩
  | ended _ hfresh hselection hended =>
    have hstarted : View.Abreast { v with started := true } := ⟨h.resolved, h.measures⟩
    exact hstarted.ended hselection hended
  | root _ _ _ _ hlayout hfresh hselection hturn =>
    have hstarted : View.Abreast { v with started := true } := ⟨h.resolved, h.measures⟩
    exact View.Abreast.rootTurn (v := { v with started := true }) hlayout hfresh hstarted hselection
      hturn
  | turn _ _ _ _ hlayout hturn => exact h.turn hlayout hturn

/-- Whatever a source holds, whatever the sink refuses and whatever is asked for, also behind a
failure: the end of the range is known just when the layout has accepted a root and the range lies
in its file.  From then on, in every phase, what the selection has left before the start and before
the end of the range is the distance from the cursor of the layout, or zero behind it.  So it is
where everything is passed through because of a later mismatch, with the cursor at which that
came. -/
theorem counts_keep_abreast_of_cursor (source : Source) (sink : Sink) (request : ByteRange)
    (options : ReaderOptions) (retains : Bool) (demands : List Demand) :
    let s := ((new source sink request options retains).serveAll demands).2
    (∀ stop, s.resolvedEnd = some stop ↔
        ∃ size, s.layout.fileSize = some size ∧ request.resolve size = .ok stop) ∧
      ∀ stop, s.resolvedEnd = some stop → ∃ selection, s.selection = some selection ∧
        selection.startRemaining = request.start - s.layout.cursor ∧
        selection.endRemaining = stop - s.layout.cursor := by
  intro s
  have hinitial := initial_new source sink request options retains
  have hnew := sound_new source sink request options retains
  have habreast : s.view.Abreast := by
    apply serveAll_of_perform (P := fun s _ => s.view.Abreast)
    refine hnew.invariant hinitial invariant_abreast (abreast_of_unresolved rfl ?_)
    intro size stop hsize
    cases hsize
  have hrequest : s.view.request = request :=
    (sound_serveAll source sink request options retains demands).request
  rw [← hrequest]
  refine ⟨habreast.resolved, fun stop hstop => ?_⟩
  obtain ⟨selection, hselection, hmeasures⟩ := habreast.measures stop hstop
  exact ⟨selection, hselection, hmeasures.startRemaining, hmeasures.endRemaining⟩

/-- The range begins with the second half of a file of two leaves.  The first leaf is dropped, and
the one that comes in the place of the second is too large for its slot. -/
theorem late_mismatch_keeps_counts :
    let body := Header.encodeBody [[0x01, 0x70, 0x00, 0x00]] 1
    let header : Bytes := UInt8.ofNat body.length :: body
    let links : Bytes := [0x12, 0x02, 0x0a, 0x00, 0x12, 0x02, 0x0a, 0x00]
    let root : Bytes := [0x01, 0x70, 0x00, 0x00] ++ links ++
      [0x0a, 0x06, 0x08, 0x02, 0x20, 0x02, 0x20, 0x02]
    let source := Source.ofMemory (header ++ UInt8.ofNat root.length :: root ++
      [0x06, 0x01, 0x55, 0x00, 0x00, 0x61, 0x62] ++
      [0x07, 0x01, 0x55, 0x00, 0x00, 0x63, 0x64, 0x65]) 0
    let request : ByteRange :=
      { start := 3, stop := some 4, ordered := fun _ h => by cases h; decide }
    let s := ((new source { kind := .memory } request {} false).serveAll [.step, .step, .step]).2
    s.phase = .passthrough ∧ s.layout.cursor = 2 ∧ ∃ selection, s.selection = some selection ∧
      selection.lateMismatch = true ∧ selection.startRemaining = 1 ∧
      selection.endRemaining = 2 := by
  intro body header links root source request s
  have hphase : s.phase = .passthrough := by decide +kernel
  have hcursor : s.layout.cursor = 2 := by decide +kernel
  have hstop : s.resolvedEnd = some 4 := by decide +kernel
  have hlate : s.selection.any (·.lateMismatch) = true := by decide +kernel
  obtain ⟨selection, hselection, hstart, hend⟩ :=
    (counts_keep_abreast_of_cursor source { kind := .memory } request {} false
      [.step, .step, .step]).2 4 hstop
  have hstart : selection.startRemaining = 3 - s.layout.cursor := hstart
  have hend : selection.endRemaining = 4 - s.layout.cursor := hend
  rw [hcursor] at hstart hend
  rw [hselection] at hlate
  exact ⟨hphase, hcursor, selection, hselection, hlate, hstart, hend⟩

end Session

end CarSlice
