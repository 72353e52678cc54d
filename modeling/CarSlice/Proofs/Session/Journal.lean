import CarSlice.Proofs.Session.View

/-!
# The journal of a session

A session only counts its blocks.  Here every step says which block it handled, what the
layout made of it, and what the counts say became of it (`Session.handled`), and a row of
calls says so for all of its steps (`Session.replay`).

`Turn` and `RootTurn` list every way in which a block can be handled, by what happens to
the view.  `step_turn` and `step_rootTurn` say that a step of a session goes one of these
ways, and `start_rootTurn` says so of an explicit start.  What holds of all ways therefore
holds of all steps.
-/

namespace CarSlice

open Archive (Block Header Reader)

namespace Session

/-! ## Entries -/

/-- What became of a block. -/
inductive Fate where
  | written
  | dropped
  /-- The session failed on it: the sink refused the block, or the range lies outside the
  file whose root it is. -/
  | failed
  deriving Repr, DecidableEq

/-- What the counts before and after a block say became of it. -/
def Fate.between (before after : View) : Fate :=
  if before.blocksDiscarded < after.blocksDiscarded then .dropped
  else if before.blocksOut < after.blocksOut then .written
  else .failed

/-- A block that was handled. -/
structure Handled where
  block : Block
  /-- What the layout made of it, if the block was placed. -/
  placement : Option Placement
  fate : Fate
  deriving Repr, DecidableEq

/-- The interval of a block that was handled. -/
def Handled.interval? (e : Handled) : Option Interval :=
  e.placement.bind Placement.interval?

/-- The placement that a session behind its root asks for. -/
def View.placementOf? (v : View) (block : Block) : Option Placement :=
  match v.selection with
  | none => none
  | some selection =>
    if selection.phase = .passthrough then none else some (v.layout.place (.ofBlock block)).1

/-- The block that comes next in the archive. -/
def nextBlock? (s : Session) : Option Block :=
  match s.reader.next.1 with
  | .ok block => block
  | .error _ => none

/-- The header of an archive and its first block. -/
def firstBlock? (s : Session) : Option (Header × Block) :=
  match s.reader.readHeader with
  | (.ok header, reader) => ({ s with reader }.nextBlock?).map fun block => (header, block)
  | (.error _, _) => none

/-- The block that the next step reads, and its placement. -/
def incoming? (s : Session) : Option (Block × Option Placement) :=
  if s.finished || s.cancelRequested then none
  else if s.started then s.nextBlock?.map fun block => (block, s.view.placementOf? block)
  else s.firstBlock?.map fun (header, block) => (block, some (s.placeRoot header block).1)

/-- The block that the next step handles. -/
def handled (s : Session) : List Handled :=
  s.incoming?.toList.map fun (block, placement) =>
    { block, placement, fate := .between s.view s.step.2.view }

/-- The block that a start handles. -/
def opening (s : Session) : List Handled :=
  if s.started then []
  else
    s.firstBlock?.toList.map fun (header, block) =>
      { block, placement := some (s.placeRoot header block).1, fate := .between s.view s.start.2.view }

/-! ## Calls -/

/-- What a caller can do to a session, again and again. -/
inductive Call where
  | step
  | cancel
  deriving Repr, DecidableEq

/-- A call and the block that it handles. -/
def call (s : Session) : Call → List Handled × Session
  | .step => (s.handled, s.step.2)
  | .cancel => ([], s.cancel)

/-- A row of calls and the blocks that they handle. -/
def replay (s : Session) : List Call → List Handled × Session
  | [] => ([], s)
  | c :: calls =>
    ((s.call c).1 ++ ((s.call c).2.replay calls).1, ((s.call c).2.replay calls).2)

/-! ## Ways to handle a block -/

namespace View

/-- A session behind its root that can go on.  The selection either passes everything
through or still follows the layout. -/
structure Ready (v : View) : Prop where
  started : v.started = true
  headerWritten : v.headerWritten = true
  selection : ∃ selection, v.selection = some selection ∧
    (selection.phase = .passthrough ∨
      selection.phase.isOpen = true ∧ v.layout.stage = .underway)

/-- The view after a block was placed and decided on. -/
def decided (v : View) (selection : Selection) (block : Block) : View :=
  { v with
    layout := (v.layout.place (.ofBlock block)).2
    selection := some (selection.decide (v.layout.place (.ofBlock block)).1).2 }

/-- A block is written, or the sink refuses it. -/
inductive Emits (v : View) (block : Block) : Fate → View → Prop where
  | written : Emits v block .written (v.writeBlock block).noteComplete
  | refused (h : v.accepts = false) : Emits v block .failed v

/-- Every way to handle a block behind the root. -/
inductive Turn (v : View) (block : Block) : Option Placement → Fate → View → Prop where
  /-- Everything is passed through. -/
  | passed (fate : Fate) (v' : View) (h : v.phase = .passthrough) (hv : v.Emits block fate v') :
      Turn v block none fate v'
  /-- The selection keeps the block. -/
  | kept (selection : Selection) (fate : Fate) (v' : View) (h : v.selection = some selection)
      (hopen : selection.phase.isOpen = true) (hunderway : v.layout.stage = .underway)
      (hkept : (selection.decide (v.layout.place (.ofBlock block)).1).1 = .emit)
      (hv : (v.decided selection block).Emits block fate v') :
      Turn v block (some (v.layout.place (.ofBlock block)).1) fate v'
  /-- The selection drops the block. -/
  | dropped (selection : Selection) (h : v.selection = some selection)
      (hopen : selection.phase.isOpen = true) (hunderway : v.layout.stage = .underway)
      (hdropped : (selection.decide (v.layout.place (.ofBlock block)).1).1 = .drop) :
      Turn v block (some (v.layout.place (.ofBlock block)).1) .dropped
        (v.decided selection block).dropBlock.noteComplete

/-- What the layout makes of the root. -/
def placeRoot (v : View) (header : Header) (block : Block) : Placement × Layout :=
  if header.roots.head?.map (·.bytes) = some block.cid.bytes then
    v.layout.place (.ofBlock block)
  else (.mismatch 0 .notHeaderRoot, v.layout)

/-- The view after the root was placed. -/
def rootPlaced (v : View) (header : Header) (block : Block) : View :=
  { v with layout := (v.placeRoot header block).2 }

/-- The view once it is known what to do with the archive. -/
inductive Chosen (v : View) (header : Header) (block : Block) : View → Prop where
  /-- The archive is not one file: everything is passed through. -/
  | passed (selection : Selection)
      (h : ∃ offset reason, (v.placeRoot header block).1 = .mismatch offset reason)
      (hphase : selection.phase = .passthrough) :
      Chosen v header block { v.rootPlaced header block with selection := some selection }
  /-- The range lies in the file. -/
  | selected (stop : Nat)
      (h : ∀ offset reason, (v.placeRoot header block).1 ≠ .mismatch offset reason)
      (hstop : v.request.resolve ((v.placeRoot header block).2.fileSize.getD 0) = .ok stop) :
      Chosen v header block
        { v.rootPlaced header block with
          resolvedEnd := some stop
          selection := some ((Selection.ofRange v.request.start stop
            (some ((v.placeRoot header block).2.fileSize.getD 0))).decide
              (v.placeRoot header block).1).2 }

/-- Every way to handle the root. -/
inductive RootTurn (v : View) (header : Header) (block : Block) : Fate → View → Prop where
  /-- The range does not lie in the file. -/
  | outside (e : Error)
      (h : ∀ offset reason, (v.placeRoot header block).1 ≠ .mismatch offset reason)
      (hstop : v.request.resolve ((v.placeRoot header block).2.fileSize.getD 0) = .error e) :
      RootTurn v header block .failed (v.rootPlaced header block)
  /-- The sink refuses the header. -/
  | refused (v' : View) (hv : v.Chosen header block v') (h : v'.accepts = false) :
      RootTurn v header block .failed v'
  /-- The header is written, and the root behind it unless the sink refuses it. -/
  | emitted (w : View) (fate : Fate) (v' : View) (hw : v.Chosen header block w)
      (hv : (w.writeHeader header).Emits block fate v') : RootTurn v header block fate v'

/-- What becomes of an archive without blocks, or with a header that is not read. -/
inductive Ended (v : View) : View → Prop where
  | unread : Ended v v
  | passed (selection : Selection) (hphase : selection.phase = .passthrough) :
      Ended v { v with selection := some selection }
  | written (header : Header) (selection : Selection) (hphase : selection.phase = .passthrough) :
      Ended v (writeHeader { v with selection := some selection } header)

end View

/-! ## A block is handled in one of these ways -/

/-- What a result says of the view: after a failure the session failed on the block, and
else the view is settled. -/
def Ends (way : Fate → View → Prop) (result : Except Error Unit × Session) : Prop :=
  ((∃ e, result.1 = .error e) ∧ way .failed result.2.view) ∨
    result.1 = .ok () ∧ ∃ fate, fate ≠ .failed ∧ way fate result.2.view.noteComplete

theorem ends_writeBlock {s : Session} (block : Block) (h : s.writer.headerWritten = true) :
    Ends (s.view.Emits block) (s.writeBlock block) := by
  rcases s.wrote_writeBlock block h with ⟨hok, hview⟩ | ⟨herror, haccepts, hview⟩
  · right
    refine ⟨hok, .written, by simp, ?_⟩
    rw [hview]
    exact .written
  · left
    refine ⟨herror, ?_⟩
    rw [hview]
    exact .refused haccepts

theorem Ends.imp {way way' : Fate → View → Prop} {result : Except Error Unit × Session}
    (h : Ends way result) (himp : ∀ fate v, way fate v → way' fate v) : Ends way' result := by
  rcases h with ⟨herror, hway⟩ | ⟨hok, fate, hfate, hway⟩
  · exact Or.inl ⟨herror, himp _ _ hway⟩
  · exact Or.inr ⟨hok, fate, hfate, himp _ _ hway⟩

theorem ends_carryOut {s : Session} {selection : Selection} (block : Block)
    (hheader : s.writer.headerWritten = true) (h : s.selection = some selection)
    (hopen : selection.phase.isOpen = true) (hunderway : s.layout.stage = .underway) :
    Ends (s.view.Turn block (some (s.layout.place (.ofBlock block)).1))
      ((s.decided selection block).carryOut
        (selection.decide (s.layout.place (.ofBlock block)).1).1 block) := by
  cases hdecision : (selection.decide (s.layout.place (.ofBlock block)).1).1 with
  | drop =>
    exact Or.inr ⟨rfl, .dropped, by simp, .dropped selection h hopen hunderway hdecision⟩
  | emit =>
    have hwrite := ends_writeBlock (s := s.decided selection block) block hheader
    exact hwrite.imp fun fate v' hv => .kept selection fate v' h hopen hunderway hdecision hv

/-- A warning does not change how the work on a block has ended. -/
theorem ends_selectBlock {s : Session} {selection : Selection} (block : Block)
    (hheader : s.writer.headerWritten = true) (h : s.selection = some selection)
    (hopen : selection.phase.isOpen = true) (hunderway : s.layout.stage = .underway) :
    Ends (s.view.Turn block (some (s.layout.place (.ofBlock block)).1))
      (s.selectBlock selection block) := by
  have hends := ends_carryOut block hheader h hopen hunderway
  have hselects := s.selectsBlock_selectBlock selection block
  generalize s.selectBlock selection block = result at hselects
  cases hselects with
  | refused e s₁ hcarried => rwa [hcarried] at hends
  | carried s₁ hcarried =>
    rw [hcarried] at hends
    rcases hends with ⟨⟨e, he⟩, -⟩ | ⟨-, fate, hfate, hturn⟩
    · cases he
    · refine Or.inr ⟨rfl, fate, hfate, ?_⟩
      rw [view_warnOfMismatch]
      exact hturn

theorem ends_handleBlock {s : Session} (hready : s.view.Ready) (block : Block) :
    Ends (s.view.Turn block (s.view.placementOf? block)) (s.handleBlock block) := by
  obtain ⟨selection, hview, hphase⟩ := hready.selection
  have hhandles := s.handlesBlock_handleBlock block
  generalize s.handleBlock block = result at hhandles
  cases hhandles with
  | unselected hselection => cases hselection.symm.trans hview
  | passed selection' hselection hpassed =>
    cases hselection.symm.trans hview
    simp only [View.placementOf?, hview, hpassed, if_true]
    refine (ends_writeBlock block hready.headerWritten).imp fun fate v' hv =>
      .passed fate v' ?_ hv
    simp [View.phase, hview, hpassed]
  | chosen selection' hselection hnot =>
    cases hselection.symm.trans hview
    obtain ⟨hopen, hunderway⟩ := hphase.resolve_left hnot
    simp only [View.placementOf?, hview, hnot, if_false]
    exact ends_selectBlock block hready.headerWritten hselection hopen hunderway

/-- What a session leaves that has handled a block. -/
inductive Settles (way : Fate → View → Prop) (reader : Reader) :
    Except Error Unit × Session → Prop where
  | handled (s' : Session) (fate : Fate) (hway : way fate s'.view) (hfate : fate ≠ .failed)
      (h : s'.Handles reader) : Settles way reader (.ok (), s')
  /-- The session failed on the block, or the sink did behind it. -/
  | failed (e : Error) (s' : Session) (fate : Fate) (hway : way fate s'.view)
      (h : fate = .failed ∨ s'.view.accepts = false) : Settles way reader (.error e, s')

theorem Ends.settle {way : Fate → View → Prop} {s : Session} (h : Ends way (.ok (), s))
    (hf : s.finished = false) (before : Phase) : Settles way s.reader (s.settle before) := by
  rcases h with ⟨⟨e, he⟩, -⟩ | ⟨-, fate, hfate, hway⟩
  · cases he
  · have hview := s.view_settle before
    have hcases := s.settle_cases before hf
    cases hs : s.settle before with
    | mk result s' =>
      rw [hs] at hview hcases
      have hway : way fate s'.view := by
        rw [hview]
        exact hway
      rcases hcases with ⟨hok, hhandles⟩ | ⟨⟨e, herror⟩, haccepts⟩
      · obtain rfl : result = .ok () := hok
        exact .handled s' fate hway hfate hhandles
      · obtain rfl : result = .error e := herror
        refine .failed e s' fate hway (Or.inr ?_)
        rw [hview]
        exact haccepts

/-- Work on a block that has gone one of these ways still goes it when the block is settled. -/
theorem Ends.settles {way : Fate → View → Prop} {s : Session}
    {work result : Except Error Unit × Session} (h : Ends way work) (hkeeps : s.Keeps work.2)
    (hf : s.finished = false) (hsettles : s.SettlesWork work result) :
    Settles way s.reader result := by
  cases hsettles with
  | failed e s₁ =>
    rcases h with ⟨-, hway⟩ | ⟨hok, -⟩
    · exact .failed e s₁ .failed hway (Or.inl rfl)
    · cases hok
  | settled s₁ =>
    rw [← hkeeps.reader]
    exact h.settle (hkeeps.finished.trans hf) s.phase

theorem settles_processBlock {s : Session} (hready : s.view.Ready) (hf : s.finished = false)
    (block : Block) :
    Settles (s.view.Turn block (s.view.placementOf? block)) s.reader (s.processBlock block) :=
  (ends_handleBlock hready block).settles (s.keeps_handleBlock block) hf
    (s.settlesWork_processBlock block)

/-! ## The root -/

theorem chosen_of_selectByRoot {s s₁ : Session} {header : Header} {block : Block}
    (h : s.selectByRoot header block = (.ok (), s₁)) : s.view.Chosen header block s₁.view := by
  have hselects := s.selectsByRoot_selectByRoot header block
  rw [h] at hselects
  cases hselects with
  | passed offset reason layout hplace =>
    have hplace : s.view.placeRoot header block = (.mismatch offset reason, layout) := hplace
    have hchosen := View.Chosen.passed (v := s.view) (Selection.ofRange 0 0 none).passThrough
      ⟨offset, reason, congrArg Prod.fst hplace⟩ rfl
    rw [View.rootPlaced, hplace] at hchosen
    exact hchosen
  | selected placement layout stop hplace hplaced hresolve =>
    have hplace : s.view.placeRoot header block = (placement, layout) := hplace
    have hchosen := @View.Chosen.selected s.view header block stop
    rw [View.rootPlaced, hplace] at hchosen
    exact hchosen hplaced hresolve

theorem outside_of_selectByRoot {s s₁ : Session} {header : Header} {block : Block} {e : Error}
    (h : s.selectByRoot header block = (.error e, s₁)) :
    s.view.RootTurn header block .failed s₁.view := by
  have hselects := s.selectsByRoot_selectByRoot header block
  rw [h] at hselects
  cases hselects with
  | outside placement layout e hplace hplaced hresolve =>
    have hplace : s.view.placeRoot header block = (placement, layout) := hplace
    have hturn := @View.RootTurn.outside s.view header block e
    rw [View.rootPlaced, hplace] at hturn
    exact hturn hplaced hresolve

theorem View.Chosen.headerWritten {v w : View} {header : Header} {block : Block}
    (h : v.Chosen header block w) : w.headerWritten = v.headerWritten := by
  cases h <;> rfl

theorem ends_handleRoot {s : Session} (hheader : s.view.headerWritten = false) (header : Header)
    (block : Block) : Ends (s.view.RootTurn header block) (s.handleRoot header block) := by
  have hhandles := s.handlesRoot_handleRoot header block
  generalize s.handleRoot header block = result at hhandles
  cases hhandles with
  | unselected e s₁ hselect => exact Or.inl ⟨⟨e, rfl⟩, outside_of_selectByRoot hselect⟩
  | headless e s₁ s₂ hselect hheadless =>
    have hchosen := chosen_of_selectByRoot hselect
    obtain ⟨haccepts, hview⟩ :=
      refused_of_writeHeader (hchosen.headerWritten.trans hheader) hheadless
    refine Or.inl ⟨⟨e, rfl⟩, ?_⟩
    rw [hview]
    exact .refused _ hchosen haccepts
  | headed s₁ s₂ hselect hheaded =>
    have hchosen := chosen_of_selectByRoot hselect
    have hview := view_of_writeHeader (hchosen.headerWritten.trans hheader) hheaded
    have hwritten : s₂.view.headerWritten = true := by
      rw [hview]
      rfl
    exact (ends_writeBlock block hwritten).imp fun fate v' hv =>
      .emitted _ fate v' hchosen (hview ▸ hv)

theorem settles_processRoot {s : Session} (hf : s.finished = false)
    (hheader : s.view.headerWritten = false) (header : Header) (block : Block) :
    Settles (s.view.RootTurn header block) s.reader (s.processRoot header block) :=
  (ends_handleRoot hheader header block).settles (s.keeps_handleRoot header block) hf
    (s.settlesWork_processRoot header block)

/-! ## Steps -/

theorem view_concluded (result : Except Error Unit × Session) :
    (concluded result).2.view = result.2.view :=
  concluded_keeps view (fun _ _ => rfl) result

/-- Work that ended the session, or failed. -/
theorem finished_concluded {result : Except Error Unit × Session}
    (h : result.1 = .ok () → result.2.finished = true) :
    (concluded result).2.finished = true := by
  rcases result with ⟨⟨e⟩ | ⟨⟩, s⟩
  · rfl
  · exact h rfl

theorem advance_of_some {s : Session} (hf : s.finished = false) (hready : s.view.Ready)
    {block : Block} (h : s.nextBlock? = some block) :
    Settles (s.view.Turn block (s.view.placementOf? block)) s.reader.next.2 s.advance := by
  have hview := s.view_readBlock
  have hreads := s.readsNext_advance
  generalize s.advance = result at hreads
  cases hreads with
  | unread e reader hnext => simp [nextBlock?, hnext] at h
  | exhausted reader hnext => simp [nextBlock?, hnext] at h
  | block block' reader hnext =>
    obtain rfl : block' = block := by simpa [nextBlock?, hnext] using h
    have hsettles :=
      settles_processBlock (hview ▸ hready) (s.finished_readBlock.trans hf) block'
    rw [hview, reader_readBlock] at hsettles
    exact hsettles

/-- Where no block comes, the session ends. -/
theorem advance_of_none {s : Session} (h : s.nextBlock? = none) :
    s.advance.2.view = s.view ∧ (s.advance.1 = .ok () → s.advance.2.finished = true) := by
  have hreads := s.readsNext_advance
  generalize s.advance = result at hreads
  cases hreads with
  | unread e reader => exact ⟨rfl, fun hok => by cases hok⟩
  | exhausted reader =>
    exact ⟨view_endOfArchive { s with reader }, fun _ => finished_endOfArchive { s with reader }⟩
  | block block reader hnext => simp [nextBlock?, hnext] at h

theorem begin_of_some {s : Session} (hf : s.finished = false)
    (hheader : s.view.headerWritten = false) {header : Header} {block : Block}
    (h : s.firstBlock? = some (header, block)) :
    Settles (s.view.RootTurn header block) s.reader.readHeader.2.next.2 s.begin := by
  have hreads := s.readsFirst_begin
  generalize s.begin = result at hreads
  cases hreads with
  | noHeader e reader hread => simp [firstBlock?, hread] at h
  | noBlock header' e reader reader' hread hnext =>
    simp [firstBlock?, hread, nextBlock?, hnext] at h
  | refused header' e reader reader' s₁ hread hnext =>
    simp [firstBlock?, hread, nextBlock?, hnext] at h
  | empty header' reader reader' s₁ hread hnext =>
    simp [firstBlock?, hread, nextBlock?, hnext] at h
  | root header' block' reader reader' hread hnext =>
    obtain ⟨rfl, rfl⟩ : header' = header ∧ block' = block := by
      simpa [firstBlock?, hread, nextBlock?, hnext] using h
    have hview : { s with reader }.readBlock.2.view = s.view := view_readBlock { s with reader }
    have hfinished := finished_readBlock { s with reader }
    have hsettles :=
      settles_processRoot (hfinished.trans hf) (hview ▸ hheader) header' block'
    rw [hview, reader_readBlock] at hsettles
    rw [hread]
    exact hsettles

/-- An archive without blocks is passed through. -/
theorem begin_of_none {s : Session} (hheader : s.view.headerWritten = false)
    (h : s.firstBlock? = none) :
    s.view.Ended s.begin.2.view ∧ (s.begin.1 = .ok () → s.begin.2.finished = true) := by
  have hreads := s.readsFirst_begin
  generalize s.begin = result at hreads
  cases hreads with
  | noHeader e reader => exact ⟨.unread, fun hok => by cases hok⟩
  | noBlock header e reader reader' => exact ⟨.unread, fun hok => by cases hok⟩
  | refused header e reader reader' s₁ _ _ hw =>
    obtain ⟨-, hview⟩ :=
      refused_of_writeHeader (s := { s with reader := reader' }.passThrough) hheader hw
    refine ⟨?_, fun hok => by cases hok⟩
    rw [hview]
    exact .passed _ rfl
  | empty header reader reader' s₁ _ _ hw =>
    have hview := view_of_writeHeader (s := { s with reader := reader' }.passThrough) hheader hw
    refine ⟨?_, fun _ => finished_finish _⟩
    rw [view_finish]
    show s.view.Ended s₁.view
    rw [hview]
    exact .written header _ rfl
  | root header block reader reader' hread hnext =>
    simp [firstBlock?, hread, nextBlock?, hnext] at h

theorem View.Emits.between {v w v' : View} {block : Block} {fate : Fate}
    (h : w.Emits block fate v') (hout : w.blocksOut = v.blocksOut)
    (hdiscarded : w.blocksDiscarded = v.blocksDiscarded) : Fate.between v v' = fate := by
  cases h <;> simp [Fate.between, View.writeBlock, View.noteComplete, hout, hdiscarded]

/-- The counts say what became of the block. -/
theorem View.Turn.between {v v' : View} {block : Block} {p : Option Placement} {fate : Fate}
    (h : v.Turn block p fate v') : Fate.between v v' = fate := by
  cases h with
  | passed _ _ _ hv => exact hv.between rfl rfl
  | kept _ _ _ _ _ _ _ hv => exact hv.between rfl rfl
  | dropped => simp [Fate.between, View.dropBlock, View.noteComplete, View.decided]

theorem View.Chosen.counts {v w : View} {header : Header} {block : Block}
    (h : v.Chosen header block w) :
    w.blocksOut = v.blocksOut ∧ w.blocksDiscarded = v.blocksDiscarded := by
  cases h <;> exact ⟨rfl, rfl⟩

theorem View.RootTurn.between {v v' : View} {header : Header} {block : Block} {fate : Fate}
    (h : v.RootTurn header block fate v') : Fate.between v v' = fate := by
  cases h with
  | outside => simp [Fate.between, View.rootPlaced]
  | refused _ hv =>
    rcases hv.counts with ⟨hout, hdiscarded⟩
    simp [Fate.between, hout, hdiscarded]
  | emitted _ _ _ hw hv =>
    rcases hw.counts with ⟨hout, hdiscarded⟩
    exact hv.between hout hdiscarded

/-- What no block changes. -/
structure View.Keeps (v v' : View) : Prop where
  request : v'.request = v.request
  cancelRequested : v'.cancelRequested = v.cancelRequested
  started : v'.started = v.started

theorem View.Emits.keeps {w v' : View} {block : Block} {fate : Fate}
    (h : w.Emits block fate v') : w.Keeps v' := by
  cases h <;> exact ⟨rfl, rfl, rfl⟩

theorem View.Turn.keeps {v v' : View} {block : Block} {p : Option Placement} {fate : Fate}
    (h : v.Turn block p fate v') : v.Keeps v' := by
  cases h with
  | passed _ _ _ hv => exact hv.keeps
  | kept _ _ _ _ _ _ _ hv => exact ⟨hv.keeps.request, hv.keeps.cancelRequested, hv.keeps.started⟩
  | dropped => exact ⟨rfl, rfl, rfl⟩

theorem View.Chosen.keeps {v w : View} {header : Header} {block : Block}
    (h : v.Chosen header block w) : v.Keeps w := by
  cases h <;> exact ⟨rfl, rfl, rfl⟩

theorem View.RootTurn.keeps {v v' : View} {header : Header} {block : Block} {fate : Fate}
    (h : v.RootTurn header block fate v') : v.Keeps v' := by
  cases h with
  | outside => exact ⟨rfl, rfl, rfl⟩
  | refused _ hv => exact hv.keeps
  | emitted _ _ _ hw hv =>
    have hchosen := hw.keeps
    have hemits := hv.keeps
    exact ⟨hemits.request.trans hchosen.request,
      hemits.cancelRequested.trans hchosen.cancelRequested, hemits.started.trans hchosen.started⟩

theorem View.Ended.keeps {v v' : View} (h : v.Ended v') : v.Keeps v' := by
  cases h <;> exact ⟨rfl, rfl, rfl⟩

/-- Whether a session goes on after a block: then it has not failed and is not
satisfied. -/
def GoesOn (s : Session) (fate : Fate) : Prop :=
  s.finished = false → fate ≠ .failed ∧ s.view.phase ≠ .satisfied

theorem Settles.goesOn {way : Fate → View → Prop} {reader : Reader}
    {result : Except Error Unit × Session} (h : Settles way reader result) :
    ∃ fate, way fate (concluded result).2.view ∧ (concluded result).2.GoesOn fate := by
  cases h with
  | handled s' fate hway hfate h =>
    refine ⟨fate, hway, fun hf => ⟨hfate, ?_⟩⟩
    show s'.view.phase ≠ .satisfied
    have hfinished := h.finished.symm.trans hf
    simpa using hfinished
  | failed e s' fate hway => exact ⟨fate, hway, fun hf => by cases hf⟩

/-- A step of a session behind its root handles the block that comes next, or ends the
session. -/
theorem step_turn {s : Session} (hf : s.finished = false) (hc : s.cancelRequested = false)
    (hready : s.view.Ready) :
    (s.handled = [] ∧ s.step.2.view = s.view ∧ s.step.2.finished = true) ∨
      ∃ block fate, s.handled = [⟨block, s.view.placementOf? block, fate⟩] ∧
        s.view.Turn block (s.view.placementOf? block) fate s.step.2.view ∧
        s.step.2.GoesOn fate := by
  have hs : s.started = true := hready.started
  have hstep := step_of_started hf hc hs
  cases hnext : s.nextBlock? with
  | none =>
    left
    obtain ⟨hkeep, hends⟩ := advance_of_none hnext
    refine ⟨by simp [handled, incoming?, hf, hc, hs, hnext], ?_, ?_⟩
    · rw [hstep, view_concluded, hkeep]
    · rw [hstep]
      exact finished_concluded hends
  | some block =>
    right
    obtain ⟨fate, hturn, hgo⟩ := (advance_of_some hf hready hnext).goesOn
    rw [← hstep] at hturn hgo
    refine ⟨block, fate, ?_, hturn, hgo⟩
    simp [handled, incoming?, hf, hc, hs, hnext, hturn.between]

/-- A start handles the root, or ends the session. -/
theorem start_rootTurn {s : Session} (hf : s.finished = false) (hs : s.started = false)
    (hheader : s.view.headerWritten = false) :
    (s.opening = [] ∧ View.Ended { s.view with started := true } s.start.2.view ∧
        s.start.2.finished = true) ∨
      ∃ header block fate,
        s.opening = [⟨block, some (s.view.placeRoot header block).1, fate⟩] ∧
        View.RootTurn { s.view with started := true } header block fate s.start.2.view ∧
        s.start.2.GoesOn fate := by
  have hstart : s.start.2 = (concluded { s with started := true }.begin).2 := by
    rw [start_of_not_started hs]
  cases hfirst : s.firstBlock? with
  | none =>
    left
    obtain ⟨hended, hends⟩ := begin_of_none (s := { s with started := true }) hheader hfirst
    refine ⟨by simp [opening, hs, hfirst], ?_, ?_⟩
    · rw [hstart, view_concluded]
      exact hended
    · rw [hstart]
      exact finished_concluded hends
  | some first =>
    right
    rcases first with ⟨header, block⟩
    have hsettles := begin_of_some (s := { s with started := true }) hf hheader hfirst
    rcases hsettles.goesOn with ⟨fate, hturn, hgo⟩
    rw [← hstart] at hturn hgo
    refine ⟨header, block, fate, ?_, hturn, hgo⟩
    have hbetween : Fate.between s.view s.start.2.view = fate := hturn.between
    simp [opening, hs, hfirst, hbetween]
    rfl

/-- The first step is a start, unless the session was cancelled. -/
theorem step_eq_start {s : Session} (hf : s.finished = false) (hc : s.cancelRequested = false)
    (hs : s.started = false) : s.step.2 = s.start.2 ∧ s.handled = s.opening := by
  have hstep : s.step.2 = s.start.2 := by
    rw [step_of_not_started hf hc hs, start_of_not_started hs]
  refine ⟨hstep, ?_⟩
  simp only [handled, incoming?, opening, hf, hc, hs, hstep, Bool.or_self, Bool.false_eq_true,
    if_false]
  cases s.firstBlock? <;> rfl

/-- The first step handles the root, or ends the session. -/
theorem step_rootTurn {s : Session} (hf : s.finished = false) (hc : s.cancelRequested = false)
    (hs : s.started = false) (hheader : s.view.headerWritten = false) :
    (s.handled = [] ∧ View.Ended { s.view with started := true } s.step.2.view ∧
        s.step.2.finished = true) ∨
      ∃ header block fate,
        s.handled = [⟨block, some (s.view.placeRoot header block).1, fate⟩] ∧
        View.RootTurn { s.view with started := true } header block fate s.step.2.view ∧
        s.step.2.GoesOn fate := by
  rcases step_eq_start hf hc hs with ⟨hstep, hhandled⟩
  rw [hstep, hhandled]
  exact start_rootTurn hf hs hheader

/-- A finished session does nothing. -/
theorem step_of_finished {s : Session} (hf : s.finished = true) :
    s.handled = [] ∧ s.step.2 = s := by
  simp [handled, incoming?, step, hf]

/-- A session that was cancelled ends. -/
theorem step_of_cancelled {s : Session} (hf : s.finished = false)
    (hc : s.cancelRequested = true) :
    s.handled = [] ∧ s.step.2.view = { s.view with started := true } ∧
      s.step.2.finished = true := by
  have hview := s.view_stop
  have hfinished := s.finished_stop
  refine ⟨by simp [handled, incoming?, hf, hc], ?_⟩
  simp only [step, hf, hc, Bool.false_eq_true, if_false, if_true]
  split
  · next h =>
    rw [h] at hview hfinished
    exact ⟨hview, hfinished⟩
  · next h =>
    rw [h] at hview hfinished
    exact ⟨hview, hfinished⟩

end Session

end CarSlice
