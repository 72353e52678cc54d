import CarSlice.Proofs.Archive.Framing
import CarSlice.Proofs.Selection.Seeking
import CarSlice.Proofs.Session.Accepting

/-!
# What a session selects from a file

An archive that holds one file, cut up cleanly, is read block by block.  As long as the
range goes on, the session stands between two blocks of the file (`Selects`).  A step
takes the next block and keeps it if it is wanted (`Stepped`), and by induction on the
blocks a run takes those up to the block that ends the range (`Stepped.run`).

`run_selects_range` says so of a whole archive.
-/

namespace CarSlice

open Archive (Block Header Reader ReaderOptions)
open UnixFs (Content Node)

namespace Session

/-- The frames of the blocks that are wanted. -/
def kept (start : Nat) (pairs : List (Block × Interval)) : List Bytes :=
  (pairs.filter fun p => p.2.isWanted start).map fun p => p.1.frame

/-- Whether a selection is satisfied by an interval.  If the range ends with the file, only
the end of the file ends it. -/
def endsAt (start stop : Nat) (endsWithFile : Bool) (i : Interval) : Bool :=
  !endsWithFile && i.endsRange start stop

/-- The blocks up to the one that ends the range. -/
def seen (start stop : Nat) (endsWithFile : Bool) (pairs : List (Block × Interval)) :
    List (Block × Interval) :=
  pairs.take (pairs.findIdx (fun p => endsAt start stop endsWithFile p.2) + 1)

theorem kept_cons (start : Nat) (p : Block × Interval) (pairs : List (Block × Interval)) :
    kept start (p :: pairs) = kept start [p] ++ kept start pairs := by
  cases h : p.2.isWanted start <;> simp [kept, h]

theorem reverse_kept_singleton (start : Nat) (p : Block × Interval) :
    (kept start [p]).reverse = kept start [p] := by
  cases h : p.2.isWanted start <;> simp [kept, h]

theorem seen_cons (start stop : Nat) (endsWithFile : Bool) (p : Block × Interval)
    (pairs : List (Block × Interval)) :
    seen start stop endsWithFile (p :: pairs) =
      if endsAt start stop endsWithFile p.2 then [p]
      else p :: seen start stop endsWithFile pairs := by
  cases h : endsAt start stop endsWithFile p.2 <;> simp [seen, List.findIdx_cons, h]

/-! ## Between two blocks -/

/-- A session whose sink takes everything, behind some blocks of a file and before
others, in a range that goes on. -/
structure Selects (s : Session) (start stop : Nat) (endsWithFile : Bool) (blocks : List Block)
    (tail : Bytes) : Prop where
  goesOn : s.finished = false
  uncancelled : s.cancelRequested = false
  ready : s.view.Ready
  accepts : s.view.accepts = true
  selection : ∃ selection, s.selection = some selection ∧
    selection.endsWithFile = endsWithFile ∧
    selection.Seeks s.layout start stop (blocks.map Content.ofBlock)
  reader : s.reader.Awaits blocks tail

/-- A session that has done all it had to. -/
structure Done (s : Session) : Prop where
  finished : s.finished = true
  phase : s.phase = .satisfied
  closed : s.source.closed = true

/-- A step has handled a block with its interval: it was written if it is wanted, on top
of what was `taken` before. -/
structure Stepped (s : Session) (start stop : Nat) (endsWithFile : Bool) (b : Block)
    (i : Interval) (blocks : List Block) (tail : Bytes) (taken : List Bytes) (position : Nat) :
    Prop where
  result : s.step.1 = .ok (!s.step.2.finished)
  taken : s.step.2.view.taken = kept start [(b, i)] ++ taken
  position : s.step.2.source.position = position + b.frame.length
  lands : if endsAt start stop endsWithFile i = true ∨ blocks = [] then s.step.2.Done
    else s.step.2.Selects start stop endsWithFile blocks tail ∧ s.step.2.layout.cursor = i.stop

/-- A selection that the layout no longer needs is satisfied. -/
theorem phase_noteComplete {w : View} {selection : Selection}
    (hselection : w.selection = some selection)
    (h : selection.phase = .satisfied ∨
      w.layout.isComplete = true ∧ selection.phase ≠ .passthrough) :
    w.noteComplete.phase = .satisfied := by
  by_cases hcomplete : w.layout.isComplete = true
  · have hphase : selection.phase ≠ .passthrough := by
      rcases h with h | ⟨-, h⟩
      · simp [h]
      · exact h
    simp [View.phase, View.noteComplete, hcomplete, hselection, Selection.fileComplete, hphase]
  · have hphase : selection.phase = .satisfied := by
      rcases h with h | ⟨h, -⟩
      · exact h
      · exact absurd h hcomplete
    simp [View.phase, View.noteComplete, hcomplete, hselection, hphase]

theorem Handles.done {s' : Session} {reader : Reader} (h : s'.Handles reader)
    (hphase : s'.view.phase = .satisfied) : s'.Done := by
  refine ⟨?_, hphase, ?_⟩
  · rw [h.finished, hphase]
    rfl
  · show s'.reader.source.closed = true
    rw [h.reader, if_pos hphase]
    rfl

/-- A session that still seeks the blocks to come stands before the next of them. -/
theorem Handles.selects {s' : Session} {reader : Reader} (h : s'.Handles reader) {w : View}
    {selection : Selection} {start stop : Nat} {b : Block} {blocks : List Block} {tail : Bytes}
    (hview : s'.view = w.noteComplete) (hstarted : w.started = true)
    (hheader : w.headerWritten = true) (hcancel : w.cancelRequested = false)
    (haccepts : w.accepts = true) (hselection : w.selection = some selection)
    (hplaced : w.layout.stage ≠ .fresh)
    (hseeks : selection.Seeks w.layout start stop ((b :: blocks).map Content.ofBlock))
    (hawaits : reader.Awaits (b :: blocks) tail) :
    s'.Selects start stop selection.endsWithFile (b :: blocks) tail := by
  have hopen := hseeks.isOpen
  have hnot : w.layout.isComplete = false := (Layout.completesWith_cons.1 hseeks.completes).1
  have hunderway : w.layout.stage = .underway := by
    cases hstage : w.layout.stage with
    | fresh => exact absurd hstage hplaced
    | underway => rfl
    | complete => simp [Layout.isComplete, hstage] at hnot
    | failed reason => exact absurd hseeks.completes (Layout.not_completesWith_of_failed hstage _)
  have hkept : w.noteComplete = w := by
    simp [View.noteComplete, hnot]
  rw [hkept] at hview
  have hunsatisfied : s'.view.phase ≠ .satisfied := by
    intro hsatisfied
    rw [hview, View.phase, hselection] at hsatisfied
    have hsatisfied : selection.phase = .satisfied := hsatisfied
    simp [hsatisfied, Phase.isOpen] at hopen
  refine ⟨?_, ?_, ?_, ?_, ⟨selection, ?_, rfl, ?_⟩, ?_⟩
  · rw [h.finished]
    simpa using hunsatisfied
  · exact (congrArg View.cancelRequested hview).trans hcancel
  · rw [hview]
    exact ⟨hstarted, hheader, selection, hselection, Or.inr ⟨hopen, hunderway⟩⟩
  · rw [hview]
    exact haccepts
  · exact (congrArg View.selection hview).trans hselection
  · have hlayout : s'.layout = w.layout := congrArg View.layout hview
    rw [hlayout]
    exact hseeks
  · rw [h.reader, if_neg hunsatisfied]
    exact hawaits

/-- Behind a block, a session has done all it had to if the range ends with the block or
the file does.  Else it stands before the next block. -/
theorem lands {s' : Session} {reader : Reader} {w : View} {before selection : Selection}
    {decision : Decision} {start stop : Nat} {i : Interval} {blocks : List Block} {tail : Bytes}
    (hview : s'.view = w.noteComplete) (hhandles : s'.Handles reader)
    (hstarted : w.started = true) (hheader : w.headerWritten = true)
    (hcancel : w.cancelRequested = false) (haccepts : w.accepts = true)
    (hselection : w.selection = some selection) (hplaced : w.layout.stage ≠ .fresh)
    (hcursor : w.layout.cursor = i.stop)
    (hfollows : before.Follows decision selection start stop i)
    (hseeks : ¬(before.endsWithFile = false ∧ i.endsRange start stop = true) →
      selection.Seeks w.layout start stop (blocks.map Content.ofBlock))
    (hawaits : reader.Awaits blocks tail) :
    if endsAt start stop before.endsWithFile i = true ∨ blocks = [] then s'.Done
    else s'.Selects start stop before.endsWithFile blocks tail ∧ s'.layout.cursor = i.stop := by
  have hiff : endsAt start stop before.endsWithFile i = true ↔
      before.endsWithFile = false ∧ i.endsRange start stop = true := by
    simp [endsAt]
  have hphase := hfollows.phase
  by_cases hends : before.endsWithFile = false ∧ i.endsRange start stop = true
  · rw [if_pos hends] at hphase
    rw [if_pos (Or.inl (hiff.2 hends))]
    apply hhandles.done
    rw [hview]
    exact phase_noteComplete hselection (Or.inl hphase)
  · have hseeks := hseeks hends
    cases blocks with
    | nil =>
      rw [if_pos (Or.inr rfl)]
      apply hhandles.done
      rw [hview]
      refine phase_noteComplete hselection (Or.inr ⟨?_, ?_⟩)
      · exact Layout.completesWith_nil.1 hseeks.completes
      · intro hpass
        have hopen := hseeks.isOpen
        simp [hpass, Phase.isOpen] at hopen
    | cons b blocks =>
      have hselects := hhandles.selects hview hstarted hheader hcancel haccepts hselection hplaced
        hseeks hawaits
      have hlayout : s'.layout = w.layout := congrArg View.layout hview
      rw [if_neg (by simp [hiff, hends]), ← hfollows.endsWithFile, hlayout]
      exact ⟨hselects, hcursor⟩

/-! ## Steps -/

theorem Selects.step {s : Session} {start stop : Nat} {endsWithFile : Bool} {b : Block}
    {blocks : List Block} {tail : Bytes}
    (h : s.Selects start stop endsWithFile (b :: blocks) tail) {i : Interval}
    (hi : i = { start := s.layout.cursor, stop := s.layout.cursor + (Content.ofBlock b).ownSize,
                isData := (Content.ofBlock b).leafSize?.isSome }) :
    s.Stepped start stop endsWithFile b i blocks tail s.view.taken s.source.position := by
  rcases h.selection with ⟨selection, hselection, hends, hseeks⟩
  rcases h.reader.next with ⟨reader, hnext, hgave, hawaits⟩
  obtain ⟨hresult, hhandles, fate, hturn⟩ :=
    step_of_next h.goesOn h.uncancelled h.ready h.accepts hnext
  obtain ⟨hplaced, hcursor, hfollows, hgoes⟩ := hseeks.next hi
  have hfate := (hturn.accepts h.accepts).1
  have hopen := hseeks.isOpen
  have hfresh := Layout.place_not_fresh hseeks.valid (Content.ofBlock b)
  have hposition : s.step.2.source.position = s.source.position + b.frame.length := by
    have hgiven := hgave.position
    show s.step.2.reader.source.position = _
    rw [hhandles.reader]
    split <;> exact hgiven
  have hdecision := hfollows.decision
  subst hends
  generalize hv' : s.step.2.view = v' at hturn
  generalize s.view.placementOf? b = p at hturn
  cases hturn with
  | passed _ _ hphase =>
    rw [View.phase, show s.view.selection = some selection from hselection] at hphase
    have hphase : selection.phase = .passthrough := hphase
    simp [hphase, Phase.isOpen] at hopen
  | kept selection' _ _ hselection' _ _ hkept hemits =>
    obtain rfl : selection = selection' := Option.some.inj (hselection.symm.trans hselection')
    have hwanted : i.isWanted start = true := by
      by_contra hnot
      have hdrop := hkept.symm.trans hdecision
      simp [hnot] at hdrop
    cases hemits with
    | refused => exact absurd rfl hfate
    | written =>
      refine ⟨hresult, ?_, hposition, ?_⟩
      · rw [hv']
        simp [kept, hwanted, View.noteComplete, View.writeBlock, View.decided]
      · exact lands (w := (s.view.decided selection b).writeBlock b) hv' hhandles
          h.ready.started h.ready.headerWritten h.uncancelled h.accepts rfl hfresh hcursor
          hfollows hgoes hawaits
  | dropped selection' hselection' _ _ hdropped =>
    obtain rfl : selection = selection' := Option.some.inj (hselection.symm.trans hselection')
    have hwanted : i.isWanted start = false := by
      by_contra hnot
      have hemit := hdropped.symm.trans hdecision
      simp [hnot] at hemit
    refine ⟨hresult, ?_, hposition, ?_⟩
    · rw [hv']
      simp [kept, hwanted, View.noteComplete, View.dropBlock, View.decided]
    · exact lands (w := (s.view.decided selection b).dropBlock) hv' hhandles
        h.ready.started h.ready.headerWritten h.uncancelled h.accepts rfl hfresh hcursor
        hfollows hgoes hawaits

/-! ## Runs -/

/-- A run has seen some blocks, has written those that are wanted on top of what was
`taken` before, and is done. -/
structure Selected (s : Session) (start : Nat) (blocks : List (Block × Interval))
    (taken : List Bytes) (position : Nat) : Prop where
  result : s.run.1 = .ok ()
  done : s.run.2.Done
  taken : s.run.2.view.taken = (kept start blocks).reverse ++ taken
  position : s.run.2.source.position = position + (blocks.map fun p => p.1.frame.length).sum

theorem run_of_step {s : Session} {more : Bool} (h : s.step.1 = .ok more) :
    s.run = if more then s.step.2.run else (.ok (), s.step.2) := by
  rw [run]
  split
  · next e s' hs => rw [hs] at h; cases h
  · next s' hs =>
    rw [hs] at h
    cases h
    rw [hs]
    rfl
  · next s' hs =>
    rw [hs] at h
    cases h
    rw [hs]
    rfl

section

variable {s : Session} {start stop : Nat} {endsWithFile : Bool} {b : Block} {i : Interval}
  {blocks : List Block} {tail : Bytes} {taken : List Bytes} {position : Nat}
  (h : s.Stepped start stop endsWithFile b i blocks tail taken position)

include h

theorem Stepped.last (hdone : s.step.2.Done) : s.Selected start [(b, i)] taken position := by
  have hrun : s.run = (.ok (), s.step.2) := by
    rw [run_of_step h.result, hdone.finished]
    rfl
  refine ⟨by rw [hrun], by rw [hrun]; exact hdone, ?_, ?_⟩
  · rw [hrun, reverse_kept_singleton]
    exact h.taken
  · rw [hrun]
    simpa using h.position

theorem Stepped.more (hf : s.step.2.finished = false) {pairs : List (Block × Interval)}
    (hmore : s.step.2.Selected start pairs s.step.2.view.taken s.step.2.source.position) :
    s.Selected start ((b, i) :: pairs) taken position := by
  have hrun : s.run = s.step.2.run := by
    rw [run_of_step h.result, hf]
    rfl
  refine ⟨by rw [hrun]; exact hmore.result, by rw [hrun]; exact hmore.done, ?_, ?_⟩
  · rw [hrun, hmore.taken, h.taken, kept_cons start _ pairs, List.reverse_append,
      reverse_kept_singleton, List.append_assoc]
  · rw [hrun, hmore.position, h.position, List.map_cons, List.sum_cons, Nat.add_assoc]

end

/-- From one block on, a run sees the blocks up to the one that ends the range.  By
induction on the blocks: each step either ends the run or leaves the session before the
next block. -/
theorem Stepped.run {start stop : Nat} {endsWithFile : Bool} {tail : Bytes}
    {blocks : List Block} {s : Session} {b : Block} {i : Interval} {taken : List Bytes}
    {position : Nat}
    (h : s.Stepped start stop endsWithFile b i blocks tail taken position) :
    s.Selected start (seen start stop endsWithFile
      ((b, i) :: blocks.zip (spansFrom i.stop (blocks.map Content.ofBlock)))) taken position := by
  rw [seen_cons]
  induction blocks generalizing s b i taken position with
  | nil =>
    have hdone := h.lands
    rw [if_pos (Or.inr rfl)] at hdone
    have hlast := h.last hdone
    split
    · exact hlast
    · exact hlast
  | cons b' blocks ih =>
    have hlands := h.lands
    split
    · next hends =>
      rw [if_pos (Or.inl hends)] at hlands
      exact h.last hlands
    · next hends =>
      rw [if_neg (by simp [hends])] at hlands
      rcases hlands with ⟨hselects, hcursor⟩
      have hstepped := hselects.step rfl
      have hmore := ih hstepped
      rw [← seen_cons, hcursor] at hmore
      exact h.more hselects.goesOn hmore

/-! ## The whole archive -/

/-- The view after the root of a file was placed and decided on. -/
def View.rootDecided (v : View) (b : Block) (size stop : Nat) : View :=
  { v with
    layout := (v.layout.place (.ofBlock b)).2
    resolvedEnd := some stop
    selection := some ((Selection.ofRange v.request.start stop (some size)).decide
      (v.layout.place (.ofBlock b)).1).2 }

/-- Where the first block is the root of a file that the range lies in, it is placed and
decided on as any other block is. -/
theorem View.RootTurn.eq_rootDecided {v v' : View} {header : Header} {b : Block} {fate : Fate}
    {size stop : Nat} (h : v.RootTurn header b fate v')
    (hroot : header.roots.head?.map (·.bytes) = some b.cid.bytes)
    (hplaced : ∀ offset reason, (v.layout.place (.ofBlock b)).1 ≠ .mismatch offset reason)
    (hsize : (v.layout.place (.ofBlock b)).2.fileSize = some size)
    (hstop : v.request.resolve size = .ok stop) (hfate : fate ≠ .failed) :
    v' = (((v.rootDecided b size stop).writeHeader header).writeBlock b).noteComplete := by
  have hplace : v.placeRoot header b = v.layout.place (.ofBlock b) := if_pos hroot
  cases h with
  | outside => exact absurd rfl hfate
  | refused => exact absurd rfl hfate
  | emitted w _ _ hw hemits =>
    have hw : w = v.rootDecided b size stop := by
      cases hw with
      | passed selection hmismatch =>
        rcases hmismatch with ⟨offset, reason, hmismatch⟩
        rw [hplace] at hmismatch
        exact absurd hmismatch (hplaced offset reason)
      | selected stop' _ hstop' =>
        rw [hplace, hsize] at hstop'
        obtain rfl : stop = stop' := Except.ok.inj (hstop.symm.trans hstop')
        rw [View.rootPlaced, hplace, hsize]
        rfl
    cases hemits with
    | written => rw [hw]
    | refused => exact absurd rfl hfate

/-- The first step reads header and root and writes both. -/
theorem stepped_root {source : Source} {sink : Sink} {request : ByteRange}
    {options : ReaderOptions} {retains : Bool} {header : Header} {b : Block}
    {blocks : List Block} {tail : Bytes} {size stop : Nat} {i : Interval}
    (hopen : source.closed = false)
    (hunread : source.unread = header.frame ++ ((b :: blocks).flatMap Block.frame ++ tail))
    (hheader : header.Readable options.maxHeaderSize)
    (hroot : header.roots.head?.map (·.bytes) = some b.cid.bytes)
    (hblocks : ∀ b' ∈ b :: blocks, b'.Readable options.maxSectionSize)
    (hverify : options.verifyDigests = false) (haccepts : sink.acceptsAll = true)
    (hseeks : (Selection.ofRange request.start stop (some size)).Seeks (Layout.new retains)
      request.start stop ((b :: blocks).map Content.ofBlock))
    (hsize : ((Layout.new retains).place (.ofBlock b)).2.fileSize = some size)
    (hstop : request.resolve size = .ok stop)
    (hi : i = { start := 0, stop := (Content.ofBlock b).ownSize,
                isData := (Content.ofBlock b).leafSize?.isSome })
    (hwanted : i.isWanted request.start = true) :
    (new source sink request options retains).Stepped request.start stop (size == stop) b i blocks
      tail (header.frame :: sink.taken) (source.position + header.frame.length) := by
  obtain ⟨reader, hread, hgave, hoptions, hknown⟩ :=
    Reader.readHeader_of_readable (r := (new source sink request options retains).reader) rfl
      hheader hopen hunread
  have hawaits : reader.Awaits (b :: blocks) tail := by
    refine ⟨by simp [hknown], ?_, ?_, hgave.closed.trans hopen, hgave.unread_eq hunread⟩
    · rw [hoptions]
      exact hverify
    · rw [hoptions]
      exact hblocks
  rcases hawaits.next with ⟨reader', hnext, hgave', hawaits'⟩
  have hplaceRoot : (new source sink request options retains).view.placeRoot header b =
      (Layout.new retains).place (.ofBlock b) := if_pos hroot
  have hlies : (new source sink request options retains).view.LiesIn header b := by
    refine ⟨stop, ?_⟩
    rw [hplaceRoot, hsize]
    exact hstop
  obtain ⟨hresult, hhandles, fate, hturn⟩ :=
    step_of_root (s := new source sink request options retains) rfl rfl rfl rfl haccepts hread
      hnext hlies
  have hi' : i = { start := (Layout.new retains).cursor,
                   stop := (Layout.new retains).cursor + (Content.ofBlock b).ownSize,
                   isData := (Content.ofBlock b).leafSize?.isSome } := by
    rw [hi, Nat.zero_add]
  obtain ⟨hplaced, hcursor, hfollows, hgoes⟩ := hseeks.next hi'
  have hfate := (hturn.accepts hlies haccepts).1
  have hfresh := Layout.place_not_fresh hseeks.valid (Content.ofBlock b)
  have hposition : (new source sink request options retains).step.2.source.position =
      source.position + header.frame.length + b.frame.length := by
    have hgiven := hgave'.position
    rw [hgave.position] at hgiven
    show (new source sink request options retains).step.2.reader.source.position = _
    rw [hhandles.reader]
    split <;> exact hgiven
  have hnot (offset : Nat) (reason : Mismatch) :
      ((Layout.new retains).place (.ofBlock b)).1 ≠ .mismatch offset reason := by
    rw [hplaced, Placement.ofInterval]
    split <;> simp
  have hv' := hturn.eq_rootDecided hroot hnot hsize hstop hfate
  refine ⟨hresult, ?_, hposition, ?_⟩
  · rw [hv']
    simp [kept, hwanted, View.rootDecided, View.noteComplete, View.writeBlock, View.writeHeader]
    rfl
  · exact lands hv' hhandles rfl rfl rfl haccepts rfl hfresh hcursor hfollows hgoes hawaits'

/-- A run sees the blocks up to the one that ends the range. -/
theorem seen_zip {tree : FileTree} {start stop : Nat} {blocks : List Block}
    (hcontents : blocks.length = tree.contents.length)
    (hintervals : blocks.length = (tree.intervals 0).length) :
    seen start stop (tree.size == stop) (blocks.zip (tree.intervals 0)) =
      (blocks.zip (tree.intervals 0)).take (tree.endIndex start stop + 1) := by
  unfold seen FileTree.endIndex
  by_cases hend : stop = tree.size
  · have hnone : (blocks.zip (tree.intervals 0)).findIdx
        (fun p => endsAt start stop (tree.size == stop) p.2) =
          (blocks.zip (tree.intervals 0)).length := by
      apply List.findIdx_eq_length_of_false
      intro p _
      simp [endsAt, hend]
    rw [if_pos hend, hnone, ← hcontents, List.take_of_length_le (Nat.le_succ _),
      List.take_of_length_le]
    simp only [List.length_zip]
    omega
  · have hends : (fun p : Block × Interval => endsAt start stop (tree.size == stop) p.2) =
        (fun i : Interval => i.endsRange start stop) ∘ Prod.snd := by
      funext p
      simp [endsAt, Ne.symm hend]
    rw [if_neg hend, hends, ← List.findIdx_map, List.map_snd_zip hintervals.ge]

/-- The writes of a run in order are one row of bytes. -/
theorem flatten_reverse_kept (start : Nat) (pairs : List (Block × Interval))
    (taken : List Bytes) (frame : Bytes) :
    ((kept start pairs).reverse ++ frame :: taken).reverse.flatten =
      taken.reverse.flatten ++ frame ++
        (pairs.filter fun p => p.2.isWanted start).flatMap fun p => p.1.frame := by
  simp [kept, List.flatMap]

/-- Exact selection.  The archive holds one file, its blocks in preorder, and anything
behind them.  The request lies in the file.  Then a run is satisfied: it writes the header
and, up to the block that ends the range, every block that is wanted, and it reads nothing
behind that block. -/
theorem run_selects_range {source : Source} {sink : Sink} {request : ByteRange}
    {options : ReaderOptions} {retains : Bool} {header : Header} {blocks : List Block}
    {tail : Bytes} {tree : FileTree} {stop : Nat}
    (hopen : source.closed = false)
    (hunread : source.unread = header.frame ++ blocks.flatMap Block.frame ++ tail)
    (hheader : header.Readable options.maxHeaderSize)
    (hroot : header.roots.head?.map (·.bytes) = blocks.head?.map (·.cid.bytes))
    (hblocks : ∀ b ∈ blocks, b.Readable options.maxSectionSize)
    (hfile : tree.IsFile) (hcontents : blocks.map Content.ofBlock = tree.contents)
    (hsize : tree.size < wordValues) (hstop : request.resolve tree.size = .ok stop)
    (hverify : options.verifyDigests = false) (haccepts : sink.acceptsAll = true) :
    let run := (new source sink request options retains).run
    let k := tree.endIndex request.start stop
    let wanted := ((blocks.zip (tree.intervals 0)).take (k + 1)).filter
      fun p => p.2.isWanted request.start
    k < blocks.length ∧ run.1 = .ok () ∧ run.2.phase = .satisfied ∧
      run.2.sink.output =
        sink.output ++ header.frame ++ wanted.flatMap (fun p => p.1.frame) ∧
      run.2.source.position = source.position + header.frame.length +
        ((blocks.take (k + 1)).map fun b => b.frame.length).sum ∧
      run.2.source.closed = true := by
  intro run k wanted
  have hmax : tree.size ≤ maxCount := Nat.le_of_lt_succ hsize
  have hlength : blocks.length = tree.contents.length := by
    rw [← hcontents, List.length_map]
  have hzip : blocks.length = (tree.intervals 0).length := by
    rw [hfile.wellFormed.length_intervals, hlength]
  obtain ⟨root, bs, hpreorder, hrootFile, hrootSize, -⟩ := hfile.exists_root hmax
  rw [hpreorder] at hcontents
  cases blocks with
  | nil => cases hcontents
  | cons b blocks =>
    have hb : Content.ofBlock b = .node root := (List.cons.inj hcontents).1
    rw [← hpreorder] at hcontents
    have hseeks := Selection.seeks_new hfile hmax request.start stop retains
    rw [← hcontents] at hseeks
    have hplaced : ((Layout.new retains).place (.ofBlock b)).2.fileSize = some tree.size := by
      rw [hb, Layout.fileSize_place_root hrootFile, hrootSize]
    have hwanted (i : Interval) (hi : i = ⟨0, (Content.ofBlock b).ownSize,
        (Content.ofBlock b).leafSize?.isSome⟩) : i.isWanted request.start = true := by
      rw [hb] at hi
      exact isWanted_root hrootFile (hrootSize ▸ hstop) hi
    have hselected := (stepped_root hopen (by simpa using hunread) hheader
      hroot hblocks hverify haccepts hseeks hplaced hstop rfl (hwanted _ rfl)).run
    have hpairs : (b :: blocks).zip (tree.intervals 0) =
        (b, ⟨0, (Content.ofBlock b).ownSize, (Content.ofBlock b).leafSize?.isSome⟩) ::
          blocks.zip (spansFrom (Content.ofBlock b).ownSize (blocks.map Content.ofBlock)) := by
      rw [FileTree.intervals_eq hfile.wellFormed, ← hcontents]
      simp [spansFrom]
    rw [← hpairs, seen_zip hlength hzip] at hselected
    refine ⟨hlength ▸ hfile.endIndex_lt hmax hstop, hselected.result, hselected.done.phase, ?_, ?_,
      hselected.done.closed⟩
    · have htaken : run.2.sink.taken = _ := hselected.taken
      rw [Sink.output, Sink.writes, htaken, flatten_reverse_kept]
      rfl
    · have hframes : ((b :: blocks).zip (tree.intervals 0)).map (fun p => p.1.frame.length) =
          (b :: blocks).map fun b' => b'.frame.length := by
        have hfst := congrArg (List.map fun b' : Block => b'.frame.length)
          (List.map_fst_zip hzip.le)
        rw [List.map_map] at hfst
        exact hfst
      rw [hselected.position, List.map_take, hframes, ← List.map_take]

/-- A root with one byte of its own and three leaves of two, three and one bytes.  For the
fourth byte the session writes the root and the second leaf, and never reads the third. -/
theorem run_selects_second_leaf :
    let nodeCid := Cid.make 1 Codec.dagPb 0 []
    let body := Header.encodeBody [nodeCid.bytes] 1
    let header : Header := { version := 1, roots := [nodeCid], frame := 25 :: body }
    let root : Block :=
      { lengthBytes := [29], cid := nodeCid
        payload := [0x12, 0x02, 0x0a, 0x00, 0x12, 0x02, 0x0a, 0x00, 0x12, 0x02, 0x0a, 0x00,
          0x0a, 0x0b, 0x08, 0x02, 0x12, 0x01, 0x61, 0x20, 0x02, 0x20, 0x03, 0x20, 0x01] }
    let leaf (length : UInt8) (payload : Bytes) : Block :=
      { lengthBytes := [length], cid := Cid.make 1 Codec.raw 0 [], payload }
    let first := leaf 6 [0x62, 0x63]
    let second := leaf 7 [0x64, 0x65, 0x66]
    let third := leaf 5 [0x67]
    let source := Source.ofMemory
      (header.frame ++ [root, first, second, third].flatMap Block.frame ++ [0xff]) 0
    let request : ByteRange := { start := 3, stop := some 4, ordered := by simp }
    let run := (new source .unlimited request {} false).run
    run.1 = .ok () ∧ run.2.phase = .satisfied ∧
      run.2.sink.output = header.frame ++ root.frame ++ second.frame ∧
      run.2.source.position = (header.frame ++ root.frame ++ first.frame ++ second.frame).length := by
  intro nodeCid body header root leaf first second third source request run
  have hheader : header.Readable ({} : ReaderOptions).maxHeaderSize :=
    ⟨[25], body, { header with frame := [] }, by decide +kernel, by decide +kernel,
      by decide +kernel, rfl⟩
  have hblocks : ∀ b ∈ [root, first, second, third],
      b.Readable ({} : ReaderOptions).maxSectionSize := by
    simp only [List.mem_cons, List.not_mem_nil, or_false, forall_eq_or_imp, forall_eq]
    refine ⟨⟨?_, ?_, ?_⟩, ⟨?_, ?_, ?_⟩, ⟨?_, ?_, ?_⟩, ⟨?_, ?_, ?_⟩⟩ <;> decide +kernel
  let node : Node :=
    { kind := .file, childSizes := [2, 3, 1], linkCount := 3, inlineSize := 1, filesize := none }
  let tree : FileTree := .branch node [.leaf (.bytes 2), .leaf (.bytes 3), .leaf (.bytes 1)]
  have hfile : tree.IsFile := by
    refine .branch _ _ ⟨rfl, by simp, rfl, rfl, by simp [node]⟩ ?_
    simp only [List.mem_cons, List.not_mem_nil, or_false, forall_eq_or_imp, forall_eq]
    exact ⟨.leaf _ rfl, .leaf _ rfl, .leaf _ rfl⟩
  have hcontents : [root, first, second, third].map Content.ofBlock = tree.contents := by
    have hblocks : [root, first, second, third].map Content.ofBlock =
        [.node node, .bytes 2, .bytes 3, .bytes 1] := by
      decide +kernel
    rw [hblocks]
    rfl
  obtain ⟨-, hok, hphase, houtput, hposition, -⟩ :=
    @run_selects_range source .unlimited request {} false header [root, first, second, third]
      [0xff] tree 4 rfl rfl hheader (by decide +kernel) hblocks hfile hcontents (by decide +kernel)
      (by decide +kernel) rfl rfl
  refine ⟨hok, hphase, houtput.trans ?_, hposition.trans ?_⟩
  · decide +kernel
  · decide +kernel

end Session

end CarSlice
