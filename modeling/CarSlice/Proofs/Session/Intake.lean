import CarSlice.Proofs.Archive.Digests
import CarSlice.Proofs.Session.Demands
import CarSlice.Proofs.Session.Passthrough

/-!
# What a session takes in and passes on

A session handles a block only behind the call of its reader that returned it, and it writes
nothing but the header of its archive and blocks that it handles.  Both hold whether or not an
operation fails.

* `Leaves`: a session has its reader where another one stands, or has ended and closed its source
  there.  Every function behind a read leaves the reader in its place (`SettlesWork.leaves` and
  `leaves_endOfArchive`).
* `Intake`: an operation reads nothing, or it reads on once and handles the block that comes, if
  one comes (`intake_operate`).
* `Written` is what an operation does to the sink (`written_operate`).
* `Relayed` is kept by every operation and is what is known behind every row of demands
  (`relayed_serveAll`).
-/

namespace CarSlice

open Archive (Block Header Reader ReaderOptions)

namespace Session

/-! ## What leaves the reader in its place -/

/-- A session whose reader stands where another one does.  If its source was closed there, the
session has ended. -/
structure Leaves (s : Session) (reader : Reader) : Prop where
  stands : s.reader = reader ∨ s.reader = { reader with source := reader.source.close }
  goesOn : s.finished = false → s.reader = reader

theorem leaves_of_eq {s : Session} {reader : Reader} (h : s.reader = reader) : s.Leaves reader :=
  ⟨Or.inl h, fun _ => h⟩

theorem leaves_finish (s : Session) : s.finish.2.Leaves s.reader := by
  constructor
  · rw [reader_finish, reader_releaseSource]
    split
    · exact Or.inr rfl
    · exact Or.inl rfl
  · intro hf
    rw [finished_finish] at hf
    cases hf

theorem leaves_settle (s : Session) (before : Phase) : (s.settle before).2.Leaves s.reader := by
  have hkeeps := s.keeps_noted before
  have hsettles := s.settlesAs_settle before
  generalize s.settle before = result at hsettles
  cases hsettles with
  | ended =>
    rw [← hkeeps.reader]
    exact leaves_finish _
  | goesOn => exact leaves_of_eq hkeeps.reader

/-- Nothing that is done with a block moves the reader. -/
theorem SettlesWork.leaves {s : Session} {work result : Except Error Unit × Session}
    (h : s.SettlesWork work result) (hkeeps : s.Keeps work.2) : result.2.Leaves s.reader := by
  cases h with
  | failed e s₁ => exact leaves_of_eq hkeeps.reader
  | settled s₁ =>
    rw [← hkeeps.reader]
    exact s₁.leaves_settle s.phase

theorem leaves_endOfArchive (s : Session) : s.endOfArchive.2.Leaves s.reader := by
  have hends := s.endsArchive_endOfArchive
  generalize s.endOfArchive = result at hends
  cases hends with
  | incomplete => exact leaves_finish _
  | complete => exact s.leaves_finish

/-- A failure closes the source and moves nothing. -/
theorem leaves_concluded {result : Except Error Unit × Session} {reader : Reader}
    (h : result.2.Leaves reader) : (concluded result).2.Leaves reader := by
  rcases result with ⟨⟨e⟩ | ⟨⟩, s⟩
  · constructor
    · right
      show { s.reader with source := s.reader.source.close } = _
      rcases h.stands with hreader | hreader
      · rw [hreader]
      · rw [hreader]
        rfl
    · intro hf
      cases hf
  · exact h

theorem leaves_advance (s : Session) : s.advance.2.Leaves s.reader.next.2 := by
  have hreads := s.readsNext_advance
  generalize s.advance = result at hreads
  cases hreads with
  | unread e reader hnext =>
    rw [hnext]
    exact leaves_of_eq rfl
  | exhausted reader hnext =>
    rw [hnext]
    exact leaves_endOfArchive { s with reader }
  | block block reader hnext =>
    rw [← s.reader_readBlock]
    exact (s.readBlock.2.settlesWork_processBlock block).leaves (keeps_handleBlock _ block)

theorem leaves_begin (s : Session) : s.begin.2.Leaves s.reader.next.2 := by
  have hreads := s.readsFirst_begin
  generalize s.begin = result at hreads
  cases hreads with
  | noHeader e reader hread =>
    have hnext : s.reader.next = (.error e, reader) := by rw [Reader.next, hread]
    rw [hnext]
    exact leaves_of_eq rfl
  | noBlock header e reader reader' hread hnext =>
    rw [Reader.next_of_readHeader hread, hnext]
    exact leaves_of_eq rfl
  | refused header e reader reader' s₁ hread hnext hw =>
    have hkeeps := keeps_writeHeader { s with reader := reader' }.passThrough header
    rw [hw] at hkeeps
    rw [Reader.next_of_readHeader hread, hnext]
    exact leaves_of_eq hkeeps.reader
  | empty header reader reader' s₁ hread hnext hw =>
    have hkeeps := keeps_writeHeader { s with reader := reader' }.passThrough header
    rw [hw] at hkeeps
    have hreader : s₁.warnEmpty.reader = reader' := hkeeps.reader
    have hleaves := s₁.warnEmpty.leaves_finish
    rw [hreader] at hleaves
    rw [Reader.next_of_readHeader hread, hnext]
    exact hleaves
  | root header block reader reader' hread hnext =>
    have hreader : { s with reader }.readBlock.2.reader = reader.next.2 := reader_readBlock _
    have hleaves := ({ s with reader }.readBlock.2.settlesWork_processRoot header block).leaves
      (keeps_handleRoot _ header block)
    rw [hreader] at hleaves
    rw [Reader.next_of_readHeader hread]
    exact hleaves

/-! ## What is read -/

/-- The first block of an archive is what its reader returns first. -/
theorem nextBlock?_of_first (s : Session) : s.nextBlock? = s.firstBlock?.map Prod.snd := by
  cases hread : s.reader.readHeader with
  | mk result reader =>
    cases result with
    | error e => simp [nextBlock?, firstBlock?, Reader.next, hread]
    | ok header =>
      have hnext := Reader.next_of_readHeader hread
      simp [nextBlock?, firstBlock?, hnext, hread, Option.map_map, Function.comp_def]

theorem blocks_opening {s : Session} (hs : s.started = false) :
    s.opening.map (·.block) = s.nextBlock?.toList := by
  rw [nextBlock?_of_first, opening, if_neg (by simp [hs])]
  cases s.firstBlock? <;> rfl

theorem blocks_handled {s : Session} (hf : s.finished = false) (hc : s.cancelRequested = false)
    (hs : s.started = true) : s.handled.map (·.block) = s.nextBlock?.toList := by
  rw [handled, incoming?, if_neg (by simp [hf, hc]), if_pos hs]
  cases s.nextBlock? <;> rfl

/-! ## What is written -/

/-- What an operation does to the sink, given what reading the header comes to. -/
inductive View.Writes (v : View) (read : Except Error Header) (handled : List Handled)
    (v' : View) : Prop where
  /-- The blocks that are written follow what is there. -/
  | blocks (hheader : v'.headerWritten = v.headerWritten)
      (hnone : v.headerWritten = false → framesOf handled = [])
      (htaken : v'.taken = (framesOf handled).reverse ++ v.taken)
  /-- The header is written, and behind it the blocks that are written. -/
  | header (header : Header) (hread : read = .ok header) (hnew : v.headerWritten = false)
      (hheader : v'.headerWritten = true)
      (htaken : v'.taken = (framesOf handled).reverse ++ header.frame :: v.taken)

theorem View.Turn.headerWritten {v v' : View} {block : Block} {p : Option Placement} {fate : Fate}
    (h : v.Turn block p fate v') : v'.headerWritten = v.headerWritten := by
  cases h with
  | passed _ _ _ hv => cases hv <;> rfl
  | kept _ _ _ _ _ _ _ hv => cases hv <;> rfl
  | dropped => rfl

theorem View.RootTurn.writes {v v' : View} (hnew : v.headerWritten = false) {header : Header}
    {block : Block} {fate : Fate} (h : v.RootTurn header block fate v') (p : Option Placement) :
    v.Writes (.ok header) [⟨block, p, fate⟩] v' := by
  have hchosen {w : View} (hw : v.Chosen header block w) :
      w.headerWritten = v.headerWritten ∧ w.taken = v.taken := by
    cases hw <;> exact ⟨rfl, rfl⟩
  cases h with
  | outside => exact .blocks rfl (by simp [framesOf]) (by simp [framesOf, View.rootPlaced])
  | refused _ hw =>
    obtain ⟨hheader, htaken⟩ := hchosen hw
    exact .blocks hheader (by simp [framesOf]) (by simp [framesOf, htaken])
  | emitted w _ _ hw hv =>
    obtain ⟨-, htaken⟩ := hchosen hw
    cases hv with
    | written =>
      apply View.Writes.header header rfl hnew rfl
      simp [framesOf, View.noteComplete, View.writeBlock, View.writeHeader, htaken]
    | refused =>
      apply View.Writes.header header rfl hnew rfl
      simp [framesOf, View.writeHeader, htaken]

/-- A beginning without a block writes the header that it has read, or nothing. -/
theorem writes_begin_of_none {s : Session} (hnew : s.view.headerWritten = false)
    (hfirst : s.firstBlock? = none) :
    s.view.Writes s.reader.readHeader.1 [] s.begin.2.view := by
  have hkept {v' : View} (hheader : v'.headerWritten = s.view.headerWritten)
      (htaken : v'.taken = s.view.taken) : s.view.Writes s.reader.readHeader.1 [] v' :=
    .blocks hheader (fun _ => rfl) htaken
  have hreads := s.readsFirst_begin
  generalize s.begin = result at hreads
  cases hreads with
  | noHeader e reader hread => exact hkept rfl rfl
  | noBlock header e reader reader' hread hnext => exact hkept rfl rfl
  | refused header e reader reader' s₁ hread hnext hw =>
    obtain ⟨-, hview⟩ :=
      refused_of_writeHeader (s := { s with reader := reader' }.passThrough) hnew hw
    have hheader := congrArg View.headerWritten hview
    have htaken := congrArg View.taken hview
    exact hkept hheader htaken
  | empty header reader reader' s₁ hread hnext hw =>
    have hview := view_of_writeHeader (s := { s with reader := reader' }.passThrough) hnew hw
    rw [view_finish]
    exact .header header (by rw [hread]) hnew (congrArg View.headerWritten hview)
      (congrArg View.taken hview)
  | root header block reader reader' hread hnext =>
    have hblock : s.nextBlock? = some block := by
      rw [nextBlock?, Reader.next_of_readHeader hread, hnext]
    rw [nextBlock?_of_first, hfirst] at hblock
    cases hblock

/-- A start writes the header that it has read and the root behind it, or nothing. -/
theorem writes_start {s : Session} (hf : s.finished = false) (hs : s.started = false)
    (hnew : s.view.headerWritten = false) :
    s.view.Writes s.reader.readHeader.1 s.opening s.start.2.view := by
  have hview : s.start.2.view = { s with started := true }.begin.2.view := by
    rw [start_of_not_started hs, view_concluded]
  have hbegin : View.Writes { s.view with started := true } s.reader.readHeader.1 s.opening
      s.start.2.view := by
    cases hfirst : s.firstBlock? with
    | none =>
      have hopening : s.opening = [] := by simp [opening, hs, hfirst]
      rw [hopening, hview]
      exact writes_begin_of_none (s := { s with started := true }) hnew hfirst
    | some first =>
      obtain ⟨header, block⟩ := first
      have hsettles := begin_of_some (s := { s with started := true }) hf hnew hfirst
      obtain ⟨fate, hturn, -⟩ := hsettles.goesOn
      rw [view_concluded, ← hview] at hturn
      have hbetween : Fate.between s.view s.start.2.view = fate := hturn.between
      have hopening : s.opening = [⟨block, some (s.placeRoot header block).1, fate⟩] := by
        simp [opening, hs, hfirst, hbetween]
      have hread : s.reader.readHeader.1 = .ok header := by
        unfold firstBlock? at hfirst
        split at hfirst
        · next header' reader hread =>
          obtain ⟨block', -, heq⟩ := Option.map_eq_some_iff.1 hfirst
          cases heq
          rw [hread]
        · cases hfirst
      rw [hopening, hread]
      exact hturn.writes (v := { s.view with started := true }) hnew _
  cases hbegin with
  | blocks hheader hnone htaken => exact .blocks hheader hnone htaken
  | header header hread hnew hheader htaken => exact .header header hread hnew hheader htaken

/-! ## Operations -/

/-- What an operation reads and writes, with the block that it handles. -/
inductive Intake (s : Session) : List Handled × Session → Prop where
  | nothing (s' : Session) (hf : s.finished = true → s'.finished = true)
      (h : s'.Leaves s.reader) (hheader : s'.view.headerWritten = s.view.headerWritten)
      (htaken : s'.view.taken = s.view.taken) : Intake s ([], s')
  | next (entries : List Handled) (s' : Session) (hf : s.finished = false)
      (hblocks : entries.map (·.block) = s.nextBlock?.toList)
      (hends : entries = [] → s'.finished = true) (h : s'.Leaves s.reader.next.2)
      (hwrites : s.view.Writes s.reader.readHeader.1 entries s'.view) : Intake s (entries, s')

theorem Sound.intake {v₀ : View} (hv₀ : v₀.Initial) {s : Session} {entries : List Handled}
    (h : Sound v₀ s entries) (op : Operation) : s.Intake (s.operate op) := by
  have heffect := effect_operate h.begun op
  generalize s.operate op = after at heffect
  generalize s.outcome op = result at heffect
  cases heffect with
  | idle => exact .nothing s id (leaves_of_eq rfl) rfl rfl
  | cancelled => exact .nothing s.cancel id (leaves_of_eq rfl) rfl rfl
  | stopped hf hc =>
    obtain ⟨hnone, hview, hfinished⟩ := step_of_cancelled hf hc
    rw [hnone]
    have hheader := congrArg View.headerWritten hview
    have htaken := congrArg View.taken hview
    have hleaves : s.step.2.Leaves s.reader := by
      rw [step_eq_stop hf hc]
      exact leaves_finish _
    exact .nothing _ (fun _ => hfinished) hleaves hheader htaken
  | opened hf hop =>
    have hs := hop.1
    have hnew := h.not_headerWritten hv₀ hf hs
    apply Intake.next _ _ hf (blocks_opening hs) _ _ (writes_start hf hs hnew)
    · intro hnone
      rcases start_rootTurn hf hs hnew with ⟨-, -, hfinished⟩ | ⟨header, block, fate, hsome, -, -⟩
      · exact hfinished
      · rw [hnone] at hsome
        cases hsome
    · rw [start_of_not_started hs]
      exact leaves_concluded (leaves_begin _)
  | advanced hf hc hs =>
    have hready := h.ready hv₀ hf hs
    have hleaves : s.step.2.Leaves s.reader.next.2 := by
      rw [step_of_started hf hc hs]
      exact leaves_concluded s.leaves_advance
    have hnot : s.view.headerWritten ≠ false := by simp [hready.headerWritten]
    apply Intake.next _ _ hf (blocks_handled hf hc hs) _ hleaves
    · rcases step_turn hf hc hready with ⟨hnone, hview, -⟩ | ⟨block, fate, hsome, hturn, -⟩
      · rw [hnone, hview]
        exact .blocks rfl (fun _ => rfl) rfl
      · rw [hsome]
        exact .blocks hturn.headerWritten (fun hnew => absurd hnew hnot) hturn.taken
    · intro hnone
      rcases step_turn hf hc hready with ⟨-, -, hfinished⟩ | ⟨block, fate, hsome, -, -⟩
      · exact hfinished
      · rw [hnone] at hsome
        cases hsome

/-- What a session has read from a source and passed on to a sink. -/
structure Relayed (source : Source) (sink : Sink) (options : ReaderOptions) (s : Session)
    (entries : List Handled) : Prop where
  new : s.started = false → s.reader = { source := source, options := options }
  configured : s.reader.options = options
  read : entries.map (·.block) <+: Reader.blocks { source, options }
  unread : s.finished = false →
    Reader.blocks { source, options } = entries.map (·.block) ++ s.reader.blocks
  unwritten : s.view.headerWritten = false → framesOf entries = [] ∧ s.view.taken = sink.taken
  written : s.view.headerWritten = true → ∃ header, s.reader.header = some header ∧
    (Reader.readHeader { source, options }).1 = .ok header ∧
      s.view.taken = (framesOf entries).reverse ++ header.frame :: sink.taken

theorem relayed_new (source : Source) (sink : Sink) (request : ByteRange) (options : ReaderOptions)
    (retains : Bool) :
    Relayed source sink options (new source sink request options retains) [] where
  new _ := rfl
  configured := rfl
  read := List.nil_prefix
  unread _ := rfl
  unwritten _ := ⟨rfl, rfl⟩
  written hwritten := by cases hwritten

theorem Leaves.options {s : Session} {reader : Reader} (h : s.Leaves reader) :
    s.reader.options = reader.options := by
  rcases h.stands with hreader | hreader <;> rw [hreader]

theorem Leaves.header {s : Session} {reader : Reader} (h : s.Leaves reader) :
    s.reader.header = reader.header := by
  rcases h.stands with hreader | hreader <;> rw [hreader]

theorem Leaves.unverified {s : Session} {reader : Reader} (h : s.Leaves reader) :
    s.reader.unverified = reader.unverified := by
  rcases h.stands with hreader | hreader <;> rw [hreader]

theorem next_of_nextBlock? {s : Session} {block : Block} (h : s.nextBlock? = some block) :
    s.reader.next = (.ok (some block), s.reader.next.2) := by
  unfold nextBlock? at h
  split at h
  · next read hread => rw [← h, ← hread]
  · cases h

/-- The block that comes next is the first of those that are left. -/
theorem blocks_of_nextBlock? {s : Session} {block : Block} (h : s.nextBlock? = some block) :
    s.reader.blocks = block :: s.reader.next.2.blocks :=
  Reader.blocks_of_next (next_of_nextBlock? h)

section

variable {source : Source} {sink : Sink} {options : ReaderOptions} {s s' : Session}
  {entries handled : List Handled}

/-- Nothing was read and nothing was written. -/
theorem Relayed.nothing (h : Relayed source sink options s entries)
    (hnew : s'.started = false → s'.reader = { source := source, options := options })
    (hf : s.finished = true → s'.finished = true) (hleaves : s'.Leaves s.reader)
    (hheader : s'.view.headerWritten = s.view.headerWritten)
    (htaken : s'.view.taken = s.view.taken) : Relayed source sink options s' entries where
  new := hnew
  configured := hleaves.options.trans h.configured
  read := h.read
  unread hf' := by
    have hgoes : s.finished = false := by
      by_contra hnot
      rw [hf (by simpa using hnot)] at hf'
      cases hf'
    rw [hleaves.goesOn hf']
    exact h.unread hgoes
  unwritten hnot := by
    rw [hheader] at hnot
    rw [htaken]
    exact h.unwritten hnot
  written hwritten := by
    rw [hheader] at hwritten
    rw [htaken, hleaves.header]
    exact h.written hwritten

/-- The next block was read, or the end of what can be read. -/
theorem Relayed.blocks (h : Relayed source sink options s entries) (hf : s.finished = false)
    (hblocks : handled.map (·.block) = s.nextBlock?.toList)
    (hends : handled = [] → s'.finished = true) (hleaves : s'.Leaves s.reader.next.2) :
    (entries ++ handled).map (·.block) <+: Reader.blocks { source, options } ∧
      (s'.finished = false → Reader.blocks { source, options } =
        (entries ++ handled).map (·.block) ++ s'.reader.blocks) := by
  rw [List.map_append, hblocks, h.unread hf, List.prefix_append_right_inj]
  cases hnext : s.nextBlock? with
  | none =>
    rw [hnext] at hblocks
    constructor
    · exact List.nil_prefix
    · intro hf'
      rw [hends (List.map_eq_nil_iff.1 hblocks)] at hf'
      cases hf'
  | some block =>
    rw [blocks_of_nextBlock? hnext]
    constructor
    · exact List.prefix_append [block] s.reader.next.2.blocks
    · intro hf'
      rw [hleaves.goesOn hf', List.append_assoc]
      rfl

end

theorem Relayed.operate {v₀ : View} (hv₀ : v₀.Initial) {source : Source} {sink : Sink}
    {options : ReaderOptions} {s : Session} {entries : List Handled} (hs : Sound v₀ s entries)
    (h : Relayed source sink options s entries) (op : Operation) :
    Relayed source sink options (s.operate op).2 (entries ++ (s.operate op).1) := by
  have hnew : (s.operate op).2.started = false →
      (s.operate op).2.reader = { source := source, options := options } := by
    intro hstarted
    rcases hs.started_or_eq hv₀ op with hbegun | ⟨c, hkept⟩
    · rw [hstarted] at hbegun
      cases hbegun
    · rw [hkept] at hstarted ⊢
      exact h.new hstarted
  have hintake := hs.intake hv₀ op
  generalize s.operate op = after at hintake hnew ⊢
  cases hintake with
  | nothing s' hf hleaves hheader htaken =>
    rw [List.append_nil]
    exact h.nothing hnew hf hleaves hheader htaken
  | next handled s' hf hblocks hends hleaves hwrites =>
    obtain ⟨hread, hunread⟩ := h.blocks hf hblocks hends hleaves
    have hconfigured : s'.reader.options = options := by
      rw [hleaves.options, Reader.options_next, h.configured]
    cases hwrites with
    | blocks hheader hnone htaken =>
      refine ⟨hnew, hconfigured, hread, hunread, ?_, ?_⟩
      · intro hnot
        rw [hheader] at hnot
        obtain ⟨hframes, hsink⟩ := h.unwritten hnot
        rw [framesOf_append, htaken, hframes, hnone hnot, hsink]
        exact ⟨rfl, rfl⟩
      · intro hwritten
        rw [hheader] at hwritten
        obtain ⟨header, hknown, hfirst, hsink⟩ := h.written hwritten
        refine ⟨header, hleaves.header.trans (Reader.header_next hknown), hfirst, ?_⟩
        rw [htaken, hsink, framesOf_append, List.reverse_append, List.append_assoc]
    | header header hfirst hnot hheader htaken =>
      -- Only a session that has not begun has yet to write the header.
      have hstarted : s.started = false := by
        by_contra hbegun
        have hready := hs.ready hv₀ hf (by simpa using hbegun)
        rw [hready.headerWritten] at hnot
        cases hnot
      obtain ⟨hframes, hsink⟩ := h.unwritten hnot
      have hresult : s.reader.readHeader = (.ok header, s.reader.readHeader.2) :=
        Prod.ext hfirst rfl
      have hknown : s.reader.next.2.header = some header := by
        rw [Reader.next_of_readHeader hresult]
        exact Reader.header_next (Reader.header_of_readHeader hresult)
      refine ⟨hnew, hconfigured, hread, hunread, ?_, ?_⟩
      · intro hnot'
        rw [hheader] at hnot'
        cases hnot'
      · intro _
        refine ⟨header, hleaves.header.trans hknown, ?_, ?_⟩
        · rw [← h.new hstarted]
          exact hfirst
        · rw [htaken, hsink, framesOf_append, hframes, List.nil_append]

/-- Behind every row of demands, whether or not one of them fails: what was handled are the first
blocks of the archive, and the sink has its header and those of them that were written. -/
theorem relayed_serveAll (source : Source) (sink : Sink) (request : ByteRange)
    (options : ReaderOptions) (retains : Bool) (demands : List Demand) :
    let s := new source sink request options retains
    Relayed source sink options (s.serveAll demands).2 (s.accountAll demands) := by
  intro s
  have hv₀ := initial_new source sink request options retains
  apply serveAll_of_perform (P := Relayed source sink options)
  exact (sound_new source sink request options retains).keeps hv₀
    (fun hs h op => h.operate hv₀ hs op) (relayed_new source sink request options retains)

end Session

end CarSlice
