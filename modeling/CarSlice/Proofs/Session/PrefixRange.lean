import CarSlice.Proofs.Session.Counts
import CarSlice.Proofs.Session.Nesting
import CarSlice.Proofs.Session.Opening
import CarSlice.Proofs.Session.Passthrough

/-!
# Ranges from the beginning of the file

A range that begins where the file begins has nothing before it, so no block is dropped for it,
whatever the archive holds.  What a session writes for such a range is the archive as far as the
session has read it (`prefix_range_copies_archive`).

* `Placed.not_dropped` is the reason, and `Sound.not_dropped` says so of every row of operations.
* `Copies` is a session that has written the header and every block that it has read.  A session
  whose sink takes everything has written nothing yet, or it copies (`Copying.operate`).
* `Untouched` says that nothing was read where nothing was written, as long as nothing fails.
-/

namespace CarSlice

open Archive (Block Header IsEndMarker Reader ReaderOptions)

namespace Session

/-! ## Nothing is dropped -/

/-- No block lies before the beginning of the file. -/
theorem Placed.not_dropped {v v' : View} {entries : List Handled} (h : Placed v entries)
    (hstart : v.request.start = 0) {block : Block} {p : Option Placement} {fate : Fate}
    (hturn : v.Turn block p fate v') : fate ≠ .dropped := by
  cases hturn with
  | passed _ _ _ hemits => exact hemits.not_dropped
  | kept _ _ _ _ _ _ _ hemits => exact hemits.not_dropped
  | dropped selection hselection hopen hunderway hdropped =>
    exfalso
    have hphase : selection.phase ≠ .passthrough := by
      intro hp
      simp [hp, Phase.isOpen] at hopen
    obtain ⟨stop, -, -, htracks, -⟩ := h.selected selection hselection hphase
    rw [hstart] at htracks
    rcases Selection.decide_place h.layout (by simp [hunderway]) htracks hopen (.ofBlock block) with
      ⟨-, -, hemit, -⟩ | ⟨-, -, hfollows⟩
    · rw [hdropped] at hemit
      cases hemit
    · have hwanted : (v.layout.span (.ofBlock block)).isWanted 0 = true := by
        simp [Interval.isWanted]
      have hdecision := hfollows.decision
      rw [hdropped, if_pos hwanted] at hdecision
      cases hdecision

section

variable {v₀ : View} (hv₀ : v₀.Initial) (hstart : v₀.request.start = 0) {s : Session}
  {entries : List Handled}

include hv₀ hstart

theorem Sound.not_dropped_operate (h : Sound v₀ s entries) (op : Operation) :
    ∀ e ∈ (s.operate op).1, e.fate ≠ .dropped := by
  have hmoves := h.moves hv₀ op
  have hrequest : s.view.request.start = 0 := by
    rw [h.request, hstart]
  generalize (s.operate op).1 = handled at hmoves ⊢
  generalize (s.operate op).2.view = v' at hmoves
  intro e he
  cases hmoves with
  | flags => cases he
  | ended => cases he
  | root header block fate _ _ _ _ hturn =>
    obtain rfl := List.mem_singleton.1 he
    exact hturn.not_dropped
  | turn block p fate _ _ hturn =>
    obtain rfl := List.mem_singleton.1 he
    exact h.placed.not_dropped hrequest hturn

/-- No row of operations drops a block of a range from the beginning of the file. -/
theorem Sound.not_dropped (h : Sound v₀ s entries) (hentries : ∀ e ∈ entries, e.fate ≠ .dropped)
    (ops : List Operation) : ∀ e ∈ entries ++ (s.perform ops).1, e.fate ≠ .dropped := by
  apply h.keeps hv₀ (P := fun _ entries => ∀ e ∈ entries, e.fate ≠ .dropped) _ hentries
  intro s entries h hentries op e he
  rcases List.mem_append.1 he with he | he
  · exact hentries e he
  · exact h.not_dropped_operate hv₀ hstart op e he

end

/-! ## Selections stay -/

theorem View.Emits.selected {w v' : View} {block : Block} {fate : Fate}
    (h : w.Emits block fate v') (hselected : w.selection ≠ none) : v'.selection ≠ none := by
  cases h with
  | refused => exact hselected
  | written =>
    rw [View.selection_noted]
    simpa [View.writeBlock] using hselected

theorem View.Turn.selected {v v' : View} {block : Block} {p : Option Placement} {fate : Fate}
    (h : v.Turn block p fate v') (hselected : v.selection ≠ none) : v'.selection ≠ none := by
  cases h with
  | passed _ _ _ hemits => exact hemits.selected hselected
  | kept selection _ _ _ _ _ _ hemits => exact hemits.selected (by simp [View.decided])
  | dropped =>
    rw [View.selection_noted]
    simp [View.dropBlock, View.decided]

/-- A root on which the session does not fail leaves a selection. -/
theorem View.RootTurn.selected {v v' : View} {header : Header} {block : Block} {fate : Fate}
    (h : v.RootTurn header block fate v') (hfate : fate ≠ .failed) : v'.selection ≠ none := by
  obtain ⟨w, hw, rfl, rfl⟩ := h.of_not_failed hfate
  rw [View.selection_noted]
  cases hw <;> simp [View.writeBlock, View.writeHeader]

/-- A session that has begun without failure knows what to do with the archive. -/
theorem Begins.selected {s s' : Session} {entries : List Handled} (h : s.Begins entries s') :
    s'.view.selection ≠ none := by
  cases h with
  | root header block fate reader reader' _ hread hnext hturn hfate => exact hturn.selected hfate
  | empty header selection reader reader' _ hread hnext hphase hview =>
    rw [hview]
    simp [View.writeHeader]

theorem Advances.selected {s s' : Session} {entries : List Handled} (h : s.Advances entries s')
    (hselected : s.view.selection ≠ none) : s'.view.selection ≠ none := by
  cases h with
  | block block fate reader _ hnext hturn => exact hturn.selected hselected
  | exhausted reader _ hnext hview => rwa [hview]

theorem View.Ready.selected {v : View} (h : v.Ready) : v.selection ≠ none := by
  rcases h.selection with ⟨selection, hselection, -⟩
  simp [hselection]

/-! ## What was read was written -/

/-- A session that has written the header of an archive and every block of it that it has read. -/
structure Copies (archive : Reader) (sink : Sink) (s : Session) (entries : List Handled)
    (header : Header) : Prop where
  reads : archive.readHeader.1 = .ok header
  selected : s.view.selection ≠ none
  taken : s.view.taken = (framesOf entries).reverse ++ header.frame :: sink.taken
  blocks : entries.map (·.block) <+: archive.blocks
  goesOn : s.finished = false → archive.blocks = entries.map (·.block) ++ s.reader.blocks

/-- A session that has written nothing, or that copies.  If it has written nothing it has not begun,
or it is finished. -/
def Copying (archive : Reader) (sink : Sink) (s : Session) (entries : List Handled) : Prop :=
  s.view.taken = sink.taken ∧ (s.finished = false → s.started = false ∧ s.reader = archive) ∨
    ∃ header, Copies archive sink s entries header

theorem copying_new (source : Source) (sink : Sink) (request : ByteRange) (options : ReaderOptions)
    (retains : Bool) :
    Copying { source, options } sink (new source sink request options retains) [] :=
  Or.inl ⟨rfl, fun _ => ⟨rfl, rfl⟩⟩

section

variable {archive : Reader} {sink : Sink} {s s' : Session} {entries : List Handled}

/-- A session that has ended keeps what it has written. -/
theorem Copies.finish {header : Header} (h : Copies archive sink s entries header)
    (hselection : s'.view.selection = s.view.selection) (htaken : s'.view.taken = s.view.taken)
    (hfinished : s'.finished = true) : Copies archive sink s' entries header where
  reads := h.reads
  selected := hselection ▸ h.selected
  taken := htaken.trans h.taken
  blocks := h.blocks
  goesOn hf := by
    rw [hfinished] at hf
    cases hf

theorem Copies.advances {header : Header} (h : Copies archive sink s entries header)
    (hf : s.finished = false) {entries' : List Handled} (hadvances : s.Advances entries' s') :
    Copies archive sink s' (entries ++ entries') header := by
  have hselected := hadvances.selected h.selected
  have hblocks := h.goesOn hf
  cases hadvances with
  | block block fate reader _ hnext hturn hfate hsettled =>
    rw [Reader.blocks_of_next hnext] at hblocks
    refine ⟨h.reads, hselected, ?_, ?_, fun hf' => ?_⟩
    · rw [hturn.taken, h.taken, framesOf_append, List.reverse_append, List.append_assoc]
    · rw [hblocks, List.map_append]
      exact (List.prefix_append_right_inj _).2 (List.prefix_append [block] reader.blocks)
    · rw [hblocks, List.map_append, hsettled.reader_eq hf', List.append_assoc]
      rfl
  | exhausted reader _ hnext hview hexhausted =>
    rw [List.append_nil]
    exact h.finish (congrArg View.selection hview) (congrArg View.taken hview) hexhausted.finished

/-- Header and root are copied, or the header of an archive without blocks. -/
theorem copies_of_begins (htaken : s.view.taken = sink.taken) (hreader : s.reader = archive)
    {entries' : List Handled} (hbegins : s.Begins entries' s') :
    ∃ header, Copies archive sink s' entries' header := by
  have hselected := hbegins.selected
  subst hreader
  cases hbegins with
  | root header block fate reader reader' _ hread hnext hturn hfate hsettled =>
    have hblocks : s.reader.blocks = block :: reader'.blocks :=
      Reader.blocks_of_next ((Reader.next_of_readHeader hread).trans hnext)
    obtain ⟨rfl, htaken'⟩ := hturn.taken hfate
    refine ⟨header, by rw [hread], hselected, ?_, ?_, fun hf' => ?_⟩
    · rw [htaken']
      simp [framesOf, htaken]
    · rw [hblocks]
      exact List.prefix_append [block] reader'.blocks
    · rw [hblocks, hsettled.reader_eq hf']
      rfl
  | empty header selection reader reader' _ hread hnext hphase hview hexhausted =>
    refine ⟨header, by rw [hread], hselected, ?_, List.nil_prefix,
      fun hf' => ?_⟩
    · rw [hview]
      simp [View.writeHeader, framesOf, htaken]
    · rw [hexhausted.finished] at hf'
      cases hf'

/-- A session that copies handles no block on which it fails, if its sink takes everything: a
block that was handled was written. -/
theorem Copies.handled_nil {header : Header} (h : Copies archive sink s entries header)
    {v' : View} {handled : List Handled} (hmoves : s.view.Moves handled v')
    (haccepts : s.view.accepts = true) (htaken : v'.taken = s.view.taken)
    (hkept : ∀ e ∈ handled, e.fate ≠ .dropped) :
    handled = [] ∧ v'.selection = s.view.selection := by
  cases hmoves with
  | flags => exact ⟨rfl, rfl⟩
  | ended _ _ hselection => exact absurd hselection h.selected
  | root _ _ _ _ _ _ hselection => exact absurd hselection h.selected
  | turn block p fate _ _ hturn =>
    exfalso
    have hfailed := (hturn.accepts haccepts).1
    have hwritten : fate = .written := by
      have hdropped := hkept ⟨block, p, fate⟩ (by simp)
      cases fate with
      | written => rfl
      | dropped => exact absurd rfl hdropped
      | failed => exact absurd rfl hfailed
    have hlength := congrArg List.length hturn.taken
    rw [htaken, hwritten] at hlength
    simp [framesOf] at hlength

end

theorem Copying.operate {v₀ : View} (hv₀ : v₀.Initial) (hstart : v₀.request.start = 0)
    (haccepts₀ : v₀.accepts = true) {archive : Reader} {sink : Sink} {s : Session}
    {entries : List Handled} (hs : Steady v₀ s entries) (h : Copying archive sink s entries)
    (op : Operation) :
    Copying archive sink (s.operate op).2 (entries ++ (s.operate op).1) := by
  have haccepts := hs.counted.accepts haccepts₀
  cases houtcome : s.outcome op with
  | error e =>
    have hfinished := hs.finished_of_error houtcome
    -- Where an operation fails it has read something, or the range lies outside the file.
    have hsink : (s.operate op).2.view.taken = s.view.taken := by
      cases hs.fails hv₀ houtcome with
      | unread _ _ _ hsink => exact congrArg Sink.taken hsink
      | outside _ _ _ _ _ _ _ _ _ _ hsink => exact congrArg Sink.taken hsink
      | refused _ _ hrefuses =>
        have hnot := hrefuses.accepts
        rw [haccepts] at hnot
        cases hnot
    rcases h with ⟨htaken, -⟩ | ⟨header, h⟩
    · refine Or.inl ⟨hsink.trans htaken, fun hf' => ?_⟩
      rw [hfinished] at hf'
      cases hf'
    · obtain ⟨hnone, hselection⟩ := h.handled_nil (hs.moves hv₀ op) haccepts hsink
        (hs.not_dropped_operate hv₀ hstart op)
      rw [hnone, List.append_nil]
      exact Or.inr ⟨header, h.finish hselection hsink hfinished⟩
  | ok _ =>
    have hsuccess := hs.success hv₀ houtcome
    generalize s.operate op = after at hsuccess
    cases hsuccess with
    | idle =>
      rw [List.append_nil]
      exact h
    | cancelled =>
      rw [List.append_nil]
      rcases h with hnew | ⟨header, h⟩
      · exact Or.inl hnew
      · exact Or.inr ⟨header, h.reads, h.selected, h.taken, h.blocks, h.goesOn⟩
    | stopped s' hf hc hstopped =>
      rw [List.append_nil]
      have htaken : s'.view.taken = s.view.taken := by
        rw [hstopped.view]
      have hselection : s'.view.selection = s.view.selection := by
        rw [hstopped.view]
      rcases h with ⟨hnew, -⟩ | ⟨header, h⟩
      · refine Or.inl ⟨htaken.trans hnew, fun hf' => ?_⟩
        rw [hstopped.finished] at hf'
        cases hf'
      · exact Or.inr ⟨header, h.finish hselection htaken hstopped.finished⟩
    | begins entries' s' hf hstarted hbegins =>
      rcases h with ⟨htaken, hnew⟩ | ⟨header, h⟩
      · obtain rfl : entries = [] := (hs.view_of_not_started hf hstarted).1
        exact Or.inr (copies_of_begins htaken (hnew hf).2 hbegins)
      · have hnone := (hs.view_of_not_started hf hstarted).2
        exact absurd ((congrArg View.selection hnone).trans hv₀.selection) h.selected
    | advances entries' s' hf hready hadvances =>
      rcases h with ⟨-, hnew⟩ | ⟨header, h⟩
      · have hstarted : s.started = true := hready.started
        rw [(hnew hf).1] at hstarted
        cases hstarted
      · exact Or.inr ⟨header, h.advances hf hadvances⟩

theorem Copying.perform {v₀ : View} (hv₀ : v₀.Initial) (hstart : v₀.request.start = 0)
    (haccepts : v₀.accepts = true) {archive : Reader} {sink : Sink} {s : Session}
    {entries : List Handled} (hs : Steady v₀ s entries) (h : Copying archive sink s entries)
    (ops : List Operation) :
    Copying archive sink (s.perform ops).2 (entries ++ (s.perform ops).1) := by
  have hboth := keeps_perform
    (P := fun s entries => Steady v₀ s entries ∧ Copying archive sink s entries)
    (fun h op => ⟨h.1.operate hv₀ op, h.2.operate hv₀ hstart haccepts h.1 op⟩) ⟨hs, h⟩ ops
  exact hboth.2

/-! ## Nothing is read in vain -/

/-- Where nothing was written, nothing was read. -/
def Untouched (source : Source) (sink : Sink) (s : Session) : Prop :=
  s.view.selection = none → s.view.taken = sink.taken ∧ s.source.unread = source.unread

theorem Untouched.operate {v₀ : View} (hv₀ : v₀.Initial) {source : Source} {sink : Sink}
    {s : Session} {entries : List Handled} (hs : Steady v₀ s entries)
    (h : Untouched source sink s) {op : Operation} (hok : s.outcome op = .ok ()) :
    Untouched source sink (s.operate op).2 := by
  have hsuccess := hs.success hv₀ hok
  generalize s.operate op = after at hsuccess
  intro hnone
  cases hsuccess with
  | idle => exact h hnone
  | cancelled => exact h hnone
  | stopped s' hf hc hstopped =>
    have hview : s'.view = { s.view with started := true } := hstopped.view
    have hselection : s.view.selection = none := by
      have hnone : s'.view.selection = none := hnone
      rwa [hview] at hnone
    have hsource : s'.source = s.source.close := congrArg Reader.source hstopped.reader
    show s'.view.taken = sink.taken ∧ s'.source.unread = source.unread
    rw [hview, hsource]
    exact h hselection
  | begins entries' s' hf hstarted hbegins => exact absurd hnone hbegins.selected
  | advances entries' s' hf hready hadvances =>
    exact absurd hnone (hadvances.selected hready.selected)

theorem Untouched.perform {v₀ : View} (hv₀ : v₀.Initial) {source : Source} {sink : Sink}
    {s : Session} {entries : List Handled} (hs : Steady v₀ s entries)
    (h : Untouched source sink s) {ops : List Operation} (hok : s.Succeeds ops) :
    Untouched source sink (s.perform ops).2 :=
  hs.keeps hv₀ (P := fun s _ => Untouched source sink s)
    (fun hs h _ hok => h.operate hv₀ hs hok) h hok

/-- A run without an error is a row of steps of which none fails. -/
theorem succeeds_of_run {s : Session} (h : s.run.1 = .ok ()) :
    ∃ n, s.Succeeds (List.replicate n (.call .step)) ∧
      s.perform (List.replicate n (.call .step)) = (s.journal, s.run.2) := by
  have hrow {s s' : Session} {more : Bool} (hstep : s.step = (.ok more, s')) :
      s.outcome (.call .step) = .ok () ∧ s.operate (.call .step) = (s.handled, s') := by
    simp [outcome, operate, call, hstep, Except.map]
  fun_induction run s with
  | case1 s e s' hstep => cases h
  | case2 s s' hstep =>
    refine ⟨1, ⟨(hrow hstep).1, trivial⟩, ?_⟩
    rw [@journal_of_step s false (by rw [hstep])]
    simp [List.replicate, perform, (hrow hstep).2]
  | case3 s s' hstep ih =>
    obtain ⟨n, hok, hperform⟩ := ih h
    refine ⟨n + 1, ⟨(hrow hstep).1, ?_⟩, ?_⟩
    · rw [(hrow hstep).2]
      exact hok
    · rw [@journal_of_step s true (by rw [hstep]), List.replicate_succ, perform, (hrow hstep).2,
        hperform, hstep]
      rfl

/-! ## The output -/

theorem length_framesOf (entries : List Handled) :
    (framesOf entries).length = entries.countP (·.fate == .written) := by
  rw [framesOf, List.length_map, List.countP_eq_length_filter]

/-- Where nothing was dropped, nothing counts as dropped. -/
theorem Counted.blocksDiscarded_eq {v₀ v : View} {entries : List Handled}
    (h : Counted v₀ v entries) (hdropped : ∀ e ∈ entries, e.fate ≠ .dropped) :
    v.blocksDiscarded = v₀.blocksDiscarded := by
  have hnone : entries.countP (·.fate == .dropped) = 0 := by
    rw [List.countP_eq_zero]
    intro e he
    simpa using hdropped e he
  rw [h.discarded, hnone, Nat.add_zero]

/-- Where every block was written, every block counts as written. -/
theorem Counted.blocksOut_eq {v₀ v : View} {entries : List Handled} (h : Counted v₀ v entries)
    (hdropped : ∀ e ∈ entries, e.fate ≠ .dropped) (hfailed : ∀ e ∈ entries, e.fate ≠ .failed) :
    v.blocksOut = v₀.blocksOut + entries.length := by
  rw [h.out, ← length_framesOf, framesOf_eq hdropped hfailed, List.length_map]

/-- A session that copies has not failed on a block, if its sink takes everything. -/
theorem Copies.not_failed {archive : Reader} {sink : Sink} {v₀ : View} {s : Session}
    {entries : List Handled} {header : Header} (h : Copies archive sink s entries header)
    (hs : Sound v₀ s entries) (haccepts : v₀.accepts = true) :
    ∀ e ∈ entries, e.fate ≠ .failed := by
  intro e he hfate
  have hrefuses := hs.counted.refused h.selected e he hfate
  rw [haccepts] at hrefuses
  cases hrefuses

/-- What a sink holds that has taken a header and every block behind it. -/
theorem output_of_taken {s : Session} {entries : List Handled} {header : Header}
    (htaken : s.view.taken = (framesOf entries).reverse ++ header.frame :: Sink.unlimited.taken)
    (hdropped : ∀ e ∈ entries, e.fate ≠ .dropped) (hfailed : ∀ e ∈ entries, e.fate ≠ .failed) :
    s.sink.output = header.frame ++ entries.flatMap (·.block.frame) := by
  have htaken : s.sink.taken = (framesOf entries).reverse ++ [header.frame] := htaken
  rw [framesOf_eq hdropped hfailed] at htaken
  rw [Sink.output, Sink.writes, htaken]
  simp [List.flatMap]

section

variable {archive : Reader} {s : Session} {entries : List Handled} {header : Header}
  (h : Copies archive .unlimited s entries header) (hdropped : ∀ e ∈ entries, e.fate ≠ .dropped)
  (hfailed : ∀ e ∈ entries, e.fate ≠ .failed)

include h hdropped hfailed

/-- The output is the front of the archive. -/
theorem Copies.output_of_unread (hnew : archive.header = none) :
    s.sink.output <+: archive.source.unread := by
  obtain ⟨rest, hrest⟩ := Reader.exists_unread_eq_of_readHeader hnew (Prod.ext h.reads rfl)
  obtain ⟨more, hmore⟩ := h.blocks
  refine ⟨more.flatMap Block.frame ++ rest, ?_⟩
  rw [output_of_taken h.taken hdropped hfailed, hrest, ← hmore, List.flatMap_append,
    List.flatMap_map]
  simp only [List.append_assoc]

/-- The output is the header and the first blocks of the archive, as many as were handled. -/
theorem Copies.output_of_blocks :
    entries.length ≤ archive.blocks.length ∧ s.sink.output =
      header.frame ++ (archive.blocks.take entries.length).flatMap Block.frame := by
  have hlength := h.blocks.length_le
  have htake := List.prefix_iff_eq_take.1 h.blocks
  rw [List.length_map] at hlength htake
  refine ⟨hlength, ?_⟩
  rw [output_of_taken h.taken hdropped hfailed, ← htake, List.flatMap_map]

end

/-- A session that has written a block copies the archive. -/
theorem Copying.of_blocksOut {archive : Reader} {v₀ : View} {s : Session} {entries : List Handled}
    {sink : Sink} (h : Copying archive sink s entries) (hs : Sound v₀ s entries)
    (hv₀ : v₀.taken = sink.taken) (hout : 0 < entries.countP (·.fate == .written)) :
    ∃ header, Copies archive sink s entries header := by
  refine h.resolve_left fun ⟨htaken, _⟩ => ?_
  obtain ⟨front, -, hwrites⟩ := hs.counted.taken
  have hlength := congrArg List.length hwrites
  rw [htaken, hv₀, List.length_append, List.length_append, length_framesOf] at hlength
  omega

/-- The range begins with the file.  Then no block is dropped in any row of operations, and the
output is always a front part of the archive.  Once the root was written, it is the header
and every block that was read.  Behind operations of which none failed, and so behind a run
without an error, it is all that was read, less the marker at the end. -/
theorem prefix_range_copies_archive (source : Source) (options : ReaderOptions) (retains : Bool)
    (ops : List Operation) {request : ByteRange} (hstart : request.start = 0) :
    let archive : Reader := { source, options }
    let s₀ := new source .unlimited request options retains
    let s := (s₀.perform ops).2
    s.stats.blocksDiscarded = 0 ∧ s.sink.output <+: source.unread ∧
      (0 < s.stats.blocksOut → ∃ header, archive.readHeader.1 = .ok header ∧
        s.stats.blocksOut = s.stats.blocksIn ∧ s.stats.blocksIn ≤ archive.blocks.length ∧
        s.sink.output =
          header.frame ++ (archive.blocks.take s.stats.blocksIn).flatMap Block.frame) ∧
      (s₀.Succeeds ops → ∃ marker, IsEndMarker options marker ∧
        source.unread = s.sink.output ++ marker ++ s.source.unread) ∧
      (s₀.run.1 = .ok () → ∃ marker, IsEndMarker options marker ∧
        source.unread = s₀.run.2.sink.output ++ marker ++ s₀.run.2.source.unread) := by
  intro archive s₀ s
  have hinitial := initial_new source .unlimited request options retains
  have hnew := steady_new source .unlimited request options retains
  have hkept (ops : List Operation) : ∀ e ∈ (s₀.perform ops).1, e.fate ≠ .dropped :=
    hnew.toSound.not_dropped hinitial hstart (by simp) ops
  have hread {ops : List Operation} (hok : s₀.Succeeds ops) : ∃ marker,
      IsEndMarker options marker ∧ source.unread =
        (s₀.perform ops).2.sink.output ++ marker ++ (s₀.perform ops).2.source.unread := by
    have htranscript :=
      (transcript_new source .unlimited request options retains).perform hinitial hnew hok
    rcases htranscript with ⟨hselection, -⟩ | ⟨header, marker, h⟩
    · have huntouched : Untouched source .unlimited (s₀.perform ops).2 :=
        Untouched.perform hinitial hnew (fun _ => ⟨rfl, rfl⟩) hok
      obtain ⟨htaken, hunread⟩ := huntouched hselection
      have houtput : (s₀.perform ops).2.sink.output = [] := by
        rw [Sink.output, Sink.writes, show (s₀.perform ops).2.sink.taken = [] from htaken]
        rfl
      exact ⟨[], Or.inl rfl, by rw [houtput, hunread]; rfl⟩
    · refine ⟨marker, h.ends, ?_⟩
      rw [h.read, output_of_taken h.written (hkept ops) h.succeeded]
  have hs : Steady s₀.view s (s₀.perform ops).1 := hnew.perform hinitial ops
  have hcopying : Copying archive .unlimited s (s₀.perform ops).1 :=
    (copying_new source .unlimited request options retains).perform hinitial hstart rfl hnew ops
  have hin : s.stats.blocksIn = (s₀.perform ops).1.length :=
    (blocksIn_perform s₀ ops).trans (Nat.zero_add _)
  have hout : s.stats.blocksOut = (s₀.perform ops).1.countP (·.fate == .written) :=
    hs.counted.out.trans (Nat.zero_add _)
  refine ⟨hs.counted.blocksDiscarded_eq (hkept ops), ?_, fun hpos => ?_, hread, fun hok => ?_⟩
  · rcases hcopying with ⟨htaken, -⟩ | ⟨header, h⟩
    · have hnothing : s.sink.taken = [] := htaken
      rw [Sink.output, Sink.writes, hnothing]
      exact List.nil_prefix
    · exact h.output_of_unread (hkept ops) (h.not_failed hs.toSound rfl) rfl
  · rw [hout] at hpos
    obtain ⟨header, h⟩ := hcopying.of_blocksOut hs.toSound rfl hpos
    have hfailed := h.not_failed hs.toSound rfl
    have hall : s.stats.blocksOut = (s₀.perform ops).1.length :=
      (hs.counted.blocksOut_eq (hkept ops) hfailed).trans (Nat.zero_add _)
    rw [hin]
    exact ⟨header, h.reads, hall, h.output_of_blocks (hkept ops) hfailed⟩
  · obtain ⟨n, hsucceeds, hperform⟩ := succeeds_of_run hok
    have hrun := hread hsucceeds
    rwa [hperform] at hrun

/-- A root with two leaves of two and three bytes, of which the first one is asked for.  It is read
and copied, and the rest of the archive is not read. -/
theorem prefix_range_copies_first_leaf :
    let body := Header.encodeBody [[0x01, 0x70, 0x00, 0x00]] 1
    let header : Bytes := UInt8.ofNat body.length :: body
    let root : Bytes := [0x14, 0x01, 0x70, 0x00, 0x00, 0x12, 0x02, 0x0a, 0x00, 0x12, 0x02, 0x0a,
      0x00, 0x0a, 0x06, 0x08, 0x02, 0x20, 0x02, 0x20, 0x03]
    let first : Bytes := [0x06, 0x01, 0x55, 0x00, 0x00, 0x61, 0x62]
    let second : Bytes := [0x07, 0x01, 0x55, 0x00, 0x00, 0x63, 0x64, 0x65]
    let source := Source.ofMemory (header ++ root ++ first ++ second) 0
    let request : ByteRange :=
      { start := 0, stop := some 1, ordered := fun _ _ => Nat.zero_le _ }
    let s := ((new source .unlimited request {} false).perform [.call .step, .call .step]).2
    request.start = 0 ∧ s.stats.blocksOut = 2 ∧ s.stats.blocksIn = 2 ∧ s.finished = true ∧
      ∃ marker, IsEndMarker {} marker ∧
        header ++ root ++ first ++ second = s.sink.output ++ marker ++ second := by
  intro body header root first second source request s
  have hout : s.stats.blocksOut = 2 := by decide +kernel
  have hok : (new source .unlimited request {} false).Succeeds [.call .step, .call .step] :=
    ⟨by decide +kernel, by decide +kernel, trivial⟩
  have hrest : s.source.unread = second := by decide +kernel
  obtain ⟨-, -, hcopied, hread, -⟩ :=
    @prefix_range_copies_archive source {} false [.call .step, .call .step] request rfl
  obtain ⟨-, -, hall, -⟩ := hcopied (show 0 < s.stats.blocksOut by rw [hout]; exact Nat.zero_lt_two)
  obtain ⟨marker, hmarker, hunread⟩ := hread hok
  refine ⟨rfl, hout, ?_, by decide +kernel, marker, hmarker, ?_⟩
  · rw [← hall, hout]
  · have hunread : source.unread = s.sink.output ++ marker ++ s.source.unread := hunread
    rw [hrest] at hunread
    exact hunread

end Session

end CarSlice
