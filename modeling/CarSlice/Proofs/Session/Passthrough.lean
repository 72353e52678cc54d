import CarSlice.Proofs.Archive.Consumption
import CarSlice.Proofs.Session.Success

/-!
# Passing everything through

A session that passes everything through has no way back: it writes every block that comes,
and nothing but the end of the archive, a cancellation or a failure ends it.  If the
mismatch did not come late, nothing was dropped before either, and what was written is what
was read (`passthrough_writes_everything`).

* `View.Moves.passthrough` and `View.Moves.not_dropped` say what an operation makes of a
  session that passes everything through.
* `View.Whole` says that a session has dropped nothing yet (`View.Moves.whole`).
* `Transcribed` relates what was read to what was written, as long as nothing fails
  (`Transcript.operate`).
-/

namespace CarSlice

open Archive (Block Header IsEndMarker Reader ReaderOptions)

namespace Session

/-! ## No way back -/

theorem View.Emits.selection {w v' : View} {block : Block} {fate : Fate}
    (h : w.Emits block fate v') (hnot : v'.phase ≠ .satisfied) : v'.selection = w.selection := by
  cases h with
  | written => exact View.selection_noteComplete (v := w.writeBlock block) hnot
  | refused => rfl

theorem View.Emits.not_dropped {w v' : View} {block : Block} {fate : Fate}
    (h : w.Emits block fate v') : fate ≠ .dropped := by
  cases h <;> simp

theorem View.RootTurn.not_dropped {v v' : View} {header : Header} {block : Block} {fate : Fate}
    (h : v.RootTurn header block fate v') : fate ≠ .dropped := by
  cases h with
  | outside => simp
  | refused => simp
  | emitted _ _ _ _ hemits => exact hemits.not_dropped

/-- A selection that drops a block neither passes everything through behind it nor awaits
the structure. -/
theorem View.phase_dropped {v : View} {selection : Selection} {block : Block}
    (hlayout : v.layout.Valid) (hopen : selection.phase.isOpen = true)
    (hunderway : v.layout.stage = .underway)
    (hdropped : (selection.decide (v.layout.place (.ofBlock block)).1).1 = .drop) :
    (v.decided selection block).dropBlock.noteComplete.phase = .satisfied ∨
      (v.decided selection block).dropBlock.noteComplete.phase = .discarding := by
  by_contra hnot
  rw [not_or] at hnot
  have hselection := View.selection_noteComplete hnot.1
  have hphase := hnot.2
  rw [View.phase, hselection] at hphase
  rcases Selection.decide_place_phase hlayout (by simp [hunderway]) hopen (.ofBlock block) with
    ⟨-, hdecide⟩ | ⟨-, ⟨-, hdiscarding⟩ | ⟨hemit, -⟩⟩
  · rw [hdecide] at hdropped
    cases hdropped
  · exact hphase hdiscarding
  · rw [hdropped] at hemit
    cases hemit

section

variable {v v' : View} {handled : List Handled} (h : v.Moves handled v')

include h

theorem View.Moves.passthrough (hphase : v.phase = .passthrough) : v'.phase = .passthrough := by
  have hselected : v.selection ≠ none := by
    intro hselection
    rw [View.phase, hselection] at hphase
    cases hphase
  have hnot_open {selection : Selection} (hselection : v.selection = some selection)
      (hopen : selection.phase.isOpen = true) : False := by
    rw [View.phase, hselection] at hphase
    have hphase : selection.phase = .passthrough := hphase
    simp [hphase, Phase.isOpen] at hopen
  cases h with
  | flags => exact hphase
  | ended _ _ hselection => exact absurd hselection hselected
  | root _ _ _ _ _ _ hselection => exact absurd hselection hselected
  | turn block p fate _ _ hturn =>
    cases hturn with
    | kept selection _ _ hselection hopen => exact (hnot_open hselection hopen).elim
    | dropped selection hselection hopen => exact (hnot_open hselection hopen).elim
    | passed _ _ _ hemits =>
      cases hemits with
      | refused => exact hphase
      | written =>
        cases hselection : v.selection with
        | none => exact absurd hselection hselected
        | some selection =>
          rw [View.phase, hselection] at hphase
          have hphase : selection.phase = .passthrough := hphase
          simp [View.phase, View.noteComplete, View.writeBlock, hselection,
            Selection.fileComplete, hphase]

/-- No operation drops a block and passes everything through behind it. -/
theorem View.Moves.not_dropped (hphase : v'.phase = .passthrough) {e : Handled}
    (he : e ∈ handled) : e.fate ≠ .dropped := by
  cases h with
  | flags => cases he
  | ended => cases he
  | root header block fate _ _ _ _ hturn =>
    obtain rfl := List.mem_singleton.1 he
    exact hturn.not_dropped
  | turn block p fate _ hlayout hturn =>
    obtain rfl := List.mem_singleton.1 he
    cases hturn with
    | passed _ _ _ hemits => exact hemits.not_dropped
    | kept _ _ _ _ _ _ _ hemits => exact hemits.not_dropped
    | dropped selection _ hopen hunderway hdropped =>
      rcases View.phase_dropped hlayout hopen hunderway hdropped with hp | hp
      · rw [hphase] at hp
        cases hp
      · rw [hphase] at hp
        cases hp

end

/-- A row of operations drops nothing once everything is passed through. -/
theorem Sound.passthrough {v₀ : View} (hv₀ : v₀.Initial) {s : Session} {entries : List Handled}
    (h : Sound v₀ s entries) (hphase : s.phase = .passthrough) (ops : List Operation) :
    (s.perform ops).2.phase = .passthrough ∧ ∀ e ∈ (s.perform ops).1, e.fate ≠ .dropped := by
  induction ops generalizing s entries with
  | nil => exact ⟨hphase, fun e he => by cases he⟩
  | cons op ops ih =>
    have hmoves := h.moves hv₀ op
    have hnext : (s.operate op).2.phase = .passthrough := hmoves.passthrough hphase
    obtain ⟨hlast, hkept⟩ := ih (h.operate hv₀ op) hnext
    refine ⟨hlast, fun e he => ?_⟩
    rcases List.mem_append.1 he with he | he
    · exact hmoves.not_dropped hnext he
    · exact hkept e he

/-! ## Nothing dropped -/

/-- Whether a mismatch came after the selection had begun. -/
def View.isLate (v : View) : Bool :=
  v.selection.any (·.lateMismatch)

/-- A session that awaits the structure of the file, or passes everything through since
then. -/
def View.Whole (v : View) : Prop :=
  v.phase = .awaitingStructure ∨ v.phase = .passthrough ∧ v.isLate = false

theorem View.Whole.not_satisfied {v : View} (h : v.Whole) : v.phase ≠ .satisfied := by
  rcases h with h | ⟨h, -⟩ <;> simp [h]

theorem View.whole_iff_of_selection {v w : View} (h : v.selection = w.selection) :
    v.Whole ↔ w.Whole := by
  rw [Whole, Whole, phase, phase, isLate, isLate, h]

/-- Only a selection that awaits the structure gets to a state in which nothing was dropped,
and it keeps the block. -/
theorem View.whole_of_decided {v : View} {selection : Selection} {block : Block}
    (hselection : v.selection = some selection) (hlayout : v.layout.Valid)
    (hopen : selection.phase.isOpen = true) (hunderway : v.layout.stage = .underway)
    (h : (v.decided selection block).Whole) : v.Whole := by
  left
  rw [View.phase, hselection]
  show selection.phase = .awaitingStructure
  have hphase : (v.decided selection block).phase =
      (selection.decide (v.layout.place (.ofBlock block)).1).2.phase := rfl
  rcases Selection.decide_place_phase hlayout (by simp [hunderway]) hopen (.ofBlock block) with
    ⟨-, hdecide⟩ | ⟨-, ⟨-, hdiscarding⟩ | ⟨-, hkept | hmoved⟩⟩
  · rcases h with hawaits | ⟨-, hlate⟩
    · rw [hphase, hdecide] at hawaits
      cases hawaits
    · simpa [View.isLate, View.decided, hdecide] using hlate
  · rcases h with hawaits | ⟨hpass, -⟩
    · rw [hphase, hdiscarding] at hawaits
      cases hawaits
    · rw [hphase, hdiscarding] at hpass
      cases hpass
  · rcases h with hawaits | ⟨hpass, -⟩
    · rw [← hkept, ← hphase, hawaits]
    · rw [hphase, hkept] at hpass
      simp [hpass, Phase.isOpen] at hopen
  · rcases h with hawaits | ⟨hpass, -⟩
    · rw [hphase] at hawaits
      simp [hawaits] at hmoved
    · rw [hphase] at hpass
      simp [hpass] at hmoved

/-- Where nothing was dropped behind an operation, it dropped nothing and nothing was dropped
before it. -/
theorem View.Moves.whole {v v' : View} {handled : List Handled} (h : v.Moves handled v')
    (hwhole : v'.Whole) : v.Whole ∧ ∀ e ∈ handled, e.fate ≠ .dropped := by
  have hnew (hselection : v.selection = none) : v.Whole := by
    left
    rw [View.phase, hselection]
  cases h with
  | flags => exact ⟨hwhole, by simp⟩
  | ended _ _ hselection => exact ⟨hnew hselection, by simp⟩
  | root header block fate _ _ _ hselection hturn =>
    refine ⟨hnew hselection, fun e he => ?_⟩
    obtain rfl := List.mem_singleton.1 he
    exact hturn.not_dropped
  | turn block p fate _ hlayout hturn =>
    cases hturn with
    | passed _ _ _ hemits =>
      refine ⟨(View.whole_iff_of_selection (hemits.selection hwhole.not_satisfied)).1 hwhole,
        fun e he => ?_⟩
      obtain rfl := List.mem_singleton.1 he
      exact hemits.not_dropped
    | kept selection _ _ hselection hopen hunderway _ hemits =>
      have hdecided :=
        (View.whole_iff_of_selection (hemits.selection hwhole.not_satisfied)).1 hwhole
      refine ⟨View.whole_of_decided hselection hlayout hopen hunderway hdecided, fun e he => ?_⟩
      obtain rfl := List.mem_singleton.1 he
      exact hemits.not_dropped
    | dropped selection _ hopen hunderway hdropped =>
      exfalso
      rcases View.phase_dropped hlayout hopen hunderway hdropped with hp | hp
      · exact hwhole.not_satisfied hp
      · rcases hwhole with hawaits | ⟨hpass, -⟩
        · rw [hp] at hawaits
          cases hawaits
        · rw [hp] at hpass
          cases hpass

/-! ## Ends -/

/-- A session that passes everything through ends only if it was cancelled, or fails, or
comes to the end of its archive. -/
theorem Steady.end_of_passthrough {v₀ : View} (hv₀ : v₀.Initial) {s : Session}
    {entries : List Handled} (h : Steady v₀ s entries) (op : Operation)
    (hf : s.finished = false) (hends : (s.operate op).2.finished = true)
    (hphase : (s.operate op).2.phase = .passthrough) :
    s.cancelRequested = true ∨ (∃ e, s.outcome op = .error e) ∨ s.reader.next.1 = .ok none := by
  cases houtcome : s.outcome op with
  | error e => exact Or.inr (Or.inl ⟨e, rfl⟩)
  | ok _ =>
    have hsettled {reader : Reader} {s' : Session} (hs' : s.Settled reader s')
        (hends' : s'.finished = true) (hphase' : s'.phase = .passthrough) : False := by
      have hfinished : s'.finished = (s'.phase == .satisfied) := hs'.finished
      rw [hends', hphase'] at hfinished
      cases hfinished
    have hsuccess := h.success hv₀ houtcome
    generalize s.operate op = after at hsuccess hends hphase
    cases hsuccess with
    | idle =>
      rw [hf] at hends
      cases hends
    | cancelled =>
      have hends : s.finished = true := hends
      rw [hf] at hends
      cases hends
    | stopped _ _ hc => exact Or.inl hc
    | begins _ s' _ _ hbegins =>
      cases hbegins with
      | root _ _ _ _ _ _ _ _ _ _ hs' => exact (hsettled hs' hends hphase).elim
      | empty header _ reader reader' _ hread hnext =>
        rw [Reader.next_of_readHeader hread, hnext]
        exact Or.inr (Or.inr rfl)
    | advances _ s' _ _ hadvances =>
      cases hadvances with
      | block _ _ _ _ _ _ _ hs' => exact (hsettled hs' hends hphase).elim
      | exhausted reader _ hnext =>
        rw [hnext]
        exact Or.inr (Or.inr rfl)

/-! ## What was read and what was written -/

/-- A session that has read a header and the blocks of `entries`, and perhaps a marker at
their end, from what a source held, and has written the header and those of the blocks that
are to be written. -/
structure Transcribed (source : Source) (sink : Sink) (options : ReaderOptions) (s : Session)
    (entries : List Handled) (header : Header) (marker : Bytes) : Prop where
  started : s.started = true
  known : s.reader.header.isSome = true
  configured : s.reader.options = options
  ends : IsEndMarker options marker
  goesOn : s.finished = false → marker = []
  read : source.unread =
    header.frame ++ entries.flatMap (·.block.frame) ++ marker ++ s.source.unread
  written : s.view.taken = (framesOf entries).reverse ++ header.frame :: sink.taken
  succeeded : ∀ e ∈ entries, e.fate ≠ .failed

/-- What is known of the bytes as long as nothing fails: either nothing was read yet, and
nothing will be if the session has ended, or what was read was transcribed. -/
def Transcript (source : Source) (sink : Sink) (options : ReaderOptions) (s : Session)
    (entries : List Handled) : Prop :=
  s.selection = none ∧
      (s.finished = false → s.started = false → entries = [] ∧ s.view.taken = sink.taken ∧
        s.reader = { source := source, options := options }) ∨
    ∃ header marker, Transcribed source sink options s entries header marker

theorem transcript_new (source : Source) (sink : Sink) (request : ByteRange)
    (options : ReaderOptions) (retains : Bool) :
    Transcript source sink options (new source sink request options retains) [] :=
  Or.inl ⟨rfl, fun _ _ => ⟨rfl, rfl, rfl⟩⟩

theorem framesOf_append (entries more : List Handled) :
    framesOf (entries ++ more) = framesOf entries ++ framesOf more := by
  simp [framesOf]

/-- A block that is handled adds its frame to what the sink took, if it is written. -/
theorem View.Turn.taken {v v' : View} {block : Block} {p : Option Placement} {fate : Fate}
    (h : v.Turn block p fate v') :
    v'.taken = (framesOf [⟨block, p, fate⟩]).reverse ++ v.taken := by
  have hemits {w : View} (hw : w.taken = v.taken) {p : Option Placement}
      (hv : w.Emits block fate v') :
      v'.taken = (framesOf [⟨block, p, fate⟩]).reverse ++ v.taken := by
    cases hv with
    | written => simp [framesOf, View.noteComplete, View.writeBlock, hw]
    | refused => simp [framesOf, hw]
  cases h with
  | passed _ _ _ hv => exact hemits rfl hv
  | kept selection _ _ _ _ _ _ hv => exact hemits (w := v.decided selection block) rfl hv
  | dropped => simp [framesOf, View.noteComplete, View.dropBlock, View.decided]

theorem View.RootTurn.taken {v v' : View} {header : Header} {block : Block} {fate : Fate}
    (h : v.RootTurn header block fate v') (hfate : fate ≠ .failed) :
    fate = .written ∧ v'.taken = block.frame :: header.frame :: v.taken := by
  obtain ⟨w, hw, rfl, rfl⟩ := h.of_not_failed hfate
  refine ⟨rfl, ?_⟩
  cases hw <;> simp [View.noteComplete, View.writeBlock, View.writeHeader, View.rootPlaced]

section

variable {source : Source} {sink : Sink} {options : ReaderOptions} {s s' : Session}
  {entries : List Handled} {header : Header} {reader : Reader}

/-- The next block is transcribed. -/
theorem Transcribed.block (h : Transcribed source sink options s entries header [])
    {e : Handled} (hfate : e.fate ≠ .failed)
    (hpassed : s.reader.Passed e.block.frame reader) (hstands : s'.StandsAt reader)
    (hstarted : s'.started = true)
    (htaken : s'.view.taken = (framesOf [e]).reverse ++ s.view.taken) :
    Transcribed source sink options s' (entries ++ [e]) header [] where
  started := hstarted
  known := by rw [hstands.header, hpassed.header, h.known]
  configured := hstands.options.trans (hpassed.options.trans h.configured)
  ends := Or.inl rfl
  goesOn _ := rfl
  read := by
    have hunread : s.source.unread = e.block.frame ++ reader.source.unread := hpassed.source.unread
    rw [hstands.unread, h.read, hunread]
    simp
  written := by rw [htaken, h.written, framesOf_append, List.reverse_append, List.append_assoc]
  succeeded := by
    intro e' he'
    rcases List.mem_append.1 he' with he' | he'
    · exact h.succeeded e' he'
    · obtain rfl := List.mem_singleton.1 he'
      exact hfate

/-- The end of the archive is read. -/
theorem Transcribed.exhausted (h : Transcribed source sink options s entries header [])
    {marker : Bytes} (hmarker : IsEndMarker s.reader.options marker)
    (hpassed : s.reader.Passed marker reader) (hreader : s'.reader = reader)
    (hfinished : s'.finished = true) (hview : s'.view = s.view) :
    Transcribed source sink options s' entries header marker where
  started := (congrArg View.started hview).trans h.started
  known := by rw [hreader, hpassed.header, h.known]
  configured := by rw [hreader, hpassed.options, h.configured]
  ends := h.configured ▸ hmarker
  goesOn hf := by
    rw [hfinished] at hf
    cases hf
  read := by
    have hunread : s.source.unread = marker ++ reader.source.unread := hpassed.source.unread
    have hsource : s'.source = reader.source := congrArg Reader.source hreader
    rw [h.read, hsource, hunread]
    simp
  written := (congrArg View.taken hview).trans h.written
  succeeded := h.succeeded

/-- Header and root are read, or the end of an archive without blocks. -/
theorem Transcript.begins (hstart : s.view.taken = sink.taken)
    (hreader : s.reader = { source := source, options := options }) {entries' : List Handled}
    (hbegins : s.Begins entries' s') : ∃ header marker,
      Transcribed source sink options s' entries' header marker := by
  have hnew : s.reader.header = none := by rw [hreader]
  have hsource : s.reader.source = source := by rw [hreader]
  have hoptions : s.reader.options = options := by rw [hreader]
  cases hbegins with
  | root header block fate reader reader' _ hread hnext hturn hfate hsettled =>
    obtain ⟨hgave, hoptions', hknown⟩ := Reader.readHeader_gave hnew hread
    have hpassed := Reader.passed_of_next_some (Reader.isSome_of_readHeader hread) hnext
    have hstands := hsettled.toHandles.standsAt
    obtain ⟨hwritten, htaken⟩ := hturn.taken hfate
    refine ⟨header, [], hturn.keeps.started, ?_, ?_, Or.inl rfl, fun _ => rfl, ?_, ?_, ?_⟩
    · rw [hstands.header, hpassed.header, hknown]
      rfl
    · rw [hstands.options, hpassed.options, hoptions', hoptions]
    · have hunread := hgave.unread
      rw [hsource, hpassed.source.unread] at hunread
      rw [hstands.unread, hunread]
      simp
    · rw [htaken]
      simp [framesOf, hwritten, hstart]
    · simpa using hfate
  | empty header selection reader reader' _ hread hnext hphase hview hexhausted =>
    obtain ⟨hgave, hoptions', hknown⟩ := Reader.readHeader_gave hnew hread
    obtain ⟨marker, hmarker, hpassed⟩ :=
      Reader.passed_of_next_none (Reader.isSome_of_readHeader hread) hnext
    refine ⟨header, marker, congrArg View.started hview, ?_, ?_, ?_, ?_, ?_, ?_, by simp⟩
    · rw [hexhausted.reader, hpassed.header, hknown]
      rfl
    · rw [hexhausted.reader, hpassed.options, hoptions', hoptions]
    · rw [← hoptions, ← hoptions']
      exact hmarker
    · intro hf
      rw [hexhausted.finished] at hf
      cases hf
    · have hunread := hgave.unread
      rw [hsource, hpassed.source.unread] at hunread
      have hsource' : s'.source = reader'.source := congrArg Reader.source hexhausted.reader
      rw [hsource', hunread]
      simp
    · rw [hview]
      simp [View.writeHeader, framesOf, hstart]

end

theorem Transcript.operate {v₀ : View} (hv₀ : v₀.Initial) {source : Source} {sink : Sink}
    {options : ReaderOptions} {s : Session} {entries : List Handled} (hs : Steady v₀ s entries)
    (h : Transcript source sink options s entries) {op : Operation}
    (hok : s.outcome op = .ok ()) :
    Transcript source sink options (s.operate op).2 (entries ++ (s.operate op).1) := by
  have hsuccess := hs.success hv₀ hok
  generalize s.operate op = after at hsuccess
  cases hsuccess with
  | idle =>
    rw [List.append_nil]
    exact h
  | cancelled =>
    rw [List.append_nil]
    rcases h with ⟨hselection, hnew⟩ | ⟨header, marker, h⟩
    · exact Or.inl ⟨hselection, hnew⟩
    · exact Or.inr ⟨header, marker, h.started, h.known, h.configured, h.ends, h.goesOn, h.read,
        h.written, h.succeeded⟩
  | stopped s' hf hc hstopped =>
    rw [List.append_nil]
    rcases h with ⟨hselection, -⟩ | ⟨header, marker, h⟩
    · left
      refine ⟨(congrArg View.selection hstopped.view).trans hselection, fun hf' => ?_⟩
      rw [hstopped.finished] at hf'
      cases hf'
    · right
      refine ⟨header, marker, congrArg View.started hstopped.view, ?_, ?_, h.ends, ?_, ?_, ?_,
        h.succeeded⟩
      · rw [hstopped.reader]
        exact h.known
      · rw [hstopped.reader]
        exact h.configured
      · intro hf'
        rw [hstopped.finished] at hf'
        cases hf'
      · have hsource : s'.source = s.source.close := congrArg Reader.source hstopped.reader
        rw [hsource]
        exact h.read
      · exact (congrArg View.taken hstopped.view).trans h.written
  | begins entries' s' hf hstarted hbegins =>
    rcases h with ⟨-, hnew⟩ | ⟨header, marker, h⟩
    · obtain ⟨rfl, htaken, hreader⟩ := hnew hf hstarted
      exact Or.inr (Transcript.begins htaken hreader hbegins)
    · rw [h.started] at hstarted
      cases hstarted
  | advances entries' s' hf hready hadvances =>
    rcases h with ⟨hselection, -⟩ | ⟨header, marker, h⟩
    · rcases hready.selection with ⟨selection, hselected, -⟩
      have hselection : s.view.selection = none := hselection
      rw [hselection] at hselected
      cases hselected
    · obtain rfl := h.goesOn hf
      right
      cases hadvances with
      | block block fate reader _ hnext hturn hfate hsettled =>
        exact ⟨header, [], h.block hfate (Reader.passed_of_next_some h.known hnext)
          hsettled.toHandles.standsAt (hturn.keeps.started.trans h.started) hturn.taken⟩
      | exhausted reader _ hnext hview hexhausted =>
        obtain ⟨marker, hmarker, hpassed⟩ := Reader.passed_of_next_none h.known hnext
        rw [List.append_nil]
        exact ⟨header, marker, h.exhausted hmarker hpassed hexhausted.reader hexhausted.finished
          hview⟩

theorem Transcript.perform {v₀ : View} (hv₀ : v₀.Initial) {source : Source} {sink : Sink}
    {options : ReaderOptions} {s : Session} {entries : List Handled} (hs : Steady v₀ s entries)
    (h : Transcript source sink options s entries) {ops : List Operation}
    (hok : s.Succeeds ops) :
    Transcript source sink options (s.perform ops).2 (entries ++ (s.perform ops).1) :=
  hs.keeps hv₀ (P := Transcript source sink options) (fun hs h _ hok => h.operate hv₀ hs hok) h hok

/-! ## Every row of operations -/

/-- Behind a row of operations in which nothing was dropped, the writes are those of the
blocks that were read. -/
theorem framesOf_eq {entries : List Handled} (hdropped : ∀ e ∈ entries, e.fate ≠ .dropped)
    (hfailed : ∀ e ∈ entries, e.fate ≠ .failed) :
    framesOf entries = entries.map (·.block.frame) := by
  rw [framesOf, List.filter_eq_self.2]
  intro e he
  have hd := hdropped e he
  have hf := hfailed e he
  cases hfate : e.fate <;> simp_all

/-- What was written is what was read, unless something was dropped. -/
theorem Transcript.output {source : Source} {sink : Sink} {options : ReaderOptions} {s : Session}
    {entries : List Handled} (h : Transcript source sink options s entries)
    (hphase : s.phase = .passthrough) (hdropped : ∀ e ∈ entries, e.fate ≠ .dropped) :
    ∃ written marker, IsEndMarker options marker ∧
      source.unread = written ++ marker ++ s.source.unread ∧
      s.sink.output = sink.output ++ written := by
  rcases h with ⟨hselection, -⟩ | ⟨header, marker, h⟩
  · rw [phase, hselection] at hphase
    cases hphase
  · refine ⟨header.frame ++ entries.flatMap (·.block.frame), marker, h.ends, h.read, ?_⟩
    have htaken : s.sink.taken = (framesOf entries).reverse ++ header.frame :: sink.taken :=
      h.written
    rw [Sink.output, Sink.writes, htaken, framesOf_eq hdropped h.succeeded]
    simp [Sink.output, Sink.writes, List.flatMap]

/-- Where nothing was dropped behind a row of operations, none of them dropped anything. -/
theorem invariant_whole :
    View.Invariant fun v entries => v.Whole → ∀ e ∈ entries, e.fate ≠ .dropped := by
  intro v v' entries handled hmoves hp hwhole e he
  obtain ⟨hbefore, hkept⟩ := hmoves.whole hwhole
  rcases List.mem_append.1 he with he | he
  · exact hp hbefore e he
  · exact hkept e he

/-- A session begins to pass everything through with some operation, and goes on with
others.  Every block that is read with it and after it is written, except for one that the
sink refuses, which is the last.  The session ends only if it was cancelled, or if an
operation fails, or at the end of its archive.  If the mismatch did not come late, nothing
was dropped before either.  If moreover no operation fails, the output is what was read,
less the marker at the end. -/
theorem passthrough_writes_everything (source : Source) (sink : Sink) (request : ByteRange)
    (options : ReaderOptions) (retains : Bool) (before after : List Operation) (op : Operation) :
    let s₀ := new source sink request options retains
    let s₁ := (s₀.perform before).2
    let s₂ := (s₁.operate op).2
    let earlier := (s₀.perform before).1
    let later := (s₁.operate op).1 ++ (s₂.perform after).1
    let s := (s₂.perform after).2
    s₁.phase ≠ .passthrough → s₂.phase = .passthrough →
      s.phase = .passthrough ∧
        (∀ e ∈ later, e.fate = .written ∨
          e.fate = .failed ∧ (earlier ++ later).getLast? = some e ∧ s.finished = true ∧
            sink.acceptsAll = false) ∧
        (∃ front, front.length ≤ 1 ∧
          s.sink.writes = sink.writes ++ front ++ framesOf (earlier ++ later)) ∧
        (∀ (done rest : List Operation) (next : Operation), op :: after = done ++ next :: rest →
          let t := (s₁.perform done).2
          t.finished = false → (t.operate next).2.finished = true →
            t.cancelRequested = true ∨ (∃ e, t.outcome next = .error e) ∨
              t.reader.next.1 = .ok none) ∧
        (s₀.Succeeds (before ++ op :: after) → s.finished = true →
          s.stats.lateMismatch = s.selection.any (·.lateMismatch)) ∧
        (s.selection.any (·.lateMismatch) = false →
          (∀ e ∈ earlier ++ later, e.fate ≠ .dropped) ∧
            (s₀.Succeeds (before ++ op :: after) →
              ∃ written marker, IsEndMarker options marker ∧
                source.unread = written ++ marker ++ s.source.unread ∧
                s.sink.output = sink.output ++ written)) := by
  intro s₀ s₁ s₂ earlier later s _ henters
  have hinitial := initial_new source sink request options retains
  have h₀ := steady_new source sink request options retains
  have h₁ : Steady s₀.view s₁ earlier := h₀.perform hinitial before
  have h₂ : Steady s₀.view s₂ (earlier ++ (s₁.operate op).1) := h₁.operate hinitial op
  have hrow : s₀.perform (before ++ op :: after) = (earlier ++ later, s) := by
    rw [perform_append]
    rfl
  have h : Steady s₀.view s (earlier ++ later) := by
    have h := h₀.perform hinitial (before ++ op :: after)
    rw [hrow] at h
    exact h
  have hpass (done : List Operation) : (s₂.perform done).2.phase = .passthrough :=
    (h₂.passthrough hinitial henters done).1
  have hkept : ∀ e ∈ later, e.fate ≠ .dropped := by
    intro e he
    rcases List.mem_append.1 he with he | he
    · exact (h₁.moves hinitial op).not_dropped henters he
    · exact (h₂.passthrough hinitial henters after).2 e he
  refine ⟨hpass after, fun e he => ?_, h.counted.taken, ?_, fun hok hf => ?_, fun hlate => ?_⟩
  · cases hfate : e.fate with
    | written => exact Or.inl rfl
    | dropped => exact absurd hfate (hkept e he)
    | failed =>
      have hmem : e ∈ earlier ++ later := List.mem_append_right _ he
      obtain ⟨hfinished, hlast⟩ := h.failed e hmem hfate
      have hselection : s.view.selection ≠ none := by
        intro hselection
        have hphase : s.view.phase = .passthrough := hpass after
        rw [View.phase, hselection] at hphase
        cases hphase
      exact Or.inr ⟨rfl, hlast, hfinished, h.counted.refused hselection e hmem hfate⟩
  · intro done rest next hsplit t hf hends
    cases done with
    | nil =>
      obtain ⟨rfl, rfl⟩ := List.cons.inj hsplit
      exact h₁.end_of_passthrough hinitial op hf hends henters
    | cons first done =>
      obtain ⟨rfl, -⟩ := List.cons.inj hsplit
      have ht : Steady s₀.view t _ := h₂.perform hinitial done
      exact ht.end_of_passthrough hinitial next hf hends
        ((ht.moves hinitial next).passthrough (hpass done))
  · have hreports := h₀.reports hinitial hok (fun hf => by cases hf)
    rw [hrow] at hreports
    exact (hreports hf).lateMismatch
  · have hdropped : ∀ e ∈ earlier ++ later, e.fate ≠ .dropped := by
      have hwhole := h₀.toSound.invariant hinitial invariant_whole (by simp)
        (before ++ op :: after)
      rw [hrow] at hwhole
      exact hwhole (Or.inr ⟨hpass after, hlate⟩)
    refine ⟨hdropped, fun hok => ?_⟩
    have htranscript :=
      (transcript_new source sink request options retains).perform hinitial h₀ hok
    rw [show s₀.perform (before ++ op :: after) = _ from hrow] at htranscript
    exact htranscript.output (hpass after) hdropped

/-- The first block is not the one that the header names, and a marker ends the archive.
Header and block are passed through, the marker is not. -/
theorem passthrough_of_foreign_root :
    let body := Header.encodeBody [[0x01, 0x70, 0x00, 0x00]] 1
    let header : Bytes := UInt8.ofNat body.length :: body
    let block : Bytes := [0x06, 0x01, 0x55, 0x00, 0x00, 0x61, 0x62]
    let source := Source.ofMemory (header ++ block ++ [0x00]) 0
    let session := new source .unlimited (.openEnded 0) {} false
    let s := (session.perform [.call .step, .call .step]).2
    session.phase ≠ .passthrough ∧ (session.operate (.call .step)).2.phase = .passthrough ∧
      s.finished = true ∧ s.sink.output = header ++ block ∧
      ∃ marker, IsEndMarker {} marker ∧ source.unread = s.sink.output ++ marker := by
  intro body header block source session s
  have hbefore : session.phase ≠ .passthrough := by decide +kernel
  have henters : (session.operate (.call .step)).2.phase = .passthrough := by decide +kernel
  have hok : session.Succeeds [.call .step, .call .step] :=
    ⟨by decide +kernel, by decide +kernel, trivial⟩
  have hlate : s.selection.any (·.lateMismatch) = false := by decide +kernel
  have hrest : s.source.unread = [] := by decide +kernel
  obtain ⟨-, -, -, -, -, hwhole⟩ := passthrough_writes_everything source .unlimited (.openEnded 0)
    {} false [] [.call .step] (.call .step) hbefore henters
  obtain ⟨written, marker, hmarker, hread, hwritten⟩ := (hwhole hlate).2 hok
  have hunread : source.unread = written ++ marker ++ s.source.unread := hread
  have houtput : s.sink.output = written := hwritten
  refine ⟨hbefore, henters, by decide +kernel, by decide +kernel, marker, hmarker, ?_⟩
  rw [hunread, houtput, hrest, List.append_nil]

/-- A block that is read while everything is passed through is not written if the sink
refuses it: here the sink has no room behind the header. -/
theorem refused_block_not_passed_through :
    let body := Header.encodeBody [[0x01, 0x70, 0x00, 0x00]] 1
    let header : Bytes := UInt8.ofNat body.length :: body
    let source := Source.ofMemory (header ++ [0x06, 0x01, 0x55, 0x00, 0x00, 0x61, 0x62]) 0
    let sink : Sink := { kind := .guarded [], budget := some header.length }
    let run := (new source sink (.openEnded 0) {} false).perform [.call .step]
    run.2.phase = .passthrough ∧ run.2.stats.blocksIn = 1 ∧ run.2.stats.blocksOut = 0 ∧
      run.1.map (·.fate) = [.failed] ∧ run.2.sink.writes = [header] := by
  decide +kernel

end Session

end CarSlice
