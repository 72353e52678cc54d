import CarSlice.Proofs.Archive.Positions
import CarSlice.Proofs.Archive.Writing
import CarSlice.Proofs.Session.Intake
import CarSlice.Proofs.Session.PrefixRange
import CarSlice.Proofs.Session.Work

/-!
# What was read, written and counted

Every block that a session reads is written, dropped, or the one on which it fails, and every byte
that it reads or writes is counted once.

* `Source.Drawn`: a source has handed out some bytes from its front.
* `Writer.Adds`: a writer has passed some writes on and counted their lengths.  All work of a session
  leads its writer there, and `Session.Balances` says besides that an end without failure fills in
  the counts of bytes (`work_balances`).
* `Sound.countP_failed_le`: a session fails on one block at most.
* `Faultless` is kept by every operation that does not fail: no block was failed on, what was read
  came off the front of the source, and an end has filled in the counts of bytes.
* `exists_succeeds_of_serveAll`: a row of demands without a failure is a row of operations without
  one.
* `every_block_is_accounted_for` puts these together for every row of demands.
-/

namespace CarSlice

open Archive (Block Header Reader ReaderOptions Writer)

/-! ## Sources -/

namespace Source

/-- A source that has handed out some bytes meanwhile, whether or not it was closed. -/
def Drawn (s s' : Source) : Prop :=
  ∃ got, s.unread = got ++ s'.unread ∧ s'.position = s.position + got.length

theorem Gave.drawn {s s' : Source} {got : Bytes} (h : s.Gave got s') : s.Drawn s' :=
  ⟨got, h.unread, h.position⟩

theorem Drawn.trans {s s' s'' : Source} (h : s.Drawn s') (h' : s'.Drawn s'') : s.Drawn s'' := by
  obtain ⟨first, hunread, hposition⟩ := h
  obtain ⟨second, hunread', hposition'⟩ := h'
  refine ⟨first ++ second, ?_, ?_⟩
  · rw [hunread, hunread', List.append_assoc]
  · rw [hposition', hposition, List.length_append, Nat.add_assoc]

/-- How far a source has come says what is left of it. -/
theorem Drawn.unread_eq {s s' : Source} {n : Nat} (h : s.Drawn s')
    (hn : s'.position = s.position + n) : s'.unread = s.unread.drop n := by
  obtain ⟨got, hunread, hposition⟩ := h
  have hlength : got.length = n := by
    rw [hposition] at hn
    exact Nat.add_left_cancel hn
  rw [hunread, ← hlength, List.drop_left]

end Source

/-! ## Writers -/

/-- A writer that has passed some writes on to its sink meanwhile. -/
def Archive.Writer.Adds (w w' : Writer) : Prop :=
  ∃ writes : List Bytes, w'.sink.taken = writes.reverse ++ w.sink.taken ∧
    w'.bytesWritten = (writes.map List.length).foldl satAdd w.bytesWritten

namespace Archive.Writer

theorem adds_of_eq {w w' : Writer} (htaken : w'.sink.taken = w.sink.taken)
    (hcount : w'.bytesWritten = w.bytesWritten) : w.Adds w' :=
  ⟨[], htaken, hcount⟩

theorem adds_refl (w : Writer) : w.Adds w :=
  adds_of_eq rfl rfl

theorem Adds.trans {w w' w'' : Writer} (h : w.Adds w') (h' : w'.Adds w'') : w.Adds w'' := by
  obtain ⟨writes, htaken, hcount⟩ := h
  obtain ⟨writes', htaken', hcount'⟩ := h'
  refine ⟨writes ++ writes', ?_, ?_⟩
  · rw [htaken', htaken, List.reverse_append, List.append_assoc]
  · rw [hcount', hcount, List.map_append, List.foldl_append]

theorem Effect.adds {w : Writer} {c : Call} {result : Except Error Unit × Writer}
    (h : w.Effect c result) : w.Adds result.2 := by
  cases h with
  | failed _ _ sink hsame => exact adds_of_eq hsame rfl
  | flushed sink hsame => exact adds_of_eq hsame rfl
  | header frame _ => exact ⟨[frame], rfl, rfl⟩
  | block frame _ => exact ⟨[frame], rfl, rfl⟩

theorem adds_writeHeader (w : Writer) (frame : Bytes) : w.Adds (w.writeHeader frame).2 :=
  (w.effect_writeHeader frame).adds

theorem adds_writeBlock (w : Writer) (frame : Bytes) : w.Adds (w.writeBlock frame).2 :=
  (w.effect_writeBlock frame).adds

theorem adds_flush (w : Writer) : w.Adds w.flush.2 :=
  w.effect_flush.adds

end Archive.Writer

namespace Session

/-! ## Ends -/

/-- The counts of bytes are what the reader and the writer have counted. -/
structure Balanced (s : Session) : Prop where
  bytesIn : s.stats.bytesIn = s.reader.bytesConsumed
  bytesOut : s.stats.bytesOut = s.writer.bytesWritten

/-- Work that adds to the output, and that fills in the counts of bytes if it comes to the end of
the session without failure. -/
structure Balances (s : Session) (result : Except Error Unit × Session) : Prop where
  adds : s.writer.Adds result.2.writer
  balanced : result.1 = .ok () → result.2.finished = true → result.2.Balanced

theorem Balances.after {s s₁ : Session} {result : Except Error Unit × Session}
    (h : s₁.Balances result) (hbefore : s.writer.Adds s₁.writer) : s.Balances result :=
  ⟨hbefore.trans h.adds, h.balanced⟩

theorem balances_of_error {s s₁ : Session} {e : Error} (h : s.writer.Adds s₁.writer) :
    s.Balances (.error e, s₁) :=
  ⟨h, fun hok => by cases hok⟩

theorem balances_of_unfinished {s s₁ : Session} (hf : s₁.finished = false)
    (h : s.writer.Adds s₁.writer) : s.Balances (.ok (), s₁) := by
  refine ⟨h, fun _ hfinished => ?_⟩
  have hfinished : s₁.finished = true := hfinished
  rw [hf] at hfinished
  cases hfinished

theorem balances_finish (s : Session) : s.Balances s.finish := by
  constructor
  · rw [writer_finish]
    split
    · exact s.writer.adds_flush
    · exact s.writer.adds_refl
  · intro hok _
    have hfinishes := s.finishesAs_finish
    generalize s.finish = result at hfinishes hok
    cases hfinishes with
    | refused => cases hok
    | flushed s₁ => exact ⟨rfl, rfl⟩

/-! ## Steps -/

theorem adds_writeBlock (s : Session) (block : Block) :
    s.writer.Adds (s.writeBlock block).2.writer := by
  have hadds := s.writer.adds_writeBlock block.frame
  unfold writeBlock
  split
  · next h => rwa [h] at hadds
  · next h => rwa [h] at hadds

theorem work_balances : Work (fun s s' => s.writer.Adds s'.writer) Balances where
  trans := Archive.Writer.Adds.trans
  remarks {s _} _ hwriter := hwriter ▸ s.writer.adds_refl
  notes s before := s.writer_noted before ▸ s.writer.adds_refl
  header s header := s.writer.adds_writeHeader header.frame
  block := adds_writeBlock
  after hbefore h := h.after hbefore
  failed _ h := balances_of_error h
  goesOn h hf := balances_of_unfinished hf h
  finish := balances_finish

/-- A failure leaves the writer alone, and what does not fail is left as it is. -/
theorem balances_concluded {s : Session} {result : Except Error Unit × Session}
    (h : s.Balances result) : s.Balances (result.1, (concluded result).2) := by
  rcases result with ⟨⟨e⟩ | ⟨⟩, s₁⟩
  · exact balances_of_error h.adds
  · exact h

/-! ## Operations -/

/-- An operation adds to the output, and where it ends the session without failure the counts of
bytes are filled in. -/
theorem balances_operate {s : Session} (hbegun : s.finished = true → s.started = true)
    (op : Operation) :
    s.writer.Adds (s.operate op).2.writer ∧
      (s.finished = false → s.Balances (s.outcome op, (s.operate op).2)) := by
  have heffect := effect_operate hbegun op
  generalize s.operate op = after at heffect
  generalize s.outcome op = result at heffect
  cases heffect with
  | idle => exact ⟨s.writer.adds_refl, fun hf => balances_of_unfinished hf s.writer.adds_refl⟩
  | cancelled =>
    exact ⟨s.writer.adds_refl, fun hf => balances_of_unfinished hf s.writer.adds_refl⟩
  | stopped hf hc =>
    have hbalances := work_balances.stop s
    rw [step_eq_stop hf hc]
    rcases hstop : s.stop with ⟨⟨e⟩ | ⟨⟩, s₁⟩
    · rw [hstop] at hbalances
      exact ⟨hbalances.adds, fun _ => hbalances⟩
    · rw [hstop] at hbalances
      exact ⟨hbalances.adds, fun _ => hbalances⟩
  | opened hf hop =>
    have hbegin : s.Balances { s with started := true }.begin :=
      (work_balances.begin (s := { s with started := true }) hf).after s.writer.adds_refl
    rw [start_of_not_started hop.1]
    exact ⟨(balances_concluded hbegin).adds, fun _ => balances_concluded hbegin⟩
  | advanced hf hc hs =>
    have hadvance := balances_concluded (work_balances.advance hf)
    rw [step_of_started hf hc hs, map_concluded]
    exact ⟨hadvance.adds, fun _ => hadvance⟩

theorem Sound.adds {v₀ : View} (hv₀ : v₀.Initial) {s : Session} {entries : List Handled}
    (h : Sound v₀ s entries) (ops : List Operation) : s.writer.Adds (s.perform ops).2.writer := by
  have hrow := h.keeps hv₀ (P := fun s' _ => s.writer.Adds s'.writer)
    (fun hsound hadds op => hadds.trans (balances_operate hsound.begun op).1) s.writer.adds_refl ops
  exact hrow

/-- Whatever fails, the bytes that the reader has counted are those that the source handed out. -/
theorem Sound.counts {v₀ : View} (hv₀ : v₀.Initial) {s : Session} {entries : List Handled}
    (h : Sound v₀ s entries) (ops : List Operation) : s.reader.Counts (s.perform ops).2.reader := by
  have hleaves {reader : Reader} {s' : Session} (hs' : s'.Leaves reader) :
      reader.Counts s'.reader := by
    rcases hs'.stands with hreader | hreader
    · rw [hreader]
      exact rfl
    · rw [hreader]
      exact rfl
  have hrow := h.keeps hv₀ (P := fun s' _ => s.reader.Counts s'.reader) ?_ rfl ops
  · exact hrow
  · intro s₁ entries₁ hsound hcounts op
    have hintake := hsound.intake hv₀ op
    generalize s₁.operate op = after at hintake
    cases hintake with
    | nothing s' _ hstays => exact hcounts.trans (hleaves hstays)
    | next _ s' _ _ _ hreads => exact hcounts.trans (s₁.reader.counts_next.trans (hleaves hreads))

/-! ## Blocks that a session fails on -/

theorem length_eq_countP (entries : List Handled) :
    entries.length = entries.countP (·.fate == .written) + entries.countP (·.fate == .dropped) +
      entries.countP (·.fate == .failed) := by
  induction entries with
  | nil => rfl
  | cons e entries ih =>
    rw [List.length_cons, ih, List.countP_cons, List.countP_cons, List.countP_cons]
    cases hfate : e.fate with
    | written => simp; omega
    | dropped => simp; omega
    | failed => simp; omega

theorem countP_failed_eq_zero {entries : List Handled} (h : ∀ e ∈ entries, e.fate ≠ .failed) :
    entries.countP (·.fate == .failed) = 0 := by
  rw [List.countP_eq_zero]
  intro e he
  simpa using h e he

/-- A session fails on one block at most: before it fails on one it has failed on none, and an
operation handles no two blocks. -/
theorem Sound.countP_failed_le {v₀ : View} (hv₀ : v₀.Initial) {s : Session}
    {entries : List Handled} (h : Sound v₀ s entries)
    (honce : entries.countP (·.fate == .failed) ≤ 1) (ops : List Operation) :
    (entries ++ (s.perform ops).1).countP (·.fate == .failed) ≤ 1 := by
  have hrow := h.keeps hv₀ (P := fun _ entries => entries.countP (·.fate == .failed) ≤ 1) ?_ honce
    ops
  · exact hrow
  · intro s₁ entries₁ hsound honce₁ op
    have hintake := hsound.intake hv₀ op
    generalize s₁.operate op = after at hintake
    cases hintake with
    | nothing s' =>
      rw [List.append_nil]
      exact honce₁
    | next handled s' hf hblocks =>
      have hnone : entries₁.countP (·.fate == .failed) = 0 := by
        apply countP_failed_eq_zero
        intro e he hfate
        have hfinished := (hsound.failed e he hfate).1
        rw [hf] at hfinished
        cases hfinished
      have hlength : handled.length ≤ 1 := by
        rw [← List.length_map (·.block), hblocks]
        cases s₁.nextBlock? with
        | none => exact Nat.zero_le 1
        | some block => exact Nat.le_refl 1
      rw [List.countP_append, hnone, Nat.zero_add]
      exact Nat.le_trans List.countP_le_length hlength

/-! ## As long as nothing fails -/

/-- What holds as long as nothing fails. -/
structure Faultless (source : Source) (s : Session) (entries : List Handled) : Prop where
  /-- What was read came off the front of the source. -/
  drawn : source.Drawn s.source
  handled : ∀ e ∈ entries, e.fate ≠ .failed
  balanced : s.finished = true → s.Balanced

theorem StandsAt.drawn {s : Session} {reader : Reader} (h : s.StandsAt reader) {source : Source}
    (hdrawn : source.Drawn reader.source) : source.Drawn s.source := by
  obtain ⟨got, hunread, hposition⟩ := hdrawn
  exact ⟨got, by rw [hunread, h.unread], by rw [h.position, hposition]⟩

/-- What a session without failure leaves of its source. -/
theorem Begins.drawn {s s' : Session} {entries : List Handled} (h : s.Begins entries s') :
    s.source.Drawn s'.source := by
  cases h with
  | root header block fate reader reader' s' hread hnext _ _ hsettled =>
    have hall : s.reader.next = (.ok (some block), reader') := by
      rw [Reader.next_of_readHeader hread, hnext]
    obtain ⟨got, hgave⟩ := Reader.exists_gave_of_next hall
    exact hsettled.toHandles.standsAt.drawn hgave.drawn
  | empty header selection reader reader' s' hread hnext _ _ hexhausted =>
    have hall : s.reader.next = (.ok none, reader') := by
      rw [Reader.next_of_readHeader hread, hnext]
    obtain ⟨got, hgave⟩ := Reader.exists_gave_of_next hall
    exact (standsAt_of_eq hexhausted.reader).drawn hgave.drawn

theorem Begins.not_failed {s s' : Session} {entries : List Handled} (h : s.Begins entries s') :
    ∀ e ∈ entries, e.fate ≠ .failed := by
  cases h with
  | root _ _ _ _ _ _ _ _ _ hfate => simpa using hfate
  | empty => simp

theorem Advances.drawn {s s' : Session} {entries : List Handled} (h : s.Advances entries s') :
    s.source.Drawn s'.source := by
  cases h with
  | block block fate reader s' hnext _ _ hsettled =>
    obtain ⟨got, hgave⟩ := Reader.exists_gave_of_next hnext
    exact hsettled.toHandles.standsAt.drawn hgave.drawn
  | exhausted reader s' hnext _ hexhausted =>
    obtain ⟨got, hgave⟩ := Reader.exists_gave_of_next hnext
    exact (standsAt_of_eq hexhausted.reader).drawn hgave.drawn

theorem Advances.not_failed {s s' : Session} {entries : List Handled} (h : s.Advances entries s') :
    ∀ e ∈ entries, e.fate ≠ .failed := by
  cases h with
  | block _ _ _ _ _ _ hfate => simpa using hfate
  | exhausted => simp

theorem Faultless.after {source : Source} {s s' : Session} {entries handled : List Handled}
    (h : Faultless source s entries) (hdrawn : s.source.Drawn s'.source)
    (hhandled : ∀ e ∈ handled, e.fate ≠ .failed) (hbalanced : s'.finished = true → s'.Balanced) :
    Faultless source s' (entries ++ handled) := by
  refine ⟨h.drawn.trans hdrawn, ?_, hbalanced⟩
  intro e he
  rcases List.mem_append.1 he with hmem | hmem
  · exact h.handled e hmem
  · exact hhandled e hmem

theorem Faultless.operate {v₀ : View} (hv₀ : v₀.Initial) {source : Source} {s : Session}
    {entries : List Handled} (hs : Steady v₀ s entries) (h : Faultless source s entries)
    {op : Operation} (hok : s.outcome op = .ok ()) :
    Faultless source (s.operate op).2 (entries ++ (s.operate op).1) := by
  have hbalances := (balances_operate hs.begun op).2
  have hsuccess := hs.success hv₀ hok
  rw [hok] at hbalances
  generalize s.operate op = after at hsuccess hbalances
  cases hsuccess with
  | idle =>
    rw [List.append_nil]
    exact h
  | cancelled =>
    rw [List.append_nil]
    exact ⟨h.drawn, h.handled, fun hf => ⟨(h.balanced hf).bytesIn, (h.balanced hf).bytesOut⟩⟩
  | stopped s' hf _ hstopped =>
    have hsource : s'.source = s.source.close := congrArg Reader.source hstopped.reader
    have hdrawn : s.source.Drawn s'.source := by
      rw [hsource]
      exact ⟨[], rfl, rfl⟩
    exact h.after hdrawn (by simp) ((hbalances hf).balanced rfl)
  | begins handled s' hf _ hbegins =>
    exact h.after hbegins.drawn hbegins.not_failed ((hbalances hf).balanced rfl)
  | advances handled s' hf _ hadvances =>
    exact h.after hadvances.drawn hadvances.not_failed ((hbalances hf).balanced rfl)

/-! ## Rows of demands -/

theorem succeeds_append {s : Session} {first second : List Operation} (hfirst : s.Succeeds first)
    (hsecond : (s.perform first).2.Succeeds second) : s.Succeeds (first ++ second) := by
  induction first generalizing s with
  | nil => exact hsecond
  | cons op ops ih => exact ⟨hfirst.1, ih hfirst.2 hsecond⟩

/-- A demand that does not fail is met by operations that do not. -/
theorem exists_succeeds_of_serve {s : Session} {d : Demand} (h : (s.serve d).1.error? = none) :
    ∃ ops, s.Succeeds ops ∧ s.perform ops = (s.account d, (s.serve d).2) := by
  cases d with
  | start =>
    refine ⟨[.start], ⟨?_, trivial⟩, by simp [perform, operate, account, serve]⟩
    show s.start.1 = .ok ()
    cases hstart : s.start.1 with
    | error e => simp [serve, Reply.error?, hstart] at h
    | ok _ => rfl
  | step =>
    refine ⟨[.call .step], ⟨?_, trivial⟩, by simp [perform, operate, call, account, serve]⟩
    show (s.step.1.map fun _ => ()) = .ok ()
    cases hstep : s.step.1 with
    | error e => simp [serve, Reply.error?, hstep] at h
    | ok _ => rfl
  | run =>
    have hok : s.run.1 = .ok () := by
      cases hrun : s.run.1 with
      | error e => simp [serve, Reply.error?, hrun] at h
      | ok _ => rfl
    obtain ⟨n, hsucceeds, hperform⟩ := succeeds_of_run hok
    exact ⟨_, hsucceeds, hperform⟩
  | cancel =>
    exact ⟨[.call .cancel], ⟨rfl, trivial⟩, by simp [perform, operate, call, account, serve]⟩

theorem exists_succeeds_of_serveAll {s : Session} {demands : List Demand}
    (h : ∀ reply ∈ (s.serveAll demands).1, reply.error? = none) :
    ∃ ops, s.Succeeds ops ∧ s.perform ops = (s.accountAll demands, (s.serveAll demands).2) := by
  induction demands generalizing s with
  | nil => exact ⟨[], trivial, rfl⟩
  | cons d demands ih =>
    obtain ⟨first, hfirst, hserved⟩ :=
      exists_succeeds_of_serve (h (s.serve d).1 List.mem_cons_self)
    obtain ⟨rest, hrest, hserved'⟩ := ih fun reply hmem => h reply (List.mem_cons_of_mem _ hmem)
    refine ⟨first ++ rest, succeeds_append hfirst (by rwa [hserved]), ?_⟩
    rw [perform_append, hserved, hserved']
    rfl

/-- Behind every row of demands of which none fails. -/
theorem faultless_serveAll (source : Source) (sink : Sink) (request : ByteRange)
    (options : ReaderOptions) (retains : Bool) (demands : List Demand) :
    let s := new source sink request options retains
    (∀ reply ∈ (s.serveAll demands).1, reply.error? = none) →
      Faultless source (s.serveAll demands).2 (s.accountAll demands) := by
  intro s hnone
  have hnew : Steady s.view s [] := steady_new source sink request options retains
  have hinitial : s.view.Initial := initial_new source sink request options retains
  obtain ⟨ops, hsucceeds, hperform⟩ := exists_succeeds_of_serveAll hnone
  have hrow : Faultless source (s.perform ops).2 ([] ++ (s.perform ops).1) :=
    hnew.keeps hinitial (P := Faultless source) (fun hs h op => h.operate hinitial hs)
      ⟨⟨[], rfl, rfl⟩, by simp, fun hf => by cases hf⟩ hsucceeds
  rw [hperform] at hrow
  exact hrow

/-! ## The account -/

/-- A count of lengths that starts at zero is their sum, up to the largest count. -/
theorem foldl_satAdd_zero (writes : List Bytes) :
    (writes.map List.length).foldl satAdd 0 = min writes.flatten.length maxCount := by
  have hle : (writes.map List.length).foldl satAdd 0 ≤ maxCount := by
    cases writes with
    | nil => exact Nat.zero_le maxCount
    | cons bytes writes => exact foldl_satAdd_le 0 (by simp)
  have hmin := foldl_satAdd (writes.map List.length) 0
  rw [Nat.zero_add, Nat.min_eq_left hle] at hmin
  rw [hmin, List.length_flatten]

/-- What a session has passed on to its sink, with the blocks that it has handled. -/
theorem Relayed.exists_writes {source : Source} {sink : Sink} {options : ReaderOptions}
    {s : Session} {entries : List Handled} (h : Relayed source sink options s entries) :
    ∃ written : List Bytes, s.sink.writes = sink.writes ++ written ∧
      (written = [] ∧ entries.countP (·.fate == .written) = 0 ∨
        ∃ (header : Header) (kept : List Block),
          (Reader.readHeader { source, options }).1 = .ok header ∧
            written = header.frame :: kept.map Block.frame ∧
            kept.Sublist (entries.map (·.block)) ∧
            kept.length = entries.countP (·.fate == .written)) := by
  cases hheader : s.view.headerWritten with
  | false =>
    obtain ⟨hframes, htaken⟩ := h.unwritten hheader
    have htaken : s.sink.taken = sink.taken := htaken
    refine ⟨[], ?_, Or.inl ⟨rfl, ?_⟩⟩
    · rw [Sink.writes, Sink.writes, htaken, List.append_nil]
    · rw [← length_framesOf, hframes, List.length_nil]
  | true =>
    obtain ⟨header, -, hread, htaken⟩ := h.written hheader
    have htaken : s.sink.taken = (framesOf entries).reverse ++ header.frame :: sink.taken := htaken
    refine ⟨header.frame :: framesOf entries, ?_, Or.inr ⟨header,
      (entries.filter (·.fate == .written)).map (·.block), hread, ?_, ?_, ?_⟩⟩
    · rw [Sink.writes, Sink.writes, htaken]
      simp
    · rw [framesOf, List.map_map]
      rfl
    · exact List.filter_sublist.map _
    · rw [List.length_map, List.countP_eq_length_filter]

/-- Where the counts of bytes are filled in, they say what was read and what was written. -/
theorem Balanced.bytes {s₀ s : Session} (h : s.Balanced) (hdrawn : s₀.source.Drawn s.source)
    (hcounts : s₀.reader.Counts s.reader) (hnew : s₀.reader.bytesConsumed = 0)
    (hadds : s₀.writer.Adds s.writer) (hfresh : s₀.writer.bytesWritten = 0) {written : List Bytes}
    (hwrites : s.sink.writes = s₀.sink.writes ++ written) :
    s.stats.bytesOut = min written.flatten.length maxCount ∧
      s.source.position = s₀.source.position + s.stats.bytesIn ∧
      s.source.unread = s₀.source.unread.drop s.stats.bytesIn := by
  have hposition : s.source.position = s₀.source.position + s.stats.bytesIn := by
    have hcounts : s.source.position + s₀.reader.bytesConsumed =
        s₀.source.position + s.reader.bytesConsumed := hcounts
    rw [hnew] at hcounts
    rw [h.bytesIn]
    exact hcounts
  obtain ⟨writes, htaken, hwritten⟩ := hadds
  have hsame : written = writes := by
    have htaken : s.sink.taken = writes.reverse ++ s₀.sink.taken := htaken
    rw [Sink.writes, htaken, List.reverse_append, List.reverse_reverse] at hwrites
    exact (List.append_cancel_left hwrites).symm
  refine ⟨?_, hposition, hdrawn.unread_eq hposition⟩
  rw [h.bytesOut, hwritten, hfresh, hsame, foldl_satAdd_zero]

/-- Behind every row of demands, whether or not one of them fails: the sink has got nothing, or
the frame of the header and behind it the frames of blocks that were read, each once and in their
order, as many as count as written.  A block that was read counts as written or as dropped, but for
one on which the session failed.  As long as no demand failed there is no such block, and if the
session is finished then, its counts are the bytes that reached the sink and those that were taken
off the front of the source.  The count of bytes written stops at the largest count. -/
theorem every_block_is_accounted_for (source : Source) (sink : Sink) (request : ByteRange)
    (options : ReaderOptions) (retains : Bool) (demands : List Demand) :
    let archive : Reader := { source, options }
    let s₀ := new source sink request options retains
    let s := (s₀.serveAll demands).2
    let read := (s₀.accountAll demands).map (·.block)
    ∃ written : List Bytes, s.sink.writes = sink.writes ++ written ∧
      (written = [] ∧ s.stats.blocksOut = 0 ∨
        ∃ (header : Header) (kept : List Block), archive.readHeader.1 = .ok header ∧
          written = header.frame :: kept.map Block.frame ∧ kept.Sublist read ∧
          kept.length = s.stats.blocksOut) ∧
      read <+: archive.blocks ∧ read.length = s.stats.blocksIn ∧
      (s.stats.blocksIn = s.stats.blocksOut + s.stats.blocksDiscarded ∨
        s.stats.blocksIn = s.stats.blocksOut + s.stats.blocksDiscarded + 1) ∧
      ((∀ reply ∈ (s₀.serveAll demands).1, reply.error? = none) →
        s.stats.blocksIn = s.stats.blocksOut + s.stats.blocksDiscarded ∧
          (s.finished = true →
            s.stats.bytesOut = min written.flatten.length maxCount ∧
              s.source.position = source.position + s.stats.bytesIn ∧
              s.source.unread = source.unread.drop s.stats.bytesIn)) := by
  intro archive s₀ s read
  have hinitial : s₀.view.Initial := initial_new source sink request options retains
  have hnew : Sound s₀.view s₀ [] := sound_new source sink request options retains
  have hsound : Sound s₀.view s (s₀.accountAll demands) :=
    sound_serveAll source sink request options retains demands
  have hrelayed : Relayed source sink options s (s₀.accountAll demands) :=
    relayed_serveAll source sink request options retains demands
  obtain ⟨written, hwrites, hcomposed⟩ := hrelayed.exists_writes
  have hin : s.stats.blocksIn = (s₀.accountAll demands).length := by
    apply serveAll_of_perform (P := fun s entries => s.stats.blocksIn = entries.length)
    intro ops
    rw [blocksIn_perform]
    exact Nat.zero_add _
  have hout : s.stats.blocksOut = (s₀.accountAll demands).countP (·.fate == .written) :=
    hsound.counted.out.trans (Nat.zero_add _)
  have hdiscarded : s.stats.blocksDiscarded = (s₀.accountAll demands).countP (·.fate == .dropped) :=
    hsound.counted.discarded.trans (Nat.zero_add _)
  have honce : (s₀.accountAll demands).countP (·.fate == .failed) ≤ 1 := by
    apply serveAll_of_perform (P := fun _ entries => entries.countP (·.fate == .failed) ≤ 1)
    exact hnew.countP_failed_le hinitial (Nat.zero_le 1)
  have hlength := length_eq_countP (s₀.accountAll demands)
  refine ⟨written, hwrites, ?_, hrelayed.read, ?_, ?_, ?_⟩
  · rw [hout]
    exact hcomposed
  · rw [hin, List.length_map]
  · rw [hin, hout, hdiscarded]
    omega
  · intro hnone
    have hfaultless : Faultless source s (s₀.accountAll demands) :=
      faultless_serveAll source sink request options retains demands hnone
    refine ⟨?_, fun hf => ?_⟩
    · have hzero := countP_failed_eq_zero hfaultless.handled
      rw [hin, hout, hdiscarded]
      omega
    · have hadds : s₀.writer.Adds s.writer :=
        serveAll_of_perform (P := fun s _ => s₀.writer.Adds s.writer) (hnew.adds hinitial) demands
      have hcounts : s₀.reader.Counts s.reader :=
        serveAll_of_perform (P := fun s _ => s₀.reader.Counts s.reader) (hnew.counts hinitial)
          demands
      have hdrawn : s₀.source.Drawn s.source := hfaultless.drawn
      exact (hfaultless.balanced hf).bytes hdrawn hcounts rfl hadds rfl hwrites

end Session

end CarSlice
