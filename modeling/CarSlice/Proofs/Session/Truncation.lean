import CarSlice.Proofs.Archive.Rereading
import CarSlice.Proofs.Archive.Unread
import CarSlice.Proofs.Session.Accounting
import CarSlice.Proofs.Session.Lockstep

/-!
# Archives that are cut short

A session decides on a block before it looks at what comes behind it.  So over a source that is
cut short it does what it does over the whole one, until it comes to the cut, and from there on it
writes nothing more.  Only an archive of which nothing but the header is left is another matter:
that one is empty, and its header is written.

* `Longer` is a session, and the same session over a source that goes on.
* `Cuts` says that two such sessions have done the same, or that the first one has ended without a
  write.  `cuts_begin` and `cuts_step` say so of what they do at first and of every later step.
* `suffix_run_of_cuts` follows two runs until the first one comes to the cut.
* `truncation_shortens_output`: a run over the first bytes of an archive writes the first frames of
  what a run over the whole archive writes.
-/

namespace CarSlice

open Archive (Block Header Reader ReaderOptions)

theorem stableUnder_extend (rest : Bytes) :
    StableUnder fun r r' : Reader => r' = r.extend rest where
  close h := by
    rw [h]
    rfl
  bytesConsumed h := by
    rw [h]
    rfl
  unverified h := by
    rw [h]
    rfl

namespace Session

/-- A session, and the same session over a source that goes on. -/
def Longer (rest : Bytes) (s t : Session) : Prop :=
  Coupling.same.Pairs (fun r r' : Reader => r' = r.extend rest) s t

/-- What came of a session, and of the same session over a longer source: the same, or the first
one has ended and its sink has taken no more than before. -/
inductive Cuts (rest : Bytes) (taken : List Bytes) :
    Except Error Bool × Session → Except Error Bool × Session → Prop where
  | alike (result : Except Error Bool) (s₁ t₁ : Session) (h : Longer rest s₁ t₁) :
      Cuts rest taken (result, s₁) (result, t₁)
  | ended (result : Except Error Bool) (s₁ : Session) (y : Except Error Bool × Session)
      (hends : result ≠ .ok true) (htaken : s₁.sink.taken = taken) :
      Cuts rest taken (result, s₁) y

section

variable {rest : Bytes} {s t : Session}

theorem Longer.taken (h : Longer rest s t) : t.sink.taken = s.sink.taken := by
  obtain ⟨reader, sink, rfl, -, rfl⟩ := h
  rfl

theorem cuts_of_follows {taken : List Bytes} {x y : Except Error Unit × Session}
    (h : Coupling.same.Follows (fun r r' : Reader => r' = r.extend rest) s x y) :
    Cuts rest taken (concluded x) (concluded y) := by
  rcases h.follows with ⟨hsame, hlonger⟩ | ⟨e, -, hnever⟩
  · rcases x with ⟨result, s₁⟩
    rcases y with ⟨result', t₁⟩
    obtain rfl : result' = result := hsame
    cases result' with
    | error e => exact .alike _ _ _ (hlonger.fail (stableUnder_extend rest) e)
    | ok _ =>
      have hfinished : t₁.finished = s₁.finished := by
        obtain ⟨reader, sink, rfl, -, -⟩ := hlonger
        rfl
      show Cuts rest taken (.ok !s₁.finished, s₁) (.ok !t₁.finished, t₁)
      rw [hfinished]
      exact .alike _ _ _ hlonger
  · exact hnever.elim

/-- A session that has failed or come to its end goes no further. -/
theorem cuts_of_end {taken : List Bytes} {x : Except Error Unit × Session}
    (htaken : x.2.sink.taken = taken) (hends : x.1 = .ok () → x.2.finished = true)
    (y : Except Error Bool × Session) : Cuts rest taken (concluded x) y := by
  rcases x with ⟨e | _, s₁⟩
  · exact .ended _ _ y (by simp) htaken
  · have hfinished : s₁.finished = true := hends rfl
    exact .ended _ _ y (by simp [hfinished]) htaken

/-! ## Steps -/

/-- The block that a session reads is read over the longer source as well. -/
theorem Longer.readBlock (h : Longer rest s t) {block : Block}
    (hblock : s.nextBlock? = some block) :
    ∃ s₁ t₁, s.readBlock = (.ok (some block), s₁) ∧ t.readBlock = (.ok (some block), t₁) ∧
      Longer rest s₁ t₁ := by
  obtain ⟨reader, sink, rfl, rfl, rfl⟩ := h
  have hnext := next_of_nextBlock? hblock
  generalize s.reader.next.2 = r at hnext
  have hnext' : (s.across (s.reader.extend rest) s.sink).reader.next =
      (.ok (some block), r.extend rest) := Reader.next_extend hnext rest
  have hcount : (s.across (s.reader.extend rest) s.sink).reader.unverified =
      s.reader.unverified := rfl
  have hcount' : (r.extend rest).unverified = r.unverified := rfl
  refine ⟨s.readBlock.2, (s.across (s.reader.extend rest) s.sink).readBlock.2,
    readBlock_of_block hnext, readBlock_of_block hnext', ?_⟩
  unfold Session.readBlock
  rw [hnext, hnext']
  dsimp only
  rw [hcount, hcount']
  split
  · exact ⟨r.extend rest, s.sink, rfl, rfl, rfl⟩
  · exact ⟨r.extend rest, s.sink, rfl, rfl, rfl⟩

/-- So is the end of the archive, if the readers say so. -/
theorem Longer.readBlock_none (h : Longer rest s t) {r : Reader}
    (hnext : s.reader.next = (.ok none, r)) (hnext' : t.reader.next = (.ok none, r.extend rest)) :
    ∃ s₁ t₁, s.readBlock = (.ok none, s₁) ∧ t.readBlock = (.ok none, t₁) ∧ Longer rest s₁ t₁ := by
  obtain ⟨reader, sink, rfl, rfl, rfl⟩ := h
  exact ⟨_, _, readBlock_of_end hnext, readBlock_of_end hnext', r.extend rest, s.sink, rfl, rfl,
    rfl⟩

theorem cuts_advance (h : Longer rest s t) :
    Cuts rest s.sink.taken (concluded s.advance) (concluded t.advance) := by
  cases hblock : s.nextBlock? with
  | none =>
    obtain ⟨hview, hends⟩ := advance_of_none hblock
    exact cuts_of_end (congrArg View.taken hview) hends _
  | some block =>
    obtain ⟨s₁, t₁, hread, hread', hlonger⟩ := h.readBlock hblock
    rw [advance, advance, hread, hread']
    exact cuts_of_follows (Coupling.follows_processBlock (stableUnder_extend rest) hlonger
      (Coupling.blocks_refl _ block))

theorem cuts_step (h : Longer rest s t) (hs : s.started = true) :
    Cuts rest s.sink.taken s.step t.step := by
  cases hf : s.finished with
  | true =>
    have hstep : s.step = (.ok false, s) := if_pos hf
    rw [hstep]
    exact .ended _ _ _ (by simp) rfl
  | false =>
    cases hc : s.cancelRequested with
    | true =>
      rw [step_eq_stop hf hc]
      refine .ended _ _ _ ?_ s.halted_stop.taken
      cases s.stop.1 <;> simp [Except.map]
    | false =>
      have hflags : t.finished = false ∧ t.cancelRequested = false ∧ t.started = true := by
        obtain ⟨reader, sink, rfl, -, -⟩ := h
        exact ⟨hf, hc, hs⟩
      rw [step_of_started hf hc hs, step_of_started hflags.1 hflags.2.1 hflags.2.2]
      exact cuts_advance h

/-- The header and the root are read over the longer source as well, and so is a marker of the end
behind the header.  What must not be is that there is the header and nothing else. -/
theorem cuts_begin (h : Longer rest s t) (hnew : s.reader.header = none)
    (hopen : s.source.closed = false)
    (hcut : ∀ header, s.reader.readHeader.1 = .ok header → header.frame ≠ s.source.unread) :
    Cuts rest s.sink.taken (concluded s.begin) (concluded t.begin) := by
  obtain ⟨reader, sink, rfl, rfl, rfl⟩ := h
  rcases hread : s.reader.readHeader with ⟨e | header, r⟩
  · have hbegin : s.begin = (.error e, { s with reader := r }) := by
      rw [begin, hread]
    rw [hbegin]
    exact cuts_of_end (x := (.error e, { s with reader := r })) rfl (by simp) _
  · have hread' : (s.across (s.reader.extend rest) s.sink).reader.readHeader =
        (.ok header, r.extend rest) := Reader.readHeader_extend hread rest
    have hlonger : Longer rest { s with reader := r }
        { s.across (s.reader.extend rest) s.sink with reader := r.extend rest } :=
      ⟨r.extend rest, s.sink, rfl, rfl, rfl⟩
    have hknown : r.header.isSome = true := Reader.isSome_of_readHeader hread
    have hnext : r.next = r.nextSection := Reader.next_eq_nextSection hknown
    have hnext' : (r.extend rest).next = (r.extend rest).nextSection :=
      Reader.next_eq_nextSection hknown
    rw [begin, hread, begin, hread']
    dsimp only
    rcases hsection : r.nextSection with ⟨e | _ | block, r₁⟩
    · have hfails : ({ s with reader := r } : Session).readBlock =
          (.error e, { s with reader := r₁ }) := by
        rw [readBlock, hnext, hsection]
      rw [hfails]
      exact cuts_of_end (x := (.error e, { s with reader := r₁ })) rfl (by simp) _
    · obtain ⟨hgave, -, -⟩ := Reader.readHeader_gave hnew hread
      rcases Reader.nextSection_extend_none (hgave.closed.trans hopen) hsection with
        hempty | hmarker
      · have hall : header.frame = s.source.unread := by
          rw [source, hgave.unread, hempty, List.append_nil]
        exact absurd hall (hcut header (by rw [hread]))
      · obtain ⟨s₁, t₁, hleft, hright, hlonger₁⟩ :=
          hlonger.readBlock_none (hnext.trans hsection) (hnext'.trans (hmarker rest))
        rw [hleft, hright]
        exact cuts_of_follows
          (Coupling.follows_beginEmpty (stableUnder_extend rest) hlonger₁ header)
    · have hblock : ({ s with reader := r } : Session).nextBlock? = some block := by
        rw [nextBlock?, hnext, hsection]
      obtain ⟨s₁, t₁, hleft, hright, hlonger₁⟩ := hlonger.readBlock hblock
      rw [hleft, hright]
      exact cuts_of_follows (Coupling.follows_processRoot (stableUnder_extend rest) hlonger₁ header
        (Coupling.blocks_refl _ block))

/-! ## Runs -/

/-- A session that goes on has begun. -/
theorem Sound.started_of_step {v₀ : View} (hv₀ : v₀.Initial) {s s' : Session}
    {entries : List Handled} (h : Sound v₀ s entries) (hstep : s.step = (.ok true, s')) :
    s'.started = true := by
  have hafter : (s.operate (.call .step)).2 = s' := congrArg Prod.snd hstep
  rcases h.started_or_eq hv₀ (.call .step) with hstarted | ⟨c, hkept⟩
  · exact hafter ▸ hstarted
  · have hless := remaining_lt_of_step hstep
    rw [← hafter, hkept] at hless
    exact absurd hless (Nat.lt_irrefl _)

/-- The induction is on the steps of the run over the shorter source.  Where the two part, that run
has ended, and what it has written the other one had written as well. -/
theorem suffix_run_of_cuts {v₀ : View} (hv₀ : v₀.Initial) {entries : List Handled}
    (h : Sound v₀ s entries) (htaken : t.sink.taken = s.sink.taken)
    (hcuts : Cuts rest s.sink.taken s.step t.step) : s.run.2.sink.taken <:+ t.run.2.sink.taken := by
  have hgrows := Lockstep.suffix_run t
  rw [htaken] at hgrows
  fun_induction run s generalizing t entries with
  | case1 s e s' hstep =>
    rw [hstep] at hcuts
    generalize hstep' : t.step = y at hcuts
    cases hcuts with
    | alike _ _ t₁ hlonger =>
      rw [run_eq t, hstep']
      exact hlonger.taken ▸ List.suffix_rfl
    | ended _ _ _ _ hkept => exact hkept ▸ hgrows
  | case2 s s' hstep =>
    rw [hstep] at hcuts
    generalize hstep' : t.step = y at hcuts
    cases hcuts with
    | alike _ _ t₁ hlonger =>
      rw [run_eq t, hstep']
      exact hlonger.taken ▸ List.suffix_rfl
    | ended _ _ _ _ hkept => exact hkept ▸ hgrows
  | case3 s s' hstep ih =>
    have hsound : Sound v₀ s' (entries ++ s.handled) := by
      have hafter := h.operate hv₀ (.call .step)
      rw [show s.operate (.call .step) = (s.handled, s') from congrArg (s.handled, ·)
        (congrArg Prod.snd hstep)] at hafter
      exact hafter
    rw [hstep] at hcuts
    generalize hstep' : t.step = y at hcuts
    cases hcuts with
    | alike _ _ t₁ hlonger =>
      rw [run_eq t, hstep']
      exact ih hsound hlonger.taken (cuts_step hlonger (h.started_of_step hv₀ hstep))
        (hlonger.taken ▸ Lockstep.suffix_run t₁)
    | ended _ _ _ hends _ => exact absurd rfl hends

end

/-- Whatever a source and a sink do and whatever is asked for, unless the first `n` bytes are
exactly a header that would be accepted: what a run over these bytes passes on to the sink, whether
or not it fails, are the first frames of what a run over all of the bytes passes on, that is, of
the header and of blocks of the archive.  So the output is a part of the front of the other one
that ends where a frame ends. -/
theorem truncation_shortens_output (device : Device) (bytes : Bytes) (n : Nat) (sink : Sink)
    (request : ByteRange) (options : ReaderOptions) (retains : Bool)
    (hcut : ∀ header : Header, header.Readable options.maxHeaderSize →
      header.frame ≠ bytes.take n) :
    let archive : Reader := { source := { device, unread := bytes }, options }
    let whole := (new { device, unread := bytes } sink request options retains).run.2
    let cut := (new { device, unread := bytes.take n } sink request options retains).run.2
    cut.sink.output <+: whole.sink.output ∧
      ∃ (frames : List Bytes) (k : Nat),
        (frames = [] ∨ ∃ (header : Header) (kept : List Block),
          archive.readHeader.1 = .ok header ∧ frames = header.frame :: kept.map Block.frame ∧
            kept.Sublist archive.blocks) ∧
        whole.sink.writes = sink.writes ++ frames ∧
        cut.sink.writes = sink.writes ++ frames.take k := by
  intro archive whole cut
  let s := new { device, unread := bytes.take n } sink request options retains
  let t := new { device, unread := bytes } sink request options retains
  have hlonger : Longer (bytes.drop n) s t := by
    refine ⟨t.reader, sink, rfl, ?_, rfl⟩
    show t.reader = s.reader.withUnread (bytes.take n ++ bytes.drop n)
    rw [List.take_append_drop]
    rfl
  have hbegin : Cuts (bytes.drop n) s.sink.taken s.step t.step := by
    have hlonger' : Longer (bytes.drop n) { s with started := true } { t with started := true } := by
      obtain ⟨reader, sink', hacross, hreader, hsink⟩ := hlonger
      exact ⟨reader, sink', by rw [hacross]; rfl, hreader, hsink⟩
    rw [step_of_not_started rfl rfl rfl, step_of_not_started rfl rfl rfl]
    exact cuts_begin hlonger' rfl rfl fun header hread =>
      hcut header (Reader.readable_of_readHeader (r := s.reader) rfl (Prod.ext hread rfl))
  have hsuffix : cut.sink.taken <:+ whole.sink.taken :=
    suffix_run_of_cuts (initial_new _ sink request options retains)
      (sound_new _ sink request options retains) rfl hbegin
  have hwrites : cut.sink.writes <+: whole.sink.writes := List.reverse_prefix.2 hsuffix
  have hrelayed : Relayed { device, unread := bytes } sink options whole (t.accountAll [.run]) :=
    relayed_serveAll { device, unread := bytes } sink request options retains [.run]
  obtain ⟨frames, hwhole, hframes⟩ := hrelayed.exists_writes
  -- The cut run only writes behind what was in the sink before.
  obtain ⟨front, hfront⟩ : sink.writes <+: cut.sink.writes :=
    List.reverse_prefix.2 (Lockstep.suffix_run s)
  have hprefix : front <+: frames := by
    rw [← hfront, hwhole] at hwrites
    exact (List.prefix_append_right_inj sink.writes).1 hwrites
  refine ⟨?_, frames, front.length, ?_, hwhole, ?_⟩
  · obtain ⟨more, hmore⟩ := hwrites
    refine ⟨more.flatten, ?_⟩
    rw [Sink.output, Sink.output, ← hmore, List.flatten_append]
  · rcases hframes with ⟨hnone, -⟩ | ⟨header, kept, hread, heq, hkept, -⟩
    · exact Or.inl hnone
    · exact Or.inr ⟨header, kept, hread, heq, hkept.trans hrelayed.read.sublist⟩
  · rw [← hfront, ← List.prefix_iff_eq_take.1 hprefix]

/-- Bytes of which something is left behind the header are not exactly a header. -/
theorem frame_ne_of_readHeader {options : ReaderOptions} {bytes : Bytes}
    (h : (Reader.readHeader { source := .ofMemory bytes 0, options }).2.source.unread ≠ [])
    (header : Header) (hheader : header.Readable options.maxHeaderSize) :
    header.frame ≠ bytes := by
  intro hall
  let r : Reader := { source := .ofMemory bytes 0, options }
  have hunread : r.source.unread = header.frame ++ [] := by
    rw [List.append_nil, hall]
    rfl
  obtain ⟨r', hread, hgave, -⟩ := Reader.readHeader_of_readable (r := r) rfl hheader rfl hunread
  apply h
  show r.readHeader.2.source.unread = []
  rw [hread]
  exact hgave.unread_eq hunread

/-- An archive is cut inside its last leaf.  The run over what is left fails, but header, root and
first leaf are in the sink as they are after the run over the whole archive. -/
theorem truncated_leaf_shortens_output :
    let body := Header.encodeBody [[0x01, 0x70, 0x00, 0x00]] 1
    let header : Bytes := UInt8.ofNat body.length :: body
    let root : Bytes := [0x14, 0x01, 0x70, 0x00, 0x00, 0x12, 0x02, 0x0a, 0x00, 0x12, 0x02, 0x0a,
      0x00, 0x0a, 0x06, 0x08, 0x02, 0x20, 0x02, 0x20, 0x03]
    let first : Bytes := [0x06, 0x01, 0x55, 0x00, 0x00, 0x61, 0x62]
    let second : Bytes := [0x07, 0x01, 0x55, 0x00, 0x00, 0x63, 0x64, 0x65]
    let bytes := header ++ root ++ first ++ second
    let n := (header ++ root ++ first).length + 6
    let whole := (new (.ofMemory bytes 0) .unlimited (.openEnded 0) {} false).run
    let cut := (new (.ofMemory (bytes.take n) 0) .unlimited (.openEnded 0) {} false).run
    (∀ h : Header, h.Readable ({} : ReaderOptions).maxHeaderSize → h.frame ≠ bytes.take n) ∧
      cut.1 = .error (.framing .sectionTruncated n) ∧ whole.1 = .ok () ∧
      cut.2.sink.writes = [header, root, first] ∧
      whole.2.sink.writes = [header, root, first, second] ∧
      cut.2.sink.output <+: whole.2.sink.output := by
  intro body header root first second bytes n whole cut
  have hcut := @frame_ne_of_readHeader {} (bytes.take n) (by decide +kernel)
  obtain ⟨houtput, -⟩ :=
    truncation_shortens_output (.memory 0) bytes n .unlimited (.openEnded 0) {} false hcut
  exact ⟨hcut, by decide +kernel, by decide +kernel, by decide +kernel, by decide +kernel, houtput⟩

end Session

end CarSlice
