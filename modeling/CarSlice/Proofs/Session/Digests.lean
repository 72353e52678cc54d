import CarSlice.Proofs.Session.Intake

/-!
# Sessions that compare digests

A session leaves the comparison to its reader, which judges a block before the session sees it.
So what reaches the sink was judged, whatever the selection makes of the block.

* `serve_of_unread`: where a read fails, the demand fails in the same way and writes nothing.
* `Verified` is kept by every operation of a session whose reader compares digests.
* `digests_enforced` puts these together for every row of demands.
-/

namespace CarSlice

open Archive (Block Header Reader ReaderOptions)

namespace Session

/-! ## Reads that fail -/

/-- A demand on which a session reads on: a step, a run or a start that has something to do. -/
structure ReadsOn (s : Session) (d : Demand) : Prop where
  unfinished : s.finished = false
  demand : d = .start ∧ s.started = false ∨ (d = .step ∨ d = .run) ∧ s.cancelRequested = false

/-- What a session becomes that could not read on. -/
def unreadable (s : Session) (e : Error) : Session :=
  { s with started := true, reader := s.reader.next.2 }.fail e

section

variable {s : Session} {e : Error} (h : s.reader.next.1 = .error e)

include h

theorem readBlock_of_unread : s.readBlock = (.error e, { s with reader := s.reader.next.2 }) := by
  have hnext : s.reader.next = (.error e, s.reader.next.2) := Prod.ext h rfl
  rw [readBlock, hnext]

theorem advance_of_unread : s.advance = (.error e, { s with reader := s.reader.next.2 }) := by
  rw [advance, readBlock_of_unread h]

theorem begin_of_unread : s.begin = (.error e, { s with reader := s.reader.next.2 }) := by
  cases hread : s.reader.readHeader with
  | mk result reader =>
    cases result with
    | error e' =>
      have hnext : s.reader.next = (.error e', reader) := by rw [Reader.next, hread]
      rw [hnext] at h ⊢
      rw [begin, hread]
      cases h
      rfl
    | ok header =>
      rw [Reader.next_of_readHeader hread] at h ⊢
      rw [begin, hread]
      dsimp only
      rw [readBlock_of_unread (s := { s with reader }) h]

theorem start_of_unread (hs : s.started = false) : s.start = (.error e, s.unreadable e) := by
  rw [start_of_not_started hs, begin_of_unread (s := { s with started := true }) h]
  rfl

theorem step_of_unread (hf : s.finished = false) (hc : s.cancelRequested = false) :
    s.step = (.error e, s.unreadable e) := by
  cases hs : s.started with
  | true =>
    rw [step_of_started hf hc hs, advance_of_unread h, unreadable, ← hs]
    rfl
  | false =>
    rw [step_of_not_started hf hc hs, begin_of_unread (s := { s with started := true }) h]
    rfl

/-- A demand that comes upon something unreadable fails with what is wrong there. -/
theorem serve_of_unread {d : Demand} (hd : s.ReadsOn d) :
    (s.serve d).1.error? = some e ∧ (s.serve d).2 = s.unreadable e := by
  rcases hd.demand with ⟨rfl, hs⟩ | ⟨rfl | rfl, hc⟩
  · rw [serve, start_of_unread h hs]
    exact ⟨rfl, rfl⟩
  · rw [serve, step_of_unread h hd.unfinished hc]
    exact ⟨rfl, rfl⟩
  · have hrun : s.run = (.error e, s.unreadable e) := by
      rw [run_eq, step_of_unread h hd.unfinished hc]
    rw [serve, hrun]
    exact ⟨rfl, rfl⟩

end

/-! ## What was judged -/

theorem nextBlock?_eq (s : Session) : s.nextBlock? = s.reader.next.1.toOption.bind id := by
  unfold nextBlock?
  split
  · next h => rw [h]; rfl
  · next h => rw [h]; rfl

/-- A session whose reader compares digests, and the blocks that it has handled. -/
structure Verified (s : Session) (entries : List Handled) : Prop where
  checked : s.reader.options.verifyDigests = true
  genuine : ∀ e ∈ entries, e.block.Genuine ∨ e.block.isUnverifiable = true
  unverified : s.reader.unverified = entries.countP (·.block.isUnverifiable)

/-- One more block was judged, or what came was refused. -/
theorem Verified.next {s s' : Session} {entries handled : List Handled} (h : s.Verified entries)
    (hblocks : handled.map (·.block) = s.nextBlock?.toList)
    (hleaves : s'.Leaves s.reader.next.2) : s'.Verified (entries ++ handled) where
  checked := by rw [hleaves.options, Reader.options_next, h.checked]
  genuine := by
    intro e he
    rcases List.mem_append.1 he with he | he
    · exact h.genuine e he
    · have hmem : e.block ∈ s.nextBlock?.toList := by
        rw [← hblocks]
        exact List.mem_map_of_mem he
      exact Reader.genuine_of_next h.checked (next_of_nextBlock? (Option.mem_toList.1 hmem))
  unverified := by
    have hcount : handled.countP (·.block.isUnverifiable) =
        s.nextBlock?.toList.countP (·.isUnverifiable) := by
      rw [← hblocks, List.countP_map]
      rfl
    rw [hleaves.unverified, Reader.unverified_of_next h.checked, ← nextBlock?_eq, ← hcount,
      h.unverified, List.countP_append]

theorem Verified.operate {v₀ : View} (hv₀ : v₀.Initial) {s : Session} {entries : List Handled}
    (hs : Sound v₀ s entries) (h : s.Verified entries) (op : Operation) :
    (s.operate op).2.Verified (entries ++ (s.operate op).1) := by
  have hintake := hs.intake hv₀ op
  generalize s.operate op = after at hintake
  cases hintake with
  | nothing s' hf hleaves =>
    rw [List.append_nil]
    exact ⟨by rw [hleaves.options, h.checked], h.genuine, by rw [hleaves.unverified, h.unverified]⟩
  | next handled s' hf hblocks hends hleaves => exact h.next hblocks hleaves

theorem verified_serveAll (source : Source) (sink : Sink) (request : ByteRange)
    {options : ReaderOptions} (retains : Bool) (hchecked : options.verifyDigests = true)
    (demands : List Demand) :
    let s := new source sink request options retains
    (s.serveAll demands).2.Verified (s.accountAll demands) := by
  intro s
  have hnew : s.Verified [] := ⟨hchecked, by simp, rfl⟩
  have hv₀ := initial_new source sink request options retains
  apply serveAll_of_perform (P := Verified)
  exact (sound_new source sink request options retains).keeps hv₀
    (fun hs h op => h.operate hv₀ hs op) hnew

/-- Digest enforcement.  Behind every row of demands on a session whose reader compares digests,
whether or not one of them fails:

* What was handled are the first blocks of the archive, and the sink has the header of the archive,
  or nothing yet, and the frames of those blocks that were written.
* Each of these blocks, whatever became of it, has the digest that its CID names, or a hash
  function that cannot be recomputed, and the reader has counted the latter.
* Where the session goes on and comes to a section whose digest differs, the demand fails for that
  reason.  The session is finished, and its sink is as it was. -/
theorem digests_enforced (source : Source) (sink : Sink) (request : ByteRange)
    (options : ReaderOptions) (retains : Bool) (hchecked : options.verifyDigests = true)
    (demands : List Demand) :
    let entries := (new source sink request options retains).accountAll demands
    let s := ((new source sink request options retains).serveAll demands).2
    entries.map (·.block) <+: Reader.blocks { source, options } ∧
      (∃ front : List Bytes,
        (front = [] ∨ ∃ header, (Reader.readHeader { source, options }).1 = .ok header ∧
          front = [header.frame]) ∧
        s.sink.writes = sink.writes ++ front ++ framesOf entries) ∧
      (∀ e ∈ entries, e.block.Genuine ∨ e.block.isUnverifiable = true) ∧
      s.reader.unverified = entries.countP (·.block.isUnverifiable) ∧
      ∀ (block : Block) (d : Demand), s.ReadsOn d → s.reader.Faces block → block.Forged →
        let e := Error.digestMismatch block.cid.toText
        (s.serve d).1.error? = some e ∧ e.domain = .integrity ∧ e.code = 0x0301 ∧
          (s.serve d).2.finished = true ∧ (s.serve d).2.sink = s.sink := by
  intro entries s
  have hrelayed : Relayed source sink options s entries :=
    relayed_serveAll source sink request options retains demands
  have hverified : s.Verified entries :=
    verified_serveAll source sink request retains hchecked demands
  refine ⟨hrelayed.read, ?_, hverified.genuine, hverified.unverified, ?_⟩
  · cases hheader : s.view.headerWritten with
    | false =>
      obtain ⟨hframes, htaken⟩ := hrelayed.unwritten hheader
      have htaken : s.sink.taken = sink.taken := htaken
      exact ⟨[], Or.inl rfl, by rw [hframes, Sink.writes, htaken, Sink.writes]; simp⟩
    | true =>
      obtain ⟨header, -, hread, htaken⟩ := hrelayed.written hheader
      have htaken : s.sink.taken = (framesOf entries).reverse ++ header.frame :: sink.taken :=
        htaken
      refine ⟨[header.frame], Or.inr ⟨header, hread, rfl⟩, ?_⟩
      rw [Sink.writes, htaken, Sink.writes]
      simp
  · intro block d hd hfaces hforged e
    have hnext := hfaces.next_of_forged hverified.checked hforged
    obtain ⟨herror, hafter⟩ := serve_of_unread hnext hd
    refine ⟨herror, rfl, ?_, ?_, ?_⟩
    · show Domain.integrity.base + 0x01 = 0x0301
      decide
    · rw [hafter]
      rfl
    · rw [hafter]
      rfl

/-- Everything is passed through: a block whose digest is right, one whose hash function is not
known, and then one whose digest is empty, which is refused. -/
theorem forged_block_not_passed_through :
    let body := Header.encodeBody [[0x01, 0x70, 0x00, 0x00]] 1
    let header : Bytes := UInt8.ofNat body.length :: body
    let right : Bytes := [0x08, 0x01, 0x55, 0x00, 0x02, 0x61, 0x62, 0x61, 0x62]
    let unknown : Bytes := [0x06, 0x01, 0x55, 0x1e, 0x00, 0x61, 0x62]
    let forged : Block :=
      { lengthBytes := [0x06], cid := .make 1 Codec.raw Multihash.identity []
        payload := [0x61, 0x62] }
    let source := Source.ofMemory (header ++ right ++ unknown ++ forged.frame) 0
    let s₀ := new source .unlimited (.openEnded 0) { verifyDigests := true } false
    let s := (s₀.serveAll [.step, .step]).2
    s.phase = .passthrough ∧ s.sink.writes = [header, right, unknown] ∧
      s.reader.unverified = 1 ∧ forged.Forged ∧
      (s.serve .step).1.error? = some (.digestMismatch forged.cid.toText) ∧
      (s.serve .step).2.sink = s.sink := by
  intro body header right unknown forged source s₀ s
  have hforged : forged.Forged := ⟨id, rfl, by decide⟩
  have hreads : s.ReadsOn .step :=
    ⟨by decide +kernel, Or.inr ⟨Or.inl rfl, by decide +kernel⟩⟩
  have hfaces : s.reader.Faces forged := by
    obtain ⟨known, hread⟩ := Reader.readHeader_of_isSome (r := s.reader) (by decide +kernel)
    have hunread : s.reader.source.unread = forged.frame ++ [] := by decide +kernel
    exact ⟨by decide +kernel, ⟨by decide +kernel, by decide +kernel, by decide +kernel⟩,
      known, s.reader, [], hread, hunread⟩
  obtain ⟨-, -, -, hunverified, hrefused⟩ := digests_enforced source .unlimited (.openEnded 0)
    { verifyDigests := true } false rfl [.step, .step]
  have hcount : (s₀.accountAll [.step, .step]).countP (·.block.isUnverifiable) = 1 := by
    decide +kernel
  obtain ⟨herror, -, -, -, hsink⟩ := hrefused forged .step hreads hfaces hforged
  exact ⟨by decide +kernel, by decide +kernel, hunverified.trans hcount, hforged, herror, hsink⟩

end Session

end CarSlice
