import CarSlice.Proofs.Archive.Chunking
import CarSlice.Proofs.Archive.RoundTrip

/-!
# Reading a copy

A header and blocks that a reader has taken off an archive are read again wherever they stand
one behind the other.  Whatever stood behind them in the archive, such as a marker of its end,
does not matter.

* `readable_of_readHeader`, `readable_of_next` and `verifies_of_next`: what was read once is
  framed as a reader accepts it, and its payload passes.
* `Rereads` is a reader that stands before a copy of blocks that another reader comes upon.  It
  comes upon the same blocks (`Rereads.next_some`), and then upon the end (`Rereads.next_none`).
-/

namespace CarSlice.Archive.Reader

/-! ## What was read is accepted again -/

theorem readable_of_readHeader {r r' : Reader} {header : Header} (hnew : r.header = none)
    (h : r.readHeader = (.ok header, r')) : header.Readable r.options.maxHeaderSize := by
  rw [readHeader_of_new hnew] at h
  have hreads := r.readsNewHeader_readNewHeader
  rw [h] at hreads
  cases hreads with
  | read length lengthBytes body decoded r₁ r₂ hlength hpos hfits hbody hdecode =>
    obtain ⟨hread, hpassed⟩ := passed_of_nextLength hlength
    obtain rfl := length_of_readBody hbody
    rw [hpassed.options] at hfits
    exact ⟨lengthBytes, body, decoded, hread, Nat.le_of_not_lt hfits, hdecode, rfl⟩

/-- A block that was returned was read as a section, with the same options. -/
theorem exists_readSection_of_next {r r' : Reader} {block : Block}
    (h : r.next = (.ok (some block), r')) :
    ∃ (length : Nat) (lengthBytes : Bytes) (r₁ : Reader), r₁.options = r.options ∧
      r₁.readSection length lengthBytes = (.ok block, r') := by
  have hreads := r.readsNext_next
  rw [h] at hreads
  cases hreads with
  | behind header r₁ result hheader hnext =>
    have hreads := r₁.readsOn_nextSection
    rw [hnext] at hreads
    cases hreads with
    | block length lengthBytes block r₂ r₃ hlength hpos hfits hsection =>
      have hoptions := (passed_of_nextLength hlength).2.options
      exact ⟨length, lengthBytes, r₂, hoptions.trans (options_of_readHeader hheader), hsection⟩

theorem verifies_of_verify {r r' : Reader} {block : Block} (h : r.verify block = (.ok (), r')) :
    block.Verifies r.options := by
  intro hchecked hdiffers
  simp [verify, hchecked, hdiffers] at h

/-- The payload of a block that was returned has passed. -/
theorem verifies_of_next {r r' : Reader} {block : Block} (h : r.next = (.ok (some block), r')) :
    block.Verifies r.options := by
  obtain ⟨length, lengthBytes, r₁, hoptions, hsection⟩ := exists_readSection_of_next h
  have hreads := r₁.readsSection_readSection length lengthBytes
  rw [hsection] at hreads
  cases hreads with
  | read body payload cid r₂ r₃ hbody hcid hverify =>
    have hverifies := verifies_of_verify hverify
    rwa [(passed_of_readBody hbody).options, hoptions] at hverifies

/-! ## Reading again -/

theorem reliable_of_next {r r' : Reader} {result : Except Error (Option Block)}
    (hreliable : r.source.Reliable) (h : r.next = (result, r')) : r'.source.Reliable := by
  have hnext := (@matched_next r (.memory 0) hreliable (by simp) 0).1
  rwa [h] at hnext

theorem reliable_of_readHeader {r r' : Reader} {result : Except Error Header}
    (hreliable : r.source.Reliable) (h : r.readHeader = (result, r')) : r'.source.Reliable := by
  have hread := (@matched_readHeader r (.memory 0) hreliable (by simp) 0).1
  rwa [h] at hread

/-- A reader behind its header, before a copy of some blocks and nothing else.  It has the
options of the reader that comes upon these blocks. -/
structure Rereads (r : Reader) (blocks : List Block) (t : Reader) : Prop where
  known : t.header.isSome = true
  options : t.options = r.options
  isOpen : t.source.closed = false
  reliable : t.source.Reliable
  unread : t.source.unread = blocks.flatMap Block.frame

/-- A header that was read is read again from the front of a copy. -/
theorem rereads_of_readHeader {r r' t : Reader} {header : Header} {blocks : List Block}
    (hnew : r.header = none) (hread : r.readHeader = (.ok header, r'))
    (hnew' : t.header = none) (hoptions : t.options = r.options)
    (hopen : t.source.closed = false) (hreliable : t.source.Reliable)
    (hunread : t.source.unread = header.frame ++ blocks.flatMap Block.frame) :
    ∃ t', t.readHeader = (.ok header, t') ∧ r'.Rereads blocks t' := by
  have hreadable := readable_of_readHeader hnew hread
  rw [← hoptions] at hreadable
  obtain ⟨t', hread', hgave, hoptions', hknown⟩ :=
    readHeader_of_readable hnew' hreadable hopen hunread
  refine ⟨t', hread', by rw [hknown]; rfl, ?_, hgave.closed.trans hopen,
    reliable_of_readHeader hreliable hread', hgave.unread_eq hunread⟩
  rw [hoptions', hoptions, options_of_readHeader hread]

theorem options_of_next {r r' : Reader} {block : Block} (h : r.next = (.ok (some block), r')) :
    r'.options = r.options := by
  obtain ⟨length, lengthBytes, r₁, hoptions, hsection⟩ := exists_readSection_of_next h
  exact (passed_of_readSection hsection).2.options.trans hoptions

/-- The next block is read again. -/
theorem Rereads.next_some {r r' t : Reader} {block : Block} {blocks : List Block}
    (h : r.Rereads (block :: blocks) t) (hnext : r.next = (.ok (some block), r')) :
    ∃ t', t.next = (.ok (some block), t') ∧ r'.Rereads blocks t' := by
  have hverifies := verifies_of_next hnext
  have hreadable := readable_of_next hnext
  have hunread : t.source.unread = block.frame ++ blocks.flatMap Block.frame := h.unread
  rw [← h.options] at hverifies hreadable
  obtain ⟨t', hnext', hpassed⟩ := next_of_verifies h.known hverifies hreadable h.isOpen hunread
  refine ⟨t', hnext', by rw [hpassed.header, h.known], ?_, hpassed.source.closed.trans h.isOpen,
    reliable_of_next h.reliable hnext', hpassed.source.unread_eq hunread⟩
  rw [hpassed.options, h.options, options_of_next hnext]

/-- Behind the copy is the end. -/
theorem Rereads.next_none {r t : Reader} (h : r.Rereads [] t) :
    ∃ t', t.next = (.ok none, t') := by
  have hnothing : t.source.available = [] := by
    rw [Source.available_of_open h.isOpen]
    exact h.unread
  obtain ⟨t', hnext, -, -⟩ := next_of_nothing h.known h.reliable hnothing
  exact ⟨t', hnext⟩

end CarSlice.Archive.Reader
