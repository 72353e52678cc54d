import CarSlice.Archive.Cases
import CarSlice.Proofs.Cid.Grammar

/-!
# Reading what is framed well

A header or a section that stands at the front of a source is read off it exactly, however
the source hands out its bytes, and nothing behind it is touched.

* `Source.Gave` relates a source to what is left of it after some bytes.
* `Header.Readable` and `Block.Readable` say when a frame is one that a reader accepts.
  The length in front may be written longer than needed.
* `readHeader_of_readable` and `next_of_verifies` read one frame, and `Reader.Awaits` is
  kept from one block to the next.  Up to the check of its payload, every readable section is
  read (`next_of_readable`).
-/

namespace CarSlice

/-! ## Sources -/

namespace Source

/-- A source and what is left of it after it gave some bytes. -/
structure Gave (s : Source) (bytes : Bytes) (s' : Source) : Prop where
  unread : s.unread = bytes ++ s'.unread
  position : s'.position = s.position + bytes.length
  closed : s'.closed = s.closed

theorem gave_nil (s : Source) : s.Gave [] s :=
  ⟨rfl, rfl, rfl⟩

theorem Gave.trans {s s' s'' : Source} {first second : Bytes} (h : s.Gave first s')
    (h' : s'.Gave second s'') : s.Gave (first ++ second) s'' := by
  refine ⟨?_, ?_, h'.closed.trans h.closed⟩
  · rw [h.unread, h'.unread, List.append_assoc]
  · rw [h'.position, h.position, List.length_append, Nat.add_assoc]

/-- What was given is a front part of what is known to be there. -/
theorem Gave.unread_eq {s s' : Source} {bytes rest : Bytes} (h : s.Gave bytes s')
    (hunread : s.unread = bytes ++ rest) : s'.unread = rest :=
  List.append_cancel_left (h.unread.symm.trans hunread)

/-- One read of an open source that has enough bytes gives some of them. -/
theorem read_of_le {s : Source} {n : Nat} (hopen : s.closed = false) (hn : 0 < n)
    (hle : n ≤ s.unread.length) :
    ∃ got s', s.read n = (.ok got, s') ∧ s.Gave got s' ∧ 0 < got.length ∧ got.length ≤ n := by
  have hstart : (s.closed || n == 0) = false := by
    simp only [hopen, Bool.false_or, beq_eq_false_iff_ne]
    omega
  have hgive (m : Nat) (s₀ : Source) (h₀ : s₀.unread = s.unread) (hp : s₀.position = s.position)
      (hc : s₀.closed = s.closed) : s.Gave (s₀.handOut m).1 (s₀.handOut m).2 := by
    refine ⟨?_, ?_, hc⟩
    · show s.unread = s₀.unread.take m ++ s₀.unread.drop m
      rw [List.take_append_drop, h₀]
    · show s₀.position + (s₀.unread.take m).length = _
      rw [hp]
      rfl
  cases hdevice : s.device with
  | memory chunk =>
    refine ⟨_, _, ?_, hgive (if chunk = 0 then n else min n chunk)
      { s with readCalls := s.readCalls + 1 } rfl rfl rfl, ?_, ?_⟩
    · simp [read, hstart, hdevice]
    · show 0 < (s.unread.take _).length
      rw [List.length_take]
      split <;> omega
    · show (s.unread.take _).length ≤ n
      rw [List.length_take]
      split <;> omega
  | stream breaks =>
    have hfull : (s.unread.take n).length = n := by
      rw [List.length_take]
      omega
    refine ⟨_, _, ?_, hgive n s rfl rfl rfl, ?_, ?_⟩
    · simp [read, hstart, hdevice, hfull]
    · show 0 < (s.unread.take n).length
      omega
    · show (s.unread.take n).length ≤ n
      omega

/-- One byte at a time, a source gives the byte at its front. -/
theorem read_one {s : Source} {b : UInt8} {rest : Bytes} (hopen : s.closed = false)
    (hunread : s.unread = b :: rest) : ∃ s', s.read 1 = (.ok [b], s') ∧ s.Gave [b] s' := by
  obtain ⟨got, s', hread, hgave, hpos, hle⟩ :=
    read_of_le hopen Nat.one_pos (by rw [hunread]; simp)
  have hone : got.length = 1 := by omega
  obtain ⟨b', rfl⟩ := List.length_eq_one_iff.1 hone
  have hfront := hgave.unread.symm.trans hunread
  obtain ⟨rfl, -⟩ := List.cons.inj hfront
  exact ⟨s', hread, hgave⟩

/-- Reading on until enough came gives exactly the bytes at the front. -/
theorem readFully_of_unread {s : Source} {bytes rest : Bytes} (hopen : s.closed = false)
    (hunread : s.unread = bytes ++ rest) :
    ∃ s', s.readFully bytes.length = (.ok bytes, s') ∧ s.Gave bytes s' := by
  induction hlength : bytes.length using Nat.strongRecOn generalizing s bytes with
  | ind n ih =>
    by_cases hn : n = 0
    · obtain rfl : bytes = [] := List.length_eq_zero_iff.1 (hlength.trans hn)
      refine ⟨s, ?_, s.gave_nil⟩
      rw [readFully, if_pos hn]
    · obtain ⟨got, s', hread, hgave, hpos, hle⟩ :=
        read_of_le (n := n) hopen (by omega) (by rw [hunread, List.length_append]; omega)
      -- The read gave a first part of the bytes, and the rest is still to come.
      have hfront : got ++ s'.unread = bytes ++ rest := hgave.unread.symm.trans hunread
      obtain ⟨more, hbytes, hrest⟩ : ∃ more, bytes = got ++ more ∧ s'.unread = more ++ rest := by
        rcases List.append_eq_append_iff.1 hfront with ⟨more, hmore, hrest⟩ | ⟨more, hmore, hrest⟩
        · exact ⟨more, hmore, hrest⟩
        · have hnil : more = [] := by
            have := congrArg List.length hmore
            rw [List.length_append] at this
            exact List.length_eq_zero_iff.1 (by omega)
          subst hnil
          exact ⟨[], by simpa using hmore.symm, by simpa using hrest.symm⟩
      have hlength' : more.length = n - got.length := by
        have := congrArg List.length hbytes
        rw [List.length_append] at this
        omega
      obtain ⟨s'', hmore, hgave'⟩ :=
        ih (n - got.length) (by omega) (hgave.closed.trans hopen) hrest hlength'
      refine ⟨s'', ?_, hbytes ▸ hgave.trans hgave'⟩
      cases got with
      | nil => simp at hpos
      | cons b got =>
        rw [readFully, if_neg hn, hread]
        simp only [hmore, Except.map, hbytes]

end Source

namespace Archive

open Varint (Accumulator Reading)

/-! ## Frames -/

/-- A header as a reader accepts it: a length and a body of this length. -/
def Header.Readable (header : Header) (maxSize : Nat) : Prop :=
  ∃ (lengthBytes body : Bytes) (decoded : Header),
    Varint.read? lengthBytes = some (body.length, []) ∧ body.length ≤ maxSize ∧
      Header.decode body = .ok decoded ∧ header = { decoded with frame := lengthBytes ++ body }

/-- A section as a reader accepts it: its length, a CID, and the payload that is left. -/
structure Block.Readable (b : Block) (maxSize : Nat) : Prop where
  length : Varint.read? b.lengthBytes = some ((b.cid.bytes ++ b.payload).length, [])
  size : (b.cid.bytes ++ b.payload).length ≤ maxSize
  cid : Cid.decode? (b.cid.bytes ++ b.payload) = some (b.cid, b.payload)

theorem Block.Readable.length_pos {b : Block} {maxSize : Nat} (h : b.Readable maxSize) :
    (b.cid.bytes ++ b.payload).length ≠ 0 := by
  have := Cid.decode?_length_add_four h.cid
  omega

theorem Block.frame_eq (b : Block) : b.frame = b.lengthBytes ++ (b.cid.bytes ++ b.payload) :=
  List.append_assoc _ _ _

/-- Whether a payload passes for what its CID names. -/
def Block.Verifies (b : Block) (options : ReaderOptions) : Prop :=
  options.verifyDigests = true →
    Multihash.check b.cid.hashCode b.cid.digest b.payload ≠ .differing

/-- Where digests are not compared, every payload passes. -/
theorem Block.verifies_of_unchecked (b : Block) {options : ReaderOptions}
    (h : options.verifyDigests = false) : b.Verifies options := by
  intro hchecked
  rw [h] at hchecked
  cases hchecked

namespace Reader

/-- A reader behind some bytes that it has read. -/
structure Passed (r : Reader) (bytes : Bytes) (r' : Reader) : Prop where
  source : r.source.Gave bytes r'.source
  options : r'.options = r.options
  header : r'.header = r.header

theorem Passed.trans {r r' r'' : Reader} {first second : Bytes} (h : r.Passed first r')
    (h' : r'.Passed second r'') : r.Passed (first ++ second) r'' :=
  ⟨h.source.trans h'.source, h'.options.trans h.options, h'.header.trans h.header⟩

/-! ## Lengths and bodies -/

/-- Reading a length a byte at a time comes to what decoding it at once does. -/
theorem readLength_of_decodeWithin {room : Nat} {bytes rest : Bytes} {v : Reading}
    (hdecode : Varint.decodeWithin room bytes = .ok v) (hrest : v.rest = []) {r : Reader}
    (hopen : r.source.closed = false) (hunread : r.source.unread = bytes ++ rest)
    {acc : Accumulator} (hstatus : acc.status = .needMore)
    (hroom : acc.length + room = Varint.maxLength) (seen : Bytes) :
    ∃ r', r.readLength acc seen =
        (.ok (some (acc.value + v.value <<< (7 * acc.length), seen ++ bytes)), r') ∧
      r.Passed bytes r' := by
  induction room generalizing bytes v r acc seen with
  | zero => simp [Varint.decodeWithin] at hdecode
  | succ room ih =>
    cases bytes with
    | nil => simp [Varint.decodeWithin] at hdecode
    | cons b bytes =>
      obtain ⟨source, hread, hgave⟩ := Source.read_one hopen hunread
      by_cases hb : b < 128
      · simp only [Varint.decodeWithin, hb, if_true, Except.ok.injEq] at hdecode
        subst hdecode
        obtain rfl : bytes = [] := hrest
        obtain ⟨hcomplete, hvalue⟩ := Accumulator.push_last hstatus (by omega) hb
        refine ⟨{ r with source, bytesConsumed := r.bytesConsumed + 1 }, ?_, hgave, rfl, rfl⟩
        rw [readLength, hread]
        dsimp only
        split
        · rw [hvalue]
        · next h => rw [hcomplete] at h; cases h
        · next h => rw [hcomplete] at h; cases h
      · simp only [Varint.decodeWithin, hb, if_false] at hdecode
        cases hv : Varint.decodeWithin room bytes with
        | error e => simp [hv, Except.map] at hdecode
        | ok v' =>
          simp only [hv, Except.map, Except.ok.injEq] at hdecode
          subst hdecode
          have hmore : acc.length + 1 < Varint.maxLength := by
            cases room with
            | zero => simp [Varint.decodeWithin] at hv
            | succ room => omega
          obtain ⟨hneed, hlength, hvalue⟩ := Accumulator.push_more hstatus hmore hb
          have hbyte : r.Passed [b] { r with source, bytesConsumed := r.bytesConsumed + 1 } :=
            ⟨hgave, rfl, rfl⟩
          obtain ⟨r', hr', hpassed⟩ := ih hv hrest (hgave.closed.trans hopen)
            (hbyte.source.unread_eq hunread) hneed (by omega) (seen ++ [b])
          refine ⟨r', ?_, hbyte.trans hpassed⟩
          rw [readLength, hread]
          dsimp only
          split
          · next h => rw [hneed] at h; cases h
          · next h => rw [hneed] at h; cases h
          · rw [hr', hvalue, hlength, Nat.add_assoc, Accumulator.shift_after]
            simp

theorem nextLength_of_read? {lengthBytes rest : Bytes} {length : Nat}
    (hlength : Varint.read? lengthBytes = some (length, [])) {r : Reader}
    (hopen : r.source.closed = false) (hunread : r.source.unread = lengthBytes ++ rest) :
    ∃ r', r.nextLength = (.ok (some (length, lengthBytes)), r') ∧ r.Passed lengthBytes r' := by
  unfold Varint.read? at hlength
  split at hlength
  · next v hv =>
    simp only [Option.some.injEq, Prod.mk.injEq] at hlength
    have hstatus : ({} : Accumulator).status = .needMore := rfl
    obtain ⟨r', hr', hpassed⟩ :=
      readLength_of_decodeWithin hv hlength.2 hopen hunread hstatus rfl []
    refine ⟨r', ?_, hpassed⟩
    rw [nextLength, hr', ← hlength.1]
    simp
  · cases hlength

theorem readBody_of_unread {body rest : Bytes} {r : Reader} (hopen : r.source.closed = false)
    (hunread : r.source.unread = body ++ rest) (short : FramingFault) :
    ∃ r', r.readBody body.length short = (.ok body, r') ∧ r.Passed body r' := by
  obtain ⟨source, hread, hgave⟩ := Source.readFully_of_unread hopen hunread
  refine ⟨{ r with source, bytesConsumed := r.bytesConsumed + body.length }, ?_, hgave, rfl, rfl⟩
  rw [readBody, hread]
  simp

/-! ## Headers and sections -/

/-- A readable header at the front of a source is read, and nothing behind it. -/
theorem readHeader_of_readable {header : Header} {r : Reader} (hnew : r.header = none)
    (hheader : header.Readable r.options.maxHeaderSize) (hopen : r.source.closed = false)
    {rest : Bytes} (hunread : r.source.unread = header.frame ++ rest) :
    ∃ r', r.readHeader = (.ok header, r') ∧ r.source.Gave header.frame r'.source ∧
      r'.options = r.options ∧ r'.header = some header := by
  rcases hheader with ⟨lengthBytes, body, decoded, hlength, hsize, hdecode, rfl⟩
  have hunread : r.source.unread = lengthBytes ++ (body ++ rest) := by
    rw [hunread, List.append_assoc]
  obtain ⟨r₁, hr₁, hpassed₁⟩ := nextLength_of_read? hlength hopen hunread
  have hopen₁ : r₁.source.closed = false := hpassed₁.source.closed.trans hopen
  have hunread₁ := hpassed₁.source.unread_eq hunread
  obtain ⟨r₂, hr₂, hpassed₂⟩ := readBody_of_unread hopen₁ hunread₁ .headerTruncated
  have hpassed := hpassed₁.trans hpassed₂
  have hpos : body.length ≠ 0 := by
    intro hempty
    rw [List.length_eq_zero_iff.1 hempty] at hdecode
    cases hdecode
  have hlimit : ¬r₁.options.maxHeaderSize < body.length := by
    rw [hpassed₁.options]
    omega
  refine ⟨{ r₂ with header := some { decoded with frame := lengthBytes ++ body } }, ?_,
    hpassed.source, hpassed.options, rfl⟩
  rw [readHeader, hnew]
  simp only [readNewHeader, hr₁, if_neg hpos, if_neg hlimit, hr₂, hdecode]

/-- A payload that passes is not objected to, and nothing is read for it. -/
theorem verify_of_verifies {b : Block} {r : Reader} (h : b.Verifies r.options) :
    ∃ r', r.verify b = (.ok (), r') ∧ r'.source = r.source ∧ r'.options = r.options ∧
      r'.header = r.header := by
  have hverifies := r.verifiesAs_verify b
  generalize r.verify b = result at hverifies
  cases hverifies with
  | unchecked | matching | unsupported => exact ⟨_, rfl, rfl, rfl, rfl⟩
  | differing hon hdiffers => exact absurd hdiffers (h hon)

/-- A section whose CID can be read is counted, and then its payload is judged. -/
theorem readSection_of_readBody {r r' : Reader} {length : Nat} {lengthBytes body payload : Bytes}
    {cid : Cid} (hbody : r.readBody length .sectionTruncated = (.ok body, r'))
    (hcid : Cid.decode? body = some (cid, payload)) :
    r.readSection length lengthBytes =
      let judged := { r' with blocksRead := r'.blocksRead + 1 }.verify ⟨lengthBytes, cid, payload⟩
      (judged.1.map fun _ => ⟨lengthBytes, cid, payload⟩, judged.2) := by
  simp only [readSection, hbody, hcid]
  split
  · next h => rw [h, Except.map]
  · next h => rw [h, Except.map]

/-- A readable section at the front of a source is read, and nothing behind it.  Then its payload
is judged. -/
theorem next_of_readable {b : Block} {r : Reader} (hheader : r.header.isSome = true)
    (hb : b.Readable r.options.maxSectionSize) (hopen : r.source.closed = false) {rest : Bytes}
    (hunread : r.source.unread = b.frame ++ rest) :
    ∃ r', r.Passed b.frame r' ∧
      r.next = ((r'.verify b).1.map fun _ => some b, (r'.verify b).2) := by
  obtain ⟨header, hheader⟩ := Option.isSome_iff_exists.1 hheader
  have hunread : r.source.unread = b.lengthBytes ++ ((b.cid.bytes ++ b.payload) ++ rest) := by
    rw [hunread, Block.frame_eq, List.append_assoc]
  obtain ⟨r₁, hr₁, hpassed₁⟩ := nextLength_of_read? hb.length hopen hunread
  have hopen₁ : r₁.source.closed = false := hpassed₁.source.closed.trans hopen
  have hunread₁ := hpassed₁.source.unread_eq hunread
  obtain ⟨r₂, hr₂, hpassed₂⟩ := readBody_of_unread hopen₁ hunread₁ .sectionTruncated
  have hpassed := hpassed₁.trans hpassed₂
  have hlimit : ¬r₁.options.maxSectionSize < (b.cid.bytes ++ b.payload).length := by
    have := hb.size
    rw [hpassed₁.options]
    omega
  rw [← Block.frame_eq] at hpassed
  refine ⟨{ r₂ with blocksRead := r₂.blocksRead + 1 },
    ⟨hpassed.source, hpassed.options, hpassed.header⟩, ?_⟩
  simp only [next, readHeader, hheader, nextSection, hr₁, if_neg hb.length_pos, if_neg hlimit,
    readSection_of_readBody hr₂ hb.cid]
  have hsame : Block.mk b.lengthBytes b.cid b.payload = b := rfl
  rw [hsame]
  cases { r₂ with blocksRead := r₂.blocksRead + 1 }.verify b with
  | mk result r₃ =>
    cases result with
    | error e => rfl
    | ok _ => rfl

/-- A readable section at the front of a source is read if its payload passes, and nothing
behind it. -/
theorem next_of_verifies {b : Block} {r : Reader} (hheader : r.header.isSome = true)
    (hverifies : b.Verifies r.options) (hb : b.Readable r.options.maxSectionSize)
    (hopen : r.source.closed = false) {rest : Bytes}
    (hunread : r.source.unread = b.frame ++ rest) :
    ∃ r', r.next = (.ok (some b), r') ∧ r.Passed b.frame r' := by
  obtain ⟨r₁, hpassed, hnext⟩ := next_of_readable hheader hb hopen hunread
  obtain ⟨r₂, hverify, hsource, hoptions, hknown⟩ :=
    verify_of_verifies (r := r₁) (hpassed.options ▸ hverifies)
  refine ⟨r₂, ?_, hsource ▸ hpassed.source, hoptions.trans hpassed.options,
    hknown.trans hpassed.header⟩
  rw [hnext, hverify]
  rfl

/-- A reader that stands behind the header, before some readable blocks and whatever may
follow them. -/
structure Awaits (r : Reader) (blocks : List Block) (tail : Bytes) : Prop where
  header : r.header.isSome = true
  verifyDigests : r.options.verifyDigests = false
  readable : ∀ b ∈ blocks, b.Readable r.options.maxSectionSize
  isOpen : r.source.closed = false
  unread : r.source.unread = blocks.flatMap Block.frame ++ tail

/-- The blocks come one after the other. -/
theorem Awaits.next {r : Reader} {b : Block} {blocks : List Block} {tail : Bytes}
    (h : r.Awaits (b :: blocks) tail) :
    ∃ r', r.next = (.ok (some b), r') ∧ r.source.Gave b.frame r'.source ∧
      r'.Awaits blocks tail := by
  have hunread : r.source.unread = b.frame ++ (blocks.flatMap Block.frame ++ tail) := by
    rw [h.unread, List.flatMap_cons, List.append_assoc]
  obtain ⟨r', hnext, hpassed⟩ := next_of_verifies h.header
    (b.verifies_of_unchecked h.verifyDigests) (h.readable b (by simp)) h.isOpen hunread
  refine ⟨r', hnext, hpassed.source, ?_, ?_, ?_, hpassed.source.closed.trans h.isOpen,
    hpassed.source.unread_eq hunread⟩
  · rw [hpassed.header, h.header]
  · rw [hpassed.options, h.verifyDigests]
  · intro b' hb'
    rw [hpassed.options]
    exact h.readable b' (by simp [hb'])

end Reader

end Archive

end CarSlice
