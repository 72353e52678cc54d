import CarSlice.Proofs.Archive.Calls

/-!
# What is not read does not matter

A reader takes one element of an archive at a time and never looks behind it.  So what it has read
it would have read also if the source went on differently, and the reader behind it would be the
same.  A payload that is not compared with its digest is not looked at either: another one of the
same length is read in the same way.

* `Source.withUnread` and `Reader.withUnread` put other bytes into a source.
* `Block.Replaces` is a section that may stand in the place of another one.
* `nextLength_append`, `readBody_append`, `readHeader_append` and `nextSection_append` say for each
  function of a reader that what it has read, or what may stand in its place, is read in the same
  way in front of any other bytes.
* `Reader.extend` lets a source go on.  What was read before is read again (`readHeader_extend`,
  `next_extend`), also the end of the archive if it was a marker (`nextSection_extend_none`).
-/

namespace CarSlice

/-! ## Sources -/

namespace Source

/-- The same source with other bytes to hand out. -/
def withUnread (s : Source) (bytes : Bytes) : Source :=
  { s with unread := bytes }

theorem handOut_withUnread {s : Source} {m : Nat} (henough : m ≤ s.unread.length) {bytes : Bytes}
    (hbytes : m ≤ bytes.length) :
    (s.withUnread bytes).handOut m =
      (bytes.take (s.handOut m).1.length,
        (s.handOut m).2.withUnread (bytes.drop (s.handOut m).1.length)) := by
  have hlength : (s.unread.take m).length = m := List.length_take_of_le henough
  have hlength' : (bytes.take m).length = m := List.length_take_of_le hbytes
  simp only [handOut, withUnread, hlength, hlength']

/-- Where there are enough bytes, it does not matter which they are. -/
theorem read_withUnread {s s' : Source} {n : Nat} {got : Bytes} (henough : n ≤ s.unread.length)
    (h : s.read n = (.ok got, s')) {bytes : Bytes} (hbytes : n ≤ bytes.length) :
    (s.withUnread bytes).read n =
      (.ok (bytes.take got.length), s'.withUnread (bytes.drop got.length)) := by
  by_cases hrests : (s.closed || n == 0) = true
  · have hleft : s.read n = (.ok [], s) := if_pos hrests
    have hright : (s.withUnread bytes).read n = (.ok [], s.withUnread bytes) := if_pos hrests
    rw [hleft] at h
    cases h
    exact hright
  · cases hdevice : s.device with
    | memory chunk =>
      have hpart : (if chunk = 0 then n else min n chunk) ≤ n := by
        split <;> omega
      let asked : Source := { s with readCalls := s.readCalls + 1 }
      have hread (u : Source) (hrests : ¬(u.closed || n == 0) = true)
          (hdevice : u.device = .memory chunk) : u.read n =
            (.ok ({ u with readCalls := u.readCalls + 1 }.handOut
                (if chunk = 0 then n else min n chunk)).1,
              ({ u with readCalls := u.readCalls + 1 }.handOut
                (if chunk = 0 then n else min n chunk)).2) := by
        rw [read, if_neg hrests, hdevice]
      have hhanded := handOut_withUnread (s := asked) (Nat.le_trans hpart henough)
        (Nat.le_trans hpart hbytes)
      rw [hread s hrests hdevice] at h
      cases h
      rw [hread (s.withUnread bytes) hrests hdevice]
      exact congrArg (fun handed => (Except.ok handed.1, handed.2)) hhanded
    | stream breaks =>
      have hread (u : Source) (hrests : ¬(u.closed || n == 0) = true)
          (hdevice : u.device = .stream breaks) (henough : n ≤ u.unread.length) :
          u.read n = (.ok (u.handOut n).1, (u.handOut n).2) := by
        have hnot : ¬(breaks && decide ((u.unread.take n).length < n)) = true := by
          simp [List.length_take_of_le henough]
        rw [read, if_neg hrests, hdevice]
        dsimp only
        rw [if_neg hnot]
      have hhanded := handOut_withUnread henough hbytes
      rw [hread s hrests hdevice henough] at h
      cases h
      rw [hread (s.withUnread bytes) hrests hdevice hbytes]
      exact congrArg (fun handed => (Except.ok handed.1, handed.2)) hhanded

theorem read_append {s s' : Source} {n : Nat} {got : Bytes} (henough : n ≤ s.unread.length)
    (h : s.read n = (.ok got, s')) (front rest : Bytes) (hfront : front.length = got.length)
    (hbytes : n ≤ (front ++ rest).length) :
    (s.withUnread (front ++ rest)).read n = (.ok front, s'.withUnread rest) := by
  rw [read_withUnread henough h hbytes, ← hfront, List.take_left, List.drop_left]

/-- A read of one byte. -/
theorem read_one_append {s s' : Source} {b : UInt8} {got : Bytes}
    (h : s.read 1 = (.ok (b :: got), s')) (rest : Bytes) :
    (s.withUnread (b :: rest)).read 1 = (.ok [b], s'.withUnread rest) := by
  have hgave := gave_of_read_one h
  have hnil : got = [] := by
    have hle := length_of_read h
    exact List.length_eq_zero_iff.1 (by simpa using hle)
  have henough : 1 ≤ s.unread.length := by
    rw [hgave.unread]
    simp
  rw [hnil] at h
  exact read_append henough h [b] rest rfl (by simp)

/-- Where enough came, as many other bytes would have come as well. -/
theorem readFully_append {s s' : Source} {n : Nat} {got : Bytes}
    (h : s.readFully n = (.ok got, s')) (hfull : got.length = n) {front : Bytes}
    (hfront : front.length = n) (rest : Bytes) :
    (s.withUnread (front ++ rest)).readFully n = (.ok front, s'.withUnread rest) := by
  induction n using Nat.strongRecOn generalizing s s' got front with
  | ind n ih =>
    have henough : n ≤ s.unread.length := by
      rw [(gave_of_readFully h).unread, List.length_append]
      omega
    unfold readFully at h ⊢
    split at h
    · next hn =>
      cases h
      rw [if_pos hn, List.length_eq_zero_iff.1 (hfront.trans hn)]
      rfl
    · next hn =>
      rw [if_neg hn]
      split at h
      · cases h
      · next hread =>
        cases h
        exact absurd hfull.symm hn
      · next b got₁ s₁ hread =>
        have hle := length_of_read hread
        rcases hmore : s₁.readFully (n - (b :: got₁).length) with ⟨e | more, s₂⟩
        · rw [hmore] at h
          cases h
        · rw [hmore] at h
          cases h
          rw [List.length_append] at hfull
          -- The other bytes come in parts of the same lengths.
          obtain ⟨first, second, rfl, hfirst, hsecond⟩ : ∃ first second, front = first ++ second ∧
              first.length = (b :: got₁).length ∧ second.length = n - (b :: got₁).length := by
            refine ⟨_, _, (List.take_append_drop (b :: got₁).length front).symm, ?_, ?_⟩
            · exact List.length_take_of_le (by omega)
            · rw [List.length_drop, hfront]
          have hright := read_append henough hread first (second ++ rest) hfirst
            (by rw [← List.append_assoc, List.length_append]; omega)
          rw [List.append_assoc, hright]
          cases first with
          | nil => cases hfirst
          | cons c first =>
            dsimp only
            rw [hfirst, ih (n - (b :: got₁).length) (by simp only [List.length_cons]; omega) hmore
              (by omega) hsecond]
            rfl

end Source

open Archive (Block Header Reader ReaderOptions)

namespace Archive

/-- A section that would be read in the place of another one. -/
structure Block.Replaces (b b' : Block) (options : ReaderOptions) : Prop where
  lengthBytes : b'.lengthBytes = b.lengthBytes
  length : (b'.cid.bytes ++ b'.payload).length = (b.cid.bytes ++ b.payload).length
  cid : Cid.decode? (b'.cid.bytes ++ b'.payload) = some (b'.cid, b'.payload)
  unchecked : b' = b ∨ options.verifyDigests = false

theorem Block.Readable.replaces {b : Block} {maxSize : Nat} (h : b.Readable maxSize)
    (options : ReaderOptions) : b.Replaces b options :=
  ⟨rfl, rfl, h.cid, Or.inl rfl⟩

namespace Reader

/-- The same reader with other bytes to come. -/
def withUnread (r : Reader) (bytes : Bytes) : Reader :=
  { r with source := r.source.withUnread bytes }

/-! ## Lengths and bodies -/

theorem readLength_append {r r' : Reader} {acc : Varint.Accumulator} {seen : Bytes}
    {length : Nat × Bytes} (h : r.readLength acc seen = (.ok (some length), r')) :
    ∃ got, r.source.unread = got ++ r'.source.unread ∧
      ∀ rest, (r.withUnread (got ++ rest)).readLength acc seen =
        (.ok (some length), r'.withUnread rest) := by
  fun_induction readLength r acc seen with
  | case1 => cases h
  | case2 => cases h
  | case3 => cases h
  | case4 r acc seen b got source hread _ _ hcomplete =>
    simp only [Prod.mk.injEq, Except.ok.injEq, Option.some.injEq] at h
    obtain ⟨rfl, rfl⟩ := h
    refine ⟨[b], (Source.gave_of_read_one hread).unread, fun rest => ?_⟩
    have hright : (r.withUnread ([b] ++ rest)).source.read 1 = (.ok [b], source.withUnread rest) :=
      Source.read_one_append hread rest
    rw [readLength, hright]
    dsimp only
    split
    · rfl
    · next hother => rw [hcomplete] at hother; cases hother
    · next hother => rw [hcomplete] at hother; cases hother
  | case5 => cases h
  | case6 r acc seen b got source hread r₁ seen₁ hneed ih =>
    obtain ⟨got', hunread, hmore⟩ := ih h
    refine ⟨b :: got', ?_, fun rest => ?_⟩
    · rw [(Source.gave_of_read_one hread).unread]
      exact congrArg ([b] ++ ·) hunread
    · have hright : (r.withUnread (b :: got' ++ rest)).source.read 1 =
          (.ok [b], source.withUnread (got' ++ rest)) :=
        Source.read_one_append hread (got' ++ rest)
      rw [readLength, hright]
      dsimp only
      split
      · next hother => rw [hneed] at hother; cases hother
      · next hother => rw [hneed] at hother; cases hother
      · exact hmore rest

/-- A length is read in the same way whatever follows it. -/
theorem nextLength_append {r r' : Reader} {length : Nat} {lengthBytes : Bytes}
    (h : r.nextLength = (.ok (some (length, lengthBytes)), r')) (rest : Bytes) :
    (r.withUnread (lengthBytes ++ rest)).nextLength =
      (.ok (some (length, lengthBytes)), r'.withUnread rest) := by
  obtain ⟨got, hunread, hread⟩ := readLength_append h
  have hgot : got = lengthBytes := by
    rw [(passed_of_nextLength h).2.source.unread] at hunread
    exact (List.append_cancel_right hunread).symm
  rw [← hgot, nextLength, hread rest, hgot]

/-- Another body of the same length is read in the same way, whatever follows it. -/
theorem readBody_append {r r' : Reader} {length : Nat} {short : FramingFault} {body : Bytes}
    (h : r.readBody length short = (.ok body, r')) {other : Bytes} (hother : other.length = length)
    (rest : Bytes) : (r.withUnread (other ++ rest)).readBody length short =
      (.ok other, r'.withUnread rest) := by
  have hreads := r.readsBody_readBody length short
  rw [h] at hreads
  cases hreads with
  | whole body source hread hfull =>
    have hright : (r.withUnread (other ++ rest)).source.readFully length =
        (.ok other, source.withUnread rest) :=
      Source.readFully_append hread hfull hother rest
    rw [readBody, hright]
    dsimp only
    rw [if_pos hother, hother, hfull]
    rfl

/-! ## Headers and sections -/

/-- A header is read in the same way whatever follows it. -/
theorem readHeader_append {r r' : Reader} {header : Header} (hnew : r.header = none)
    (h : r.readHeader = (.ok header, r')) (rest : Bytes) :
    (r.withUnread (header.frame ++ rest)).readHeader = (.ok header, r'.withUnread rest) := by
  have hnew' (bytes : Bytes) : (r.withUnread bytes).header = none := hnew
  rw [readHeader_of_new hnew] at h
  rw [readHeader_of_new (hnew' _)]
  have hreads := r.readsNewHeader_readNewHeader
  rw [h] at hreads
  cases hreads with
  | read length lengthBytes body decoded r₁ r₂ hlength hpos hfits hbody hdecode =>
    have hfits' : ¬(r₁.withUnread (body ++ rest)).options.maxHeaderSize < length := hfits
    rw [readNewHeader, List.append_assoc, nextLength_append hlength]
    dsimp only
    rw [if_neg hpos, if_neg hfits', readBody_append hbody (length_of_readBody hbody)]
    dsimp only
    rw [hdecode]
    rfl

theorem verify_withUnread (r : Reader) (b : Block) (bytes : Bytes) :
    (r.withUnread bytes).verify b = ((r.verify b).1, (r.verify b).2.withUnread bytes) := by
  unfold verify
  show (if r.options.verifyDigests = true then _ else _) = _
  split
  · split <;> rfl
  · rfl

theorem verify_of_unchecked {r : Reader} (h : r.options.verifyDigests = false) (b : Block) :
    r.verify b = (.ok (), r) := by
  rw [verify, if_neg (by simp [h])]

theorem readSection_append {r r' : Reader} {b b' : Block} {length : Nat} {lengthBytes : Bytes}
    (h : r.readSection length lengthBytes = (.ok b, r')) (hreplaces : b.Replaces b' r.options)
    (rest : Bytes) :
    (r.withUnread ((b'.cid.bytes ++ b'.payload) ++ rest)).readSection length lengthBytes =
      (.ok b', r'.withUnread rest) := by
  have hreads := r.readsSection_readSection length lengthBytes
  rw [h] at hreads
  cases hreads with
  | read body payload cid r₁ r₂ hbody hcid hverify =>
    have hlength : (b'.cid.bytes ++ b'.payload).length = length := by
      rw [hreplaces.length, ← length_of_readBody hbody, Cid.bytes_append_of_decode? hcid]
    have hsame : Block.mk lengthBytes b'.cid b'.payload = b' := by
      rw [← show b'.lengthBytes = lengthBytes from hreplaces.lengthBytes]
    let counted : Reader := { r₁ with blocksRead := r₁.blocksRead + 1 }
    have hjudged : (counted.withUnread rest).verify b' = (.ok (), r'.withUnread rest) := by
      rw [verify_withUnread]
      rcases hreplaces.unchecked with rfl | hoff
      · rw [hverify]
      · have hoff : counted.options.verifyDigests = false := by
          show r₁.options.verifyDigests = false
          rw [(passed_of_readBody hbody).options]
          exact hoff
        rw [verify_of_unchecked hoff] at hverify ⊢
        rw [← (Prod.mk.inj hverify).2]
    have hcounted : ({ r₁.withUnread rest with
        blocksRead := (r₁.withUnread rest).blocksRead + 1 } : Reader) =
          counted.withUnread rest := rfl
    rw [readSection, readBody_append hbody hlength]
    dsimp only
    rw [hreplaces.cid]
    dsimp only
    rw [hsame, hcounted, hjudged]

/-- A section that may stand in the place of another one is read in the same way, whatever follows
it. -/
theorem nextSection_append {r r' : Reader} {b b' : Block} (h : r.nextSection = (.ok (some b), r'))
    (hreplaces : b.Replaces b' r.options) (rest : Bytes) :
    (r.withUnread (b'.frame ++ rest)).nextSection = (.ok (some b'), r'.withUnread rest) := by
  have hreads := r.readsOn_nextSection
  rw [h] at hreads
  cases hreads with
  | block length lengthBytes block r₁ r₂ hlength hpos hfits hsection =>
    have hbytes : b'.lengthBytes = lengthBytes := by
      rw [hreplaces.lengthBytes]
      exact (passed_of_readSection hsection).1
    have hoptions : r₁.options = r.options := (passed_of_nextLength hlength).2.options
    have hfits' (bytes : Bytes) : ¬(r₁.withUnread bytes).options.maxSectionSize < length := hfits
    rw [Block.frame_eq, List.append_assoc, hbytes, nextSection, nextLength_append hlength]
    dsimp only
    rw [if_neg hpos, if_neg (hfits' _), readSection_append hsection (hoptions ▸ hreplaces) rest]

/-! ## Sources that go on -/

/-- The same reader over a source that goes on. -/
def extend (r : Reader) (rest : Bytes) : Reader :=
  r.withUnread (r.source.unread ++ rest)

theorem extend_of_gave {r r' : Reader} {got : Bytes} (h : r.source.Gave got r'.source)
    (rest : Bytes) : r.extend rest = r.withUnread (got ++ (r'.source.unread ++ rest)) := by
  rw [extend, h.unread, List.append_assoc]

theorem readHeader_extend {r r' : Reader} {header : Header} (h : r.readHeader = (.ok header, r'))
    (rest : Bytes) : (r.extend rest).readHeader = (.ok header, r'.extend rest) := by
  cases hheader : r.header with
  | none =>
    rw [extend_of_gave (readHeader_gave hheader h).1, readHeader_append hheader h]
    rfl
  | some known =>
    have hheader' : (r.extend rest).header = some known := hheader
    rw [readHeader, hheader] at h
    rw [readHeader, hheader']
    cases h
    rfl

theorem nextSection_extend {r r' : Reader} {b : Block} (h : r.nextSection = (.ok (some b), r'))
    (rest : Bytes) : (r.extend rest).nextSection = (.ok (some b), r'.extend rest) := by
  rw [extend_of_gave (passed_of_nextSection_some h).source,
    nextSection_append h ((readable_of_nextSection h).replaces r.options)]
  rfl

/-- A block is read in the same way if the source goes on. -/
theorem next_extend {r r' : Reader} {b : Block} (h : r.next = (.ok (some b), r')) (rest : Bytes) :
    (r.extend rest).next = (.ok (some b), r'.extend rest) := by
  rcases hread : r.readHeader with ⟨e | header, r₁⟩
  · rw [next, hread] at h
    cases h
  · rw [next, hread] at h
    rw [next, readHeader_extend hread]
    exact nextSection_extend h rest

/-- Where an open source is not empty, there is a length to be read, or a failure. -/
theorem unread_of_nextLength_none {r r' : Reader} (hopen : r.source.closed = false)
    (h : r.nextLength = (.ok none, r')) : r.source.unread = [] := by
  rw [← Source.available_of_open hopen]
  exact (spent_of_nextLength_none h).available

/-- The end of an archive is where its bytes end, or a marker that is read in the same way if the
source goes on. -/
theorem nextSection_extend_none {r r' : Reader} (hopen : r.source.closed = false)
    (h : r.nextSection = (.ok none, r')) :
    r.source.unread = [] ∨ ∀ rest, (r.extend rest).nextSection = (.ok none, r'.extend rest) := by
  have hreads := r.readsOn_nextSection
  rw [h] at hreads
  cases hreads with
  | spent r₁ hlength => exact Or.inl (unread_of_nextLength_none hopen hlength)
  | marker lengthBytes r₁ hlength hends =>
    refine Or.inr fun rest => ?_
    have hends' : (r'.extend rest).options.emptyEndsArchive = true := hends
    rw [extend_of_gave (passed_of_nextLength hlength).2.source, nextSection,
      nextLength_append hlength]
    dsimp only
    rw [if_pos rfl]
    exact if_pos hends'

end Reader

end Archive

end CarSlice
