import CarSlice.Archive.Progress
import CarSlice.Proofs.Archive.Framing

/-!
# What a reader has taken

`CarSlice.Proofs.Archive.Framing` reads frames that are known to stand at the front of a
source.  Here nothing is known of the source: whatever a reader returns, it has taken the
bytes of it and no others.

* `Source.gave_of_read` and `Source.gave_of_readFully`: what a source hands out is the front
  of what it held.
* `readLength_movedTo` and `readBody_movedTo`: what a length and a body are depends on the source
  and the count of bytes alone, and only these are changed.
* `readHeader_gave`, `passed_of_next_some` and `passed_of_next_none`: the header, a block,
  and the end of an archive, which may be marked by a section of length zero
  (`IsEndMarker`).
* `Reader.blocks`: all blocks that are left of an archive.
-/

namespace CarSlice

/-! ## Sources -/

namespace Source

theorem gave_of_read {s s' : Source} {n : Nat} {got : Bytes} (h : s.read n = (.ok got, s')) :
    s.Gave got s' := by
  unfold read at h
  split at h
  · cases h
    exact s.gave_nil
  · split at h
    · cases h
      exact ⟨(List.take_append_drop _ s.unread).symm, rfl, rfl⟩
    · split at h
      · cases h
      · cases h
        exact ⟨(List.take_append_drop n s.unread).symm, rfl, rfl⟩

/-- A read of one byte gave no more than that. -/
theorem gave_of_read_one {s s' : Source} {b : UInt8} {got : Bytes}
    (h : s.read 1 = (.ok (b :: got), s')) : s.Gave [b] s' := by
  have hle := length_of_read h
  have hnil : got = [] := List.length_eq_zero_iff.1 (by simpa using hle)
  rw [hnil] at h
  exact gave_of_read h

/-- Reads that were repeated gave one row of bytes. -/
theorem gave_of_readFully {s s' : Source} {n : Nat} {bytes : Bytes}
    (h : s.readFully n = (.ok bytes, s')) : s.Gave bytes s' := by
  induction n using Nat.strongRecOn generalizing s s' bytes with
  | ind n ih =>
    unfold readFully at h
    split at h
    · cases h
      exact s.gave_nil
    · split at h
      · cases h
      · next hread =>
        cases h
        exact gave_of_read hread
      · next b got s₁ hread =>
        have hfirst := gave_of_read hread
        cases hmore : s₁.readFully (n - (b :: got).length) with
        | mk more s₂ =>
          rw [hmore] at h
          cases more with
          | error e => cases h
          | ok more =>
            cases h
            exact hfirst.trans (ih _ (by simp only [List.length_cons]; omega) hmore)

end Source

namespace Archive

open Varint (Accumulator Reading)

/-- The bytes at the end of an archive: none, or a section of length zero if that is taken
for the end. -/
def IsEndMarker (options : ReaderOptions) (bytes : Bytes) : Prop :=
  bytes = [] ∨ options.emptyEndsArchive = true ∧ Varint.read? bytes = some (0, [])

namespace Reader

theorem passed_nil (r : Reader) : r.Passed [] r :=
  ⟨r.source.gave_nil, rfl, rfl⟩

/-! ## Lengths and bodies -/

/-- A length that was read is the number that the bytes taken for it spell. -/
theorem passed_of_readLength {r r' : Reader} {acc : Accumulator} {seen lengthBytes : Bytes}
    {length : Nat} (hstatus : acc.status = .needMore) (hroom : acc.length < Varint.maxLength)
    (h : r.readLength acc seen = (.ok (some (length, lengthBytes)), r')) :
    ∃ bytes v, lengthBytes = seen ++ bytes ∧ r.Passed bytes r' ∧
      Varint.decodeWithin (Varint.maxLength - acc.length) bytes = .ok v ∧ v.rest = [] ∧
      length = acc.value + v.value <<< (7 * acc.length) := by
  fun_induction readLength r acc seen with
  | case1 => cases h
  | case2 => cases h
  | case3 => cases h
  | case4 r acc seen b got source hread _ _ hcomplete =>
    simp only [Prod.mk.injEq, Except.ok.injEq, Option.some.injEq] at h
    obtain ⟨⟨rfl, rfl⟩, rfl⟩ := h
    have hb := Accumulator.lt_of_push_complete hstatus hcomplete
    obtain ⟨-, hvalue⟩ := Accumulator.push_last hstatus hroom hb
    obtain ⟨room, hroom⟩ := Nat.exists_eq_succ_of_ne_zero (Nat.sub_ne_zero_of_lt hroom)
    refine ⟨[b], { value := Varint.lowBits b, length := 1, rest := [] }, rfl,
      ⟨Source.gave_of_read_one hread, rfl, rfl⟩, ?_, rfl, hvalue⟩
    simp [hroom, Varint.decodeWithin, hb]
  | case5 => cases h
  | case6 r acc seen b got source hread _ _ hneed ih =>
    obtain ⟨hb, hmore⟩ := Accumulator.of_push_needMore hstatus hneed
    obtain ⟨-, hlength, hvalue⟩ := Accumulator.push_more hstatus hmore hb
    obtain ⟨bytes, v, hbytes, hpassed, hdecode, hrest, hsum⟩ := ih hneed (by omega) h
    have hbyte : r.Passed [b] { r with source, bytesConsumed := r.bytesConsumed + 1 } :=
      ⟨Source.gave_of_read_one hread, rfl, rfl⟩
    have hroom : Varint.maxLength - acc.length = Varint.maxLength - (acc.push b).length + 1 := by
      omega
    refine ⟨b :: bytes, v.after b, ?_, hbyte.trans hpassed, ?_, hrest, ?_⟩
    · rw [hbytes, List.append_assoc]
      rfl
    · simp [hroom, Varint.decodeWithin, hb, hdecode, Except.map]
    · rw [hsum, hvalue, hlength, Nat.add_assoc, Accumulator.shift_after]

/-- Only in front of its first byte can a length be missing, and then nothing is taken. -/
theorem passed_of_readLength_none {r r' : Reader} {acc : Accumulator} {seen : Bytes}
    (h : r.readLength acc seen = (.ok none, r')) : acc.started = false ∧ r.Passed [] r' := by
  fun_induction readLength r acc seen with
  | case1 => cases h
  | case2 => cases h
  | case3 r acc seen source hread r₁ hstarted =>
    obtain rfl := (Prod.mk.inj h).2
    exact ⟨by simpa using hstarted, Source.gave_of_read hread, rfl, rfl⟩
  | case4 => cases h
  | case5 => cases h
  | case6 r acc seen b got source hread _ _ hneed ih =>
    have hroom := Accumulator.push_length hneed
    have hempty : (acc.push b).length = 0 := by simpa [Accumulator.started] using (ih h).1
    omega

theorem passed_of_nextLength {r r' : Reader} {length : Nat} {lengthBytes : Bytes}
    (h : r.nextLength = (.ok (some (length, lengthBytes)), r')) :
    Varint.read? lengthBytes = some (length, []) ∧ r.Passed lengthBytes r' := by
  have hstatus : ({} : Accumulator).status = .needMore := rfl
  obtain ⟨bytes, v, hbytes, hpassed, hdecode, hrest, hlength⟩ :=
    passed_of_readLength hstatus (by decide) h
  obtain rfl : lengthBytes = bytes := hbytes
  refine ⟨?_, hpassed⟩
  have hvalue : length = v.value := by
    rw [hlength]
    simp
  have hdecode : Varint.decode lengthBytes = .ok v := hdecode
  rw [Varint.read?, hdecode, hvalue, ← hrest]

theorem passed_of_readBody {r r' : Reader} {length : Nat} {short : FramingFault} {body : Bytes}
    (h : r.readBody length short = (.ok body, r')) : r.Passed body r' := by
  have hreads := r.readsBody_readBody length short
  rw [h] at hreads
  cases hreads with
  | whole body source hread => exact ⟨Source.gave_of_readFully hread, rfl, rfl⟩

/-- A reader with the source of another one and its count of bytes. -/
def movedTo (r s : Reader) : Reader :=
  { r with source := s.source, bytesConsumed := s.bytesConsumed }

/-- Nothing but the source and the count of bytes is looked at for a length, and nothing else is
touched. -/
theorem readLength_movedTo (r s : Reader) (acc : Accumulator) (seen : Bytes) :
    (r.movedTo s).readLength acc seen =
      ((s.readLength acc seen).1, r.movedTo (s.readLength acc seen).2) := by
  have hsource (s : Reader) : (r.movedTo s).source = s.source := rfl
  fun_induction readLength s acc seen with
  | case1 s acc seen e source hread =>
    rw [readLength, hsource, hread]
    rfl
  | case2 s acc seen source hread _ hstarted =>
    rw [readLength, hsource, hread]
    exact if_pos hstarted
  | case3 s acc seen source hread _ hstarted =>
    rw [readLength, hsource, hread]
    exact if_neg hstarted
  | case4 s acc seen b got source hread _ _ hstatus =>
    rw [readLength, hsource, hread]
    dsimp only
    split
    · rfl
    · next hother => rw [hstatus] at hother; cases hother
    · next hother => rw [hstatus] at hother; cases hother
  | case5 s acc seen b got source hread _ hstatus =>
    rw [readLength, hsource, hread]
    dsimp only
    split
    · next hother => rw [hstatus] at hother; cases hother
    · rfl
    · next hother => rw [hstatus] at hother; cases hother
  | case6 s acc seen b got source hread _ _ hstatus ih =>
    rw [readLength, hsource, hread]
    dsimp only
    split
    · next hother => rw [hstatus] at hother; cases hother
    · next hother => rw [hstatus] at hother; cases hother
    · exact ih

theorem moved_of_nextLength {r r' : Reader} {result : Except Error (Option (Nat × Bytes))}
    (h : r.nextLength = (result, r')) : r' = r.movedTo r' := by
  have hmoved := readLength_movedTo r r {} []
  rw [show r.readLength {} [] = (result, r') from h] at hmoved
  exact congrArg Prod.snd (h.symm.trans hmoved)

/-- The same for a body. -/
theorem readBody_movedTo (r s : Reader) (length : Nat) (short : FramingFault) :
    (r.movedTo s).readBody length short =
      ((s.readBody length short).1, r.movedTo (s.readBody length short).2) := by
  unfold readBody
  rw [show (r.movedTo s).source = s.source from rfl]
  rcases s.source.readFully length with ⟨_ | body, source⟩
  · rfl
  · dsimp only
    split <;> rfl

theorem moved_of_readBody {r r' : Reader} {length : Nat} {short : FramingFault}
    {result : Except Error Bytes} (h : r.readBody length short = (result, r')) :
    r' = r.movedTo r' := by
  have hmoved := readBody_movedTo r r length short
  rw [h] at hmoved
  exact congrArg Prod.snd (h.symm.trans hmoved)

/-! ## Headers and sections -/

/-- A header that was read is what the reader has taken. -/
theorem readHeader_gave {r r' : Reader} {header : Header} (hnew : r.header = none)
    (h : r.readHeader = (.ok header, r')) :
    r.source.Gave header.frame r'.source ∧ r'.options = r.options ∧ r'.header = some header := by
  rw [readHeader_of_new hnew] at h
  have hreads := r.readsNewHeader_readNewHeader
  rw [h] at hreads
  cases hreads with
  | read length lengthBytes body decoded r₁ r₂ hlength hpos hfits hbody =>
    have hpassed := (passed_of_nextLength hlength).2.trans (passed_of_readBody hbody)
    exact ⟨hpassed.source, hpassed.options, rfl⟩

theorem readHeader_of_isSome {r : Reader} (h : r.header.isSome = true) :
    ∃ header, r.readHeader = (.ok header, r) := by
  obtain ⟨header, hheader⟩ := Option.isSome_iff_exists.1 h
  exact ⟨header, readHeader_of_known hheader⟩

/-- Behind the header there are only sections. -/
theorem next_eq_nextSection {r : Reader} (h : r.header.isSome = true) : r.next = r.nextSection := by
  obtain ⟨header, hread⟩ := readHeader_of_isSome h
  rw [next, hread]

theorem passed_verify (r : Reader) (block : Block) : r.Passed [] (r.verify block).2 := by
  obtain ⟨unverified, hverify⟩ := r.verify_snd block
  rw [hverify]
  exact ⟨r.source.gave_nil, rfl, rfl⟩

/-- A section that was read is what the reader has taken behind its length. -/
theorem passed_of_readSection {r r' : Reader} {length : Nat} {lengthBytes : Bytes} {block : Block}
    (h : r.readSection length lengthBytes = (.ok block, r')) :
    block.lengthBytes = lengthBytes ∧ r.Passed (block.cid.bytes ++ block.payload) r' := by
  have hreads := r.readsSection_readSection length lengthBytes
  rw [h] at hreads
  cases hreads with
  | read body payload cid r₁ r₂ hbody hcid hverify =>
    have hpassed := passed_of_readBody hbody
    rw [Cid.bytes_append_of_decode? hcid] at hpassed
    have hkept := passed_verify { r₁ with blocksRead := r₁.blocksRead + 1 }
      { lengthBytes := lengthBytes, cid := cid, payload := payload }
    rw [hverify] at hkept
    have hcounted : r₁.Passed [] r' := ⟨hkept.source, hkept.options, hkept.header⟩
    have htrans := hpassed.trans hcounted
    rw [List.append_nil] at htrans
    exact ⟨rfl, htrans⟩

theorem passed_of_nextSection_some {r r' : Reader} {block : Block}
    (h : r.nextSection = (.ok (some block), r')) : r.Passed block.frame r' := by
  have hreads := r.readsOn_nextSection
  rw [h] at hreads
  cases hreads with
  | block length lengthBytes block r₁ r₂ hlength hpos hfits hsection =>
    obtain ⟨hbytes, hpassed⟩ := passed_of_readSection hsection
    rw [Block.frame_eq, hbytes]
    exact (passed_of_nextLength hlength).2.trans hpassed

theorem passed_of_nextSection_none {r r' : Reader} (h : r.nextSection = (.ok none, r')) :
    ∃ marker, IsEndMarker r.options marker ∧ r.Passed marker r' := by
  have hreads := r.readsOn_nextSection
  rw [h] at hreads
  cases hreads with
  | spent r₁ hlength => exact ⟨[], Or.inl rfl, (passed_of_readLength_none hlength).2⟩
  | marker lengthBytes r₁ hlength hends =>
    obtain ⟨hread, hpassed⟩ := passed_of_nextLength hlength
    exact ⟨lengthBytes, Or.inr ⟨hpassed.options ▸ hends, hread⟩, hpassed⟩

/-- A block that was read is what the reader has taken. -/
theorem passed_of_next_some {r r' : Reader} {block : Block} (hheader : r.header.isSome = true)
    (h : r.next = (.ok (some block), r')) : r.Passed block.frame r' := by
  obtain ⟨header, hread⟩ := readHeader_of_isSome hheader
  rw [next, hread] at h
  exact passed_of_nextSection_some h

/-- At the end of an archive only its marker is taken. -/
theorem passed_of_next_none {r r' : Reader} (hheader : r.header.isSome = true)
    (h : r.next = (.ok none, r')) :
    ∃ marker, IsEndMarker r.options marker ∧ r.Passed marker r' := by
  obtain ⟨header, hread⟩ := readHeader_of_isSome hheader
  rw [next, hread] at h
  exact passed_of_nextSection_none h

theorem header_of_readHeader {r r' : Reader} {header : Header}
    (h : r.readHeader = (.ok header, r')) : r'.header = some header := by
  cases hheader : r.header with
  | none => exact (readHeader_gave hheader h).2.2
  | some known =>
    rw [readHeader, hheader] at h
    cases h
    exact hheader

theorem isSome_of_readHeader {r r' : Reader} {header : Header}
    (h : r.readHeader = (.ok header, r')) : r'.header.isSome = true := by
  rw [header_of_readHeader h]
  rfl

/-- The next block comes behind the header, whether that was read before or not. -/
theorem next_of_readHeader {r r' : Reader} {header : Header}
    (h : r.readHeader = (.ok header, r')) : r.next = r'.next := by
  obtain ⟨header', hread⟩ := readHeader_of_isSome (isSome_of_readHeader h)
  simp only [next, h, hread]

/-- What a reader takes to read the header comes off the front of its source. -/
theorem exists_gave_of_readHeader {r r' : Reader} {header : Header}
    (h : r.readHeader = (.ok header, r')) : ∃ got, r.source.Gave got r'.source := by
  cases hheader : r.header with
  | none => exact ⟨header.frame, (readHeader_gave hheader h).1⟩
  | some known =>
    obtain ⟨header', hread⟩ := readHeader_of_isSome (r := r) (by simp [hheader])
    rw [hread] at h
    obtain rfl := (Prod.mk.inj h).2
    exact ⟨[], Source.gave_nil _⟩

theorem exists_gave_of_next {r r' : Reader} {block : Option Block} (h : r.next = (.ok block, r')) :
    ∃ got, r.source.Gave got r'.source := by
  have hreads := r.readsNext_next
  rw [h] at hreads
  cases hreads with
  | behind header r₁ result hread hsection =>
    obtain ⟨front, hfront⟩ := exists_gave_of_readHeader hread
    cases block with
    | some block => exact ⟨_, hfront.trans (passed_of_nextSection_some hsection).source⟩
    | none =>
      obtain ⟨marker, -, hpassed⟩ := passed_of_nextSection_none hsection
      exact ⟨_, hfront.trans hpassed.source⟩

/-- Reading does not close a source. -/
theorem closed_of_readHeader {r r' : Reader} {header : Header}
    (h : r.readHeader = (.ok header, r')) : r'.source.closed = r.source.closed := by
  obtain ⟨got, hgave⟩ := exists_gave_of_readHeader h
  exact hgave.closed

theorem closed_of_next {r r' : Reader} {block : Option Block} (h : r.next = (.ok block, r')) :
    r'.source.closed = r.source.closed := by
  obtain ⟨got, hgave⟩ := exists_gave_of_next h
  exact hgave.closed

/-! ## All blocks -/

/-- The blocks that are left of an archive, up to its end or to the first failure. -/
def blocks (r : Reader) : List Block :=
  match _h : r.next with
  | (.ok (some block), r') => block :: r'.blocks
  | _ => []
termination_by r.remaining
decreasing_by exact remaining_next_lt _h

theorem blocks_of_next {r r' : Reader} {block : Block} (h : r.next = (.ok (some block), r')) :
    r.blocks = block :: r'.blocks := by
  rw [blocks]
  split
  · next hnext =>
    rw [h] at hnext
    cases hnext
    rfl
  · next hnot => exact (hnot block r' h).elim

/-- The source holds the frames of all blocks that are left, one behind the other. -/
theorem exists_unread_eq {r : Reader} (hheader : r.header.isSome = true) :
    ∃ rest, r.source.unread = r.blocks.flatMap Block.frame ++ rest := by
  fun_induction blocks r with
  | case1 r block r' hnext ih =>
    have hpassed := passed_of_next_some hheader hnext
    obtain ⟨rest, hrest⟩ := ih (by rw [hpassed.header, hheader])
    refine ⟨rest, ?_⟩
    rw [hpassed.source.unread, hrest, List.flatMap_cons, List.append_assoc]
  | case2 r hnot => exact ⟨r.source.unread, rfl⟩

/-- The blocks of an archive come behind its header, whether that was read before or not. -/
theorem blocks_of_readHeader {r r' : Reader} {header : Header}
    (h : r.readHeader = (.ok header, r')) : r.blocks = r'.blocks := by
  have hnext := next_of_readHeader h
  rw [blocks, blocks]
  split
  · next block r₁ hsome =>
    rw [hnext] at hsome
    rw [hsome]
  · next hnot =>
    rw [← hnext]
    split
    · next block r₁ hsome => exact (hnot block r₁ hsome).elim
    · rfl

/-- The source holds the frame of the header, and behind it those of all blocks. -/
theorem exists_unread_eq_of_readHeader {r r' : Reader} {header : Header} (hnew : r.header = none)
    (h : r.readHeader = (.ok header, r')) :
    ∃ rest, r.source.unread = header.frame ++ r.blocks.flatMap Block.frame ++ rest := by
  obtain ⟨rest, hrest⟩ := exists_unread_eq (isSome_of_readHeader h)
  refine ⟨rest, ?_⟩
  rw [(readHeader_gave hnew h).1.unread, hrest, blocks_of_readHeader h, List.append_assoc]

end Reader

end Archive

end CarSlice
