import CarSlice.Archive.Reader

/-!
# The ways through a reader

The functions of a reader stop at the first failure, one behind the other.  Here every way through
such a function is listed once, with the calls on that way, so that nothing that is proved about it
takes it apart again.

* `ReadsBody`: the source fails, ends too early, or gives the whole body.
* `ReadsNewHeader`: what may be wrong with a header, one check behind the other.  A header that is
  known is not read again (`readHeader_of_known`).
* `VerifiesAs`: what becomes of a payload that is compared with its digest, and `verify_snd`: what
  that touches.
* `ReadsSection`, `ReadsOn` and `ReadsNext`: what may come of a section, of what stands behind the
  header, and of a call.
-/

namespace CarSlice.Archive.Reader

/-! ## Bodies -/

/-- What reading a body comes to. -/
inductive ReadsBody (r : Reader) (length : Nat) (short : FramingFault) :
    Except Error Bytes × Reader → Prop where
  | unread (e : Error) (source : Source)
      (hread : r.source.readFully length = (.error e, source)) :
      ReadsBody r length short (.error e, { r with source })
  | cut (body : Bytes) (source : Source) (hread : r.source.readFully length = (.ok body, source))
      (hlength : body.length ≠ length) :
      ReadsBody r length short
        (.error (framingError { r with source, bytesConsumed := r.bytesConsumed + body.length }
          short), { r with source, bytesConsumed := r.bytesConsumed + body.length })
  | whole (body : Bytes) (source : Source)
      (hread : r.source.readFully length = (.ok body, source)) (hlength : body.length = length) :
      ReadsBody r length short
        (.ok body, { r with source, bytesConsumed := r.bytesConsumed + body.length })

theorem readsBody_readBody (r : Reader) (length : Nat) (short : FramingFault) :
    r.ReadsBody length short (r.readBody length short) := by
  unfold readBody
  split
  · next e source hread => exact .unread e source hread
  · next body source hread =>
    dsimp only
    split
    · next hlength => exact .whole body source hread hlength
    · next hlength => exact .cut body source hread hlength

/-! ## The header -/

theorem readHeader_of_known {r : Reader} {header : Header} (h : r.header = some header) :
    r.readHeader = (.ok header, r) := by
  rw [readHeader, h]

theorem readHeader_of_new {r : Reader} (h : r.header = none) :
    r.readHeader = r.readNewHeader := by
  rw [readHeader, h]

/-- What reading a header from the source comes to. -/
inductive ReadsNewHeader (r : Reader) : Except Error Header × Reader → Prop where
  | noLength (e : Error) (r₁ : Reader) (hlength : r.nextLength = (.error e, r₁)) :
      ReadsNewHeader r (.error e, r₁)
  | missing (r₁ : Reader) (hlength : r.nextLength = (.ok none, r₁)) :
      ReadsNewHeader r (.error (r₁.framingError .headerTruncated), r₁)
  | empty (lengthBytes : Bytes) (r₁ : Reader)
      (hlength : r.nextLength = (.ok (some (0, lengthBytes)), r₁)) :
      ReadsNewHeader r (.error (r₁.framingError .headerTruncated), r₁)
  | tooLarge (length : Nat) (lengthBytes : Bytes) (r₁ : Reader)
      (hlength : r.nextLength = (.ok (some (length, lengthBytes)), r₁)) (hpos : length ≠ 0)
      (hlarge : r₁.options.maxHeaderSize < length) :
      ReadsNewHeader r (.error (r₁.framingError .headerTooLarge), r₁)
  | noBody (length : Nat) (lengthBytes : Bytes) (e : Error) (r₁ r₂ : Reader)
      (hlength : r.nextLength = (.ok (some (length, lengthBytes)), r₁)) (hpos : length ≠ 0)
      (hfits : ¬r₁.options.maxHeaderSize < length)
      (hbody : r₁.readBody length .headerTruncated = (.error e, r₂)) :
      ReadsNewHeader r (.error e, r₂)
  | malformed (length : Nat) (lengthBytes body : Bytes) (fault : HeaderFault) (r₁ r₂ : Reader)
      (hlength : r.nextLength = (.ok (some (length, lengthBytes)), r₁)) (hpos : length ≠ 0)
      (hfits : ¬r₁.options.maxHeaderSize < length)
      (hbody : r₁.readBody length .headerTruncated = (.ok body, r₂))
      (hdecode : Header.decode body = .error fault) : ReadsNewHeader r (.error (.header fault), r₂)
  | read (length : Nat) (lengthBytes body : Bytes) (decoded : Header) (r₁ r₂ : Reader)
      (hlength : r.nextLength = (.ok (some (length, lengthBytes)), r₁)) (hpos : length ≠ 0)
      (hfits : ¬r₁.options.maxHeaderSize < length)
      (hbody : r₁.readBody length .headerTruncated = (.ok body, r₂))
      (hdecode : Header.decode body = .ok decoded) :
      ReadsNewHeader r (.ok { decoded with frame := lengthBytes ++ body },
        { r₂ with header := some { decoded with frame := lengthBytes ++ body } })

theorem readsNewHeader_readNewHeader (r : Reader) : r.ReadsNewHeader r.readNewHeader := by
  unfold readNewHeader
  split
  · next e r₁ hlength => exact .noLength e r₁ hlength
  · next r₁ hlength => exact .missing r₁ hlength
  · next length lengthBytes r₁ hlength =>
    split
    · next hzero => exact .empty lengthBytes r₁ (hzero ▸ hlength)
    · next hpos =>
      split
      · next hlarge => exact .tooLarge length lengthBytes r₁ hlength hpos hlarge
      · next hfits =>
        split
        · next e r₂ hbody => exact .noBody length lengthBytes e r₁ r₂ hlength hpos hfits hbody
        · next body r₂ hbody =>
          split
          · next fault hdecode =>
            exact .malformed length lengthBytes body fault r₁ r₂ hlength hpos hfits hbody hdecode
          · next decoded hdecode =>
            exact .read length lengthBytes body decoded r₁ r₂ hlength hpos hfits hbody hdecode

/-! ## Sections -/

/-- What comparing a payload with the digest of its CID comes to. -/
inductive VerifiesAs (r : Reader) (block : Block) : Except Error Unit × Reader → Prop where
  | unchecked (hoff : r.options.verifyDigests = false) : VerifiesAs r block (.ok (), r)
  | matching (hon : r.options.verifyDigests = true)
      (hcheck : Multihash.check block.cid.hashCode block.cid.digest block.payload = .matching) :
      VerifiesAs r block (.ok (), r)
  | unsupported (hon : r.options.verifyDigests = true)
      (hcheck : Multihash.check block.cid.hashCode block.cid.digest block.payload = .unsupported) :
      VerifiesAs r block (.ok (), { r with unverified := r.unverified + 1 })
  | differing (hon : r.options.verifyDigests = true)
      (hcheck : Multihash.check block.cid.hashCode block.cid.digest block.payload = .differing) :
      VerifiesAs r block (.error (.digestMismatch block.cid.toText), r)

theorem verifiesAs_verify (r : Reader) (block : Block) : r.VerifiesAs block (r.verify block) := by
  unfold verify
  split
  · next hon =>
    split
    · next hcheck => exact .matching hon hcheck
    · next hcheck => exact .unsupported hon hcheck
    · next hcheck => exact .differing hon hcheck
  · next hoff => exact .unchecked (by simpa using hoff)

theorem verify_snd (r : Reader) (block : Block) :
    ∃ unverified, (r.verify block).2 = { r with unverified } := by
  have hverifies := r.verifiesAs_verify block
  generalize r.verify block = result at hverifies
  cases hverifies with
  | unsupported => exact ⟨r.unverified + 1, rfl⟩
  | unchecked | matching | differing => exact ⟨r.unverified, rfl⟩

/-- What reading a section comes to. -/
inductive ReadsSection (r : Reader) (length : Nat) (lengthBytes : Bytes) :
    Except Error Block × Reader → Prop where
  | noBody (e : Error) (r₁ : Reader)
      (hbody : r.readBody length .sectionTruncated = (.error e, r₁)) :
      ReadsSection r length lengthBytes (.error e, r₁)
  | badCid (body : Bytes) (r₁ : Reader)
      (hbody : r.readBody length .sectionTruncated = (.ok body, r₁))
      (hcid : Cid.decode? body = none) :
      ReadsSection r length lengthBytes (.error (r₁.framingError .badCid), r₁)
  | refused (body payload : Bytes) (cid : Cid) (e : Error) (r₁ r₂ : Reader)
      (hbody : r.readBody length .sectionTruncated = (.ok body, r₁))
      (hcid : Cid.decode? body = some (cid, payload))
      (hverify : { r₁ with blocksRead := r₁.blocksRead + 1 }.verify ⟨lengthBytes, cid, payload⟩ =
        (.error e, r₂)) : ReadsSection r length lengthBytes (.error e, r₂)
  | read (body payload : Bytes) (cid : Cid) (r₁ r₂ : Reader)
      (hbody : r.readBody length .sectionTruncated = (.ok body, r₁))
      (hcid : Cid.decode? body = some (cid, payload))
      (hverify : { r₁ with blocksRead := r₁.blocksRead + 1 }.verify ⟨lengthBytes, cid, payload⟩ =
        (.ok (), r₂)) : ReadsSection r length lengthBytes (.ok ⟨lengthBytes, cid, payload⟩, r₂)

theorem readsSection_readSection (r : Reader) (length : Nat) (lengthBytes : Bytes) :
    r.ReadsSection length lengthBytes (r.readSection length lengthBytes) := by
  unfold readSection
  split
  · next e r₁ hbody => exact .noBody e r₁ hbody
  · next body r₁ hbody =>
    split
    · next hcid => exact .badCid body r₁ hbody hcid
    · next cid payload hcid =>
      dsimp only
      split
      · next e r₂ hverify => exact .refused body payload cid e r₁ r₂ hbody hcid hverify
      · next r₂ hverify => exact .read body payload cid r₁ r₂ hbody hcid hverify

/-- What reading on behind the header comes to. -/
inductive ReadsOn (r : Reader) : Except Error (Option Block) × Reader → Prop where
  | noLength (e : Error) (r₁ : Reader) (hlength : r.nextLength = (.error e, r₁)) :
      ReadsOn r (.error e, r₁)
  | spent (r₁ : Reader) (hlength : r.nextLength = (.ok none, r₁)) : ReadsOn r (.ok none, r₁)
  | marker (lengthBytes : Bytes) (r₁ : Reader)
      (hlength : r.nextLength = (.ok (some (0, lengthBytes)), r₁))
      (hends : r₁.options.emptyEndsArchive = true) : ReadsOn r (.ok none, r₁)
  | empty (lengthBytes : Bytes) (r₁ : Reader)
      (hlength : r.nextLength = (.ok (some (0, lengthBytes)), r₁))
      (hends : r₁.options.emptyEndsArchive = false) :
      ReadsOn r (.error (r₁.framingError .sectionEmpty), r₁)
  | tooLarge (length : Nat) (lengthBytes : Bytes) (r₁ : Reader)
      (hlength : r.nextLength = (.ok (some (length, lengthBytes)), r₁)) (hpos : length ≠ 0)
      (hlarge : r₁.options.maxSectionSize < length) :
      ReadsOn r (.error (r₁.framingError .sectionTooLarge), r₁)
  | failed (length : Nat) (lengthBytes : Bytes) (e : Error) (r₁ r₂ : Reader)
      (hlength : r.nextLength = (.ok (some (length, lengthBytes)), r₁)) (hpos : length ≠ 0)
      (hfits : ¬r₁.options.maxSectionSize < length)
      (hsection : r₁.readSection length lengthBytes = (.error e, r₂)) : ReadsOn r (.error e, r₂)
  | block (length : Nat) (lengthBytes : Bytes) (block : Block) (r₁ r₂ : Reader)
      (hlength : r.nextLength = (.ok (some (length, lengthBytes)), r₁)) (hpos : length ≠ 0)
      (hfits : ¬r₁.options.maxSectionSize < length)
      (hsection : r₁.readSection length lengthBytes = (.ok block, r₂)) :
      ReadsOn r (.ok (some block), r₂)

theorem readsOn_nextSection (r : Reader) : r.ReadsOn r.nextSection := by
  unfold nextSection
  split
  · next e r₁ hlength => exact .noLength e r₁ hlength
  · next r₁ hlength => exact .spent r₁ hlength
  · next length lengthBytes r₁ hlength =>
    split
    · next hzero =>
      subst hzero
      split
      · next hends => exact .marker lengthBytes r₁ hlength hends
      · next hends => exact .empty lengthBytes r₁ hlength (by simpa using hends)
    · next hpos =>
      split
      · next hlarge => exact .tooLarge length lengthBytes r₁ hlength hpos hlarge
      · next hfits =>
        split
        · next e r₂ hsection => exact .failed length lengthBytes e r₁ r₂ hlength hpos hfits hsection
        · next block r₂ hsection =>
          exact .block length lengthBytes block r₁ r₂ hlength hpos hfits hsection

/-- What a call comes to. -/
inductive ReadsNext (r : Reader) : Except Error (Option Block) × Reader → Prop where
  | noHeader (e : Error) (r₁ : Reader) (hheader : r.readHeader = (.error e, r₁)) :
      ReadsNext r (.error e, r₁)
  | behind (header : Header) (r₁ : Reader) (result : Except Error (Option Block) × Reader)
      (hheader : r.readHeader = (.ok header, r₁)) (hsection : r₁.nextSection = result) :
      ReadsNext r result

theorem readsNext_next (r : Reader) : r.ReadsNext r.next := by
  unfold next
  split
  · next e r₁ hheader => exact .noHeader e r₁ hheader
  · next header r₁ hheader => exact .behind header r₁ _ hheader rfl

end CarSlice.Archive.Reader
