import CarSlice.Proofs.Archive.Rereading
import CarSlice.Proofs.Archive.Unread
import CarSlice.Proofs.Cid
import CarSlice.UnixFs

/-!
# Archives of the same shape

Two archives have the same shape if they have the same header, and their sections the same lengths
and the same CIDs.  What is in a section may differ, unless its codec says that it may be a node of
a file tree.

* `Block.SameShape`, `SameSections` and `SameShape` say so of a section, of what is behind a header
  and of an archive.
* `Reader.Alike`: a reader that does not compare digests, and another archive that it would read in
  the same way.  `Alike.readHeader` and `Alike.next` say what comes of it.
-/

namespace CarSlice

open UnixFs (Content)

namespace Archive

/-- Two sections of the same length with the same CID, and with the same payload if the codec is
dag-pb. -/
structure Block.SameShape (b b' : Block) : Prop where
  framed : ∃ maxSize, b.Readable maxSize
  framed' : ∃ maxSize, b'.Readable maxSize
  lengthBytes : b'.lengthBytes = b.lengthBytes
  cidBytes : b'.cid.bytes = b.cid.bytes
  payload : b.cid.codec = Codec.dagPb → b'.payload = b.payload

/-- Bytes behind a header that differ in nothing but the payloads of sections that are no dag-pb,
and in what is behind a section of length zero. -/
inductive SameSections : Bytes → Bytes → Prop where
  | same (bytes : Bytes) : SameSections bytes bytes
  | marker {marker : Bytes} (h : Varint.read? marker = some (0, [])) (junk junk' : Bytes) :
      SameSections (marker ++ junk) (marker ++ junk')
  | block {b b' : Block} {rest rest' : Bytes} (hb : b.SameShape b') (h : SameSections rest rest') :
      SameSections (b.frame ++ rest) (b'.frame ++ rest')

/-- Archives with the same header and with sections of the same shape. -/
inductive SameShape : Bytes → Bytes → Prop where
  | header {header : Header} {rest rest' : Bytes} (hheader : ∃ maxSize, header.Readable maxSize)
      (h : SameSections rest rest') : SameShape (header.frame ++ rest) (header.frame ++ rest')

/-! ## Sections -/

namespace Block

theorem Readable.sameShape {b : Block} {maxSize : Nat} (h : b.Readable maxSize) : b.SameShape b :=
  ⟨⟨maxSize, h⟩, ⟨maxSize, h⟩, rfl, rfl, fun _ => rfl⟩

namespace SameShape

variable {b b' : Block} (h : b.SameShape b')

include h

/-- The bytes of a CID say all of it. -/
theorem cid : b'.cid = b.cid := by
  obtain ⟨_, hb⟩ := h.framed
  obtain ⟨_, hb'⟩ := h.framed'
  have hleft : Cid.decode? b.cid.bytes = some (b.cid, []) := Cid.coherent_of_decode? hb.cid
  have hright : Cid.decode? b'.cid.bytes = some (b'.cid, []) := Cid.coherent_of_decode? hb'.cid
  rw [h.cidBytes, hleft] at hright
  exact (congrArg Prod.fst (Option.some.inj hright)).symm

theorem length : (b'.cid.bytes ++ b'.payload).length = (b.cid.bytes ++ b.payload).length := by
  obtain ⟨_, hb⟩ := h.framed
  obtain ⟨_, hb'⟩ := h.framed'
  have hlength := hb'.length
  rw [h.lengthBytes, hb.length] at hlength
  exact (congrArg Prod.fst (Option.some.inj hlength)).symm

theorem length_payload : b'.payload.length = b.payload.length := by
  have hlength := h.length
  rw [List.length_append, List.length_append, h.cidBytes] at hlength
  exact Nat.add_left_cancel hlength

theorem length_frame : b'.frame.length = b.frame.length := by
  rw [frame_eq, frame_eq, h.lengthBytes, List.length_append, h.length, ← List.length_append]

/-- Only a payload that may be a node is looked at. -/
theorem content : Content.ofBlock b' = Content.ofBlock b := by
  unfold Content.ofBlock Content.ofPayload
  rw [h.cid]
  by_cases htag : b.cid.tag = .dagPb
  · have hcodec : b.cid.codec = Codec.dagPb := by
      unfold Cid.tag Codec.tag at htag
      split at htag
      · next hcodec => exact hcodec
      · split at htag
        · cases htag
        · split at htag
          · cases htag
          · cases htag
    rw [h.payload hcodec]
  · rw [if_neg htag, if_neg htag, h.length_payload]

theorem replaces {options : ReaderOptions} (hoff : options.verifyDigests = false) :
    b.Replaces b' options := by
  obtain ⟨_, hb'⟩ := h.framed'
  exact ⟨h.lengthBytes, h.length, hb'.cid, Or.inr hoff⟩

theorem readable {maxSize : Nat} (hsize : (b.cid.bytes ++ b.payload).length ≤ maxSize) :
    b.Readable maxSize := by
  obtain ⟨_, hb⟩ := h.framed
  exact ⟨hb.length, hsize, hb.cid⟩

end SameShape

end Block

/-! ## Readers -/

namespace Reader

/-- A reader that does not compare digests, and other bytes that have the same shape as those in
its source. -/
structure Alike (r : Reader) (bytes : Bytes) : Prop where
  unchecked : r.options.verifyDigests = false
  unread : r.source.closed = false →
    r.header = none ∧ SameShape r.source.unread bytes ∨
      r.header.isSome = true ∧ SameSections r.source.unread bytes

/-- What was read, and what was read of other bytes of the same shape. -/
inductive ReadsAlike :
    Except Error (Option Block) × Reader → Except Error (Option Block) × Reader → Prop where
  | failed (e : Error) (r : Reader) (bytes : Bytes) :
      ReadsAlike (.error e, r) (.error e, r.withUnread bytes)
  | ended (r : Reader) (bytes : Bytes) : ReadsAlike (.ok none, r) (.ok none, r.withUnread bytes)
  | block {b b' : Block} {r : Reader} {bytes : Bytes} (hb : b.SameShape b') (h : r.Alike bytes) :
      ReadsAlike (.ok (some b), r) (.ok (some b'), r.withUnread bytes)

/-- A header that was read, and that of other bytes of the same shape. -/
inductive HeadsAlike : Except Error Header × Reader → Except Error Header × Reader → Prop where
  | failed (e : Error) (r : Reader) (bytes : Bytes) :
      HeadsAlike (.error e, r) (.error e, r.withUnread bytes)
  | header (header : Header) {r : Reader} {bytes : Bytes} (hknown : r.header.isSome = true)
      (h : r.Alike bytes) : HeadsAlike (.ok header, r) (.ok header, r.withUnread bytes)

theorem nextLength_of_closed {r : Reader} (h : r.source.closed = true) :
    r.nextLength = (.ok none, r) := by
  have hread : r.source.read 1 = (.ok [], r.source) := by
    simp [Source.read, h]
  rw [nextLength, readLength, hread]
  rfl

variable {r : Reader} {bytes : Bytes}

theorem Alike.readHeader (h : r.Alike bytes) :
    HeadsAlike r.readHeader (r.withUnread bytes).readHeader := by
  cases hheader : r.header with
  | some known =>
    have hleft : r.readHeader = (.ok known, r) := by
      rw [Reader.readHeader, hheader]
    have hright : (r.withUnread bytes).readHeader = (.ok known, r.withUnread bytes) := by
      have hheader' : (r.withUnread bytes).header = some known := hheader
      rw [Reader.readHeader, hheader']
    rw [hleft, hright]
    exact .header known (by rw [hheader]; rfl) h
  | none =>
    have hheader' (bytes : Bytes) : (r.withUnread bytes).header = none := hheader
    cases hclosed : r.source.closed with
    | true =>
      have hleft := nextLength_of_closed hclosed
      have hright : (r.withUnread bytes).nextLength = (.ok none, r.withUnread bytes) :=
        nextLength_of_closed hclosed
      rw [Reader.readHeader, hheader, Reader.readHeader, hheader']
      dsimp only
      rw [readNewHeader, hleft, readNewHeader, hright]
      exact .failed _ r bytes
    | false =>
      rcases h.unread hclosed with ⟨-, hshape⟩ | ⟨hsome, -⟩
      · generalize hunread : r.source.unread = unread at hshape
        cases hshape with
        | @header header rest rest' hreadable hrest =>
          obtain ⟨maxSize, hreadable⟩ := hreadable
          by_cases hfits : header.Readable r.options.maxHeaderSize
          · obtain ⟨r₁, hread, hgave, hoptions, hknown⟩ :=
              readHeader_of_readable hheader hfits hclosed hunread
            have hsome : r₁.header.isSome = true := by
              rw [hknown]
              rfl
            rw [hread, readHeader_append hheader hread rest']
            refine .header header hsome ⟨hoptions ▸ h.unchecked, fun _ => Or.inr ⟨hsome, ?_⟩⟩
            rw [hgave.unread_eq hunread]
            exact hrest
          · -- A header that is too large is not read behind its length.
            obtain ⟨lengthBytes, body, decoded, hlength, hsize, hdecode, rfl⟩ := hreadable
            have htoo : r.options.maxHeaderSize < body.length :=
              Nat.lt_of_not_le fun hle => hfits ⟨lengthBytes, body, decoded, hlength, hle, hdecode, rfl⟩
            have hunread : r.source.unread = lengthBytes ++ (body ++ rest) := by
              rw [hunread, List.append_assoc]
            obtain ⟨r₁, hread, hpassed⟩ := nextLength_of_read? hlength hclosed hunread
            have hread' := nextLength_append hread (body ++ rest')
            have hpositive : body.length ≠ 0 := Nat.ne_of_gt (Nat.lt_of_le_of_lt (Nat.zero_le _) htoo)
            have htoo₁ : r₁.options.maxHeaderSize < body.length := by
              rw [hpassed.options]
              exact htoo
            have htoo₂ : (r₁.withUnread (body ++ rest')).options.maxHeaderSize < body.length := htoo₁
            rw [List.append_assoc, Reader.readHeader, hheader, Reader.readHeader, hheader']
            dsimp only
            rw [readNewHeader, hread, readNewHeader, hread']
            dsimp only
            rw [if_neg hpositive, if_neg hpositive, if_pos htoo₁, if_pos htoo₂]
            exact .failed _ r₁ _
      · rw [hheader] at hsome
        cases hsome

/-- A section in the place of another one of the same shape. -/
theorem readsAlike_block {b b' : Block} {rest rest' : Bytes} (hopen : r.source.closed = false)
    (hoff : r.options.verifyDigests = false) (hknown : r.header.isSome = true)
    (hb : b.SameShape b') (hrest : SameSections rest rest')
    (hunread : r.source.unread = b.frame ++ rest) :
    ReadsAlike r.nextSection (r.withUnread (b'.frame ++ rest')).nextSection := by
  by_cases hsize : (b.cid.bytes ++ b.payload).length ≤ r.options.maxSectionSize
  · obtain ⟨r₁, hsection, hpassed⟩ := next_of_verifies hknown (b.verifies_of_unchecked hoff)
      (hb.readable hsize) hopen hunread
    rw [next_eq_nextSection hknown] at hsection
    rw [hsection, nextSection_append hsection (hb.replaces hoff) rest']
    refine .block hb ⟨hpassed.options ▸ hoff, fun _ => Or.inr ⟨by rw [hpassed.header, hknown], ?_⟩⟩
    rw [hpassed.source.unread_eq hunread]
    exact hrest
  · -- A section that is too large is not read behind its length.
    obtain ⟨_, hframed⟩ := hb.framed
    rw [Block.frame_eq, List.append_assoc] at hunread
    obtain ⟨r₁, hread, hpassed⟩ := nextLength_of_read? hframed.length hopen hunread
    have hread' := nextLength_append hread (b'.cid.bytes ++ b'.payload ++ rest')
    have htoo₁ : r₁.options.maxSectionSize < (b.cid.bytes ++ b.payload).length := by
      rw [hpassed.options]
      exact Nat.lt_of_not_le hsize
    have htoo₂ : (r₁.withUnread (b'.cid.bytes ++ b'.payload ++ rest')).options.maxSectionSize <
        (b.cid.bytes ++ b.payload).length := htoo₁
    rw [Block.frame_eq, List.append_assoc, hb.lengthBytes, nextSection, hread, nextSection, hread']
    dsimp only
    rw [if_neg hframed.length_pos, if_neg hframed.length_pos, if_pos htoo₁, if_pos htoo₂]
    exact .failed _ r₁ _

theorem Alike.nextSection (h : r.Alike bytes) (hknown : r.header.isSome = true) :
    ReadsAlike r.nextSection (r.withUnread bytes).nextSection := by
  cases hclosed : r.source.closed with
  | true =>
    have hleft := nextLength_of_closed hclosed
    have hright : (r.withUnread bytes).nextLength = (.ok none, r.withUnread bytes) :=
      nextLength_of_closed hclosed
    rw [Reader.nextSection, hleft, Reader.nextSection, hright]
    exact .ended r bytes
  | false =>
    rcases h.unread hclosed with ⟨hnone, -⟩ | ⟨-, hsections⟩
    · rw [hnone] at hknown
      cases hknown
    · generalize hunread : r.source.unread = unread at hsections
      cases hsections with
      | same =>
        subst hunread
        show ReadsAlike r.nextSection r.nextSection
        rcases hsection : r.nextSection with ⟨e | _ | b, r₁⟩
        · exact .failed e r₁ r₁.source.unread
        · exact .ended r₁ r₁.source.unread
        · have hpassed := passed_of_nextSection_some hsection
          have halike : r₁.Alike r₁.source.unread :=
            ⟨hpassed.options ▸ h.unchecked, fun _ =>
              Or.inr ⟨by rw [hpassed.header, hknown], .same r₁.source.unread⟩⟩
          exact .block (readable_of_nextSection hsection).sameShape halike
      | marker hmarker junk junk' =>
        obtain ⟨r₁, hread, hpassed⟩ := nextLength_of_read? hmarker hclosed hunread
        have hread' := nextLength_append hread junk'
        have hends : (r₁.withUnread junk').options.emptyEndsArchive = r₁.options.emptyEndsArchive :=
          rfl
        rw [Reader.nextSection, hread, Reader.nextSection, hread']
        dsimp only
        rw [if_pos rfl, if_pos rfl, hends]
        split
        · exact .ended r₁ junk'
        · exact .failed _ r₁ junk'
      | block hb hrest =>
        exact readsAlike_block hclosed h.unchecked hknown hb hrest hunread

/-- Archives of the same shape are read in the same way. -/
theorem Alike.next (h : r.Alike bytes) : ReadsAlike r.next (r.withUnread bytes).next := by
  have hheads := h.readHeader
  unfold Reader.next
  generalize r.readHeader = x at hheads
  generalize (r.withUnread bytes).readHeader = y at hheads
  cases hheads with
  | failed e r₁ bytes' => exact .failed e r₁ bytes'
  | header header hknown hafter => exact hafter.nextSection hknown

end Reader

end Archive

end CarSlice
