import CarSlice.Proofs.Archive.Rereading

/-!
# Checked digests

A reader that compares digests returns a block only after it has judged its payload, and refuses
it for the payload alone.

* `Block.Genuine`, `Block.Forged` and `Block.isUnverifiable` are the three things that a payload
  can be to the CID in front of it.
* `Reader.Judges` takes the reading of a block apart: it fails or ends before the payload is
  judged, and the count of unverified blocks is as it was, or a whole section was read and
  `verify` has the last word.
* `genuine_of_next` and `unverified_of_next` follow for a block that was returned, and
  `Faces.next_of_forged` says what becomes of a section whose digest differs.
-/

namespace CarSlice

namespace Multihash

theorem check_eq_unsupported_iff {code : Nat} {expected data : Bytes} :
    check code expected data = .unsupported ↔ function? code = none := by
  unfold check
  split
  · next h => simp [h]
  · next hash h =>
    rw [h]
    split <;> simp

theorem check_eq_differing_iff {code : Nat} {expected data : Bytes} :
    check code expected data = .differing ↔
      ∃ hash, function? code = some hash ∧ hash data ≠ expected := by
  unfold check
  split
  · next h => simp [h]
  · next hash h =>
    rw [h]
    split
    · next heq => simpa using heq
    · next hne => simpa using hne

end Multihash

namespace Archive

/-! ## Blocks and their digests -/

/-- The hash function of the CID can be recomputed, and of the payload it gives the digest of the
CID, all of it and nothing else. -/
def Block.Genuine (b : Block) : Prop :=
  ∃ hash, Multihash.function? b.cid.hashCode = some hash ∧ hash b.payload = b.cid.digest

/-- The hash function of the CID can be recomputed, and of the payload it gives another digest. -/
def Block.Forged (b : Block) : Prop :=
  ∃ hash, Multihash.function? b.cid.hashCode = some hash ∧ hash b.payload ≠ b.cid.digest

/-- The hash function of the CID cannot be recomputed. -/
def Block.isUnverifiable (b : Block) : Bool :=
  (Multihash.function? b.cid.hashCode).isNone

theorem Block.forged_iff {b : Block} :
    b.Forged ↔ Multihash.check b.cid.hashCode b.cid.digest b.payload = .differing :=
  Multihash.check_eq_differing_iff.symm

instance (b : Block) : Decidable b.Forged :=
  decidable_of_iff _ Block.forged_iff.symm

/-- A payload that was checked and passes is genuine, or there is no telling. -/
theorem Block.Verifies.genuine {b : Block} {options : ReaderOptions} (h : b.Verifies options)
    (hchecked : options.verifyDigests = true) : b.Genuine ∨ b.isUnverifiable = true := by
  cases hhash : Multihash.function? b.cid.hashCode with
  | none => exact Or.inr (by simp [isUnverifiable, hhash])
  | some hash =>
    refine Or.inl ⟨hash, hhash, ?_⟩
    by_contra hdiffers
    exact h hchecked (Block.forged_iff.1 ⟨hash, hhash, hdiffers⟩)

theorem Block.Forged.not_unverifiable {b : Block} (h : b.Forged) : b.isUnverifiable = false := by
  obtain ⟨hash, hhash, -⟩ := h
  simp [isUnverifiable, hhash]

namespace Reader

/-! ## What is not judged -/

/-- A reader that has read on and has judged nothing meanwhile. -/
structure Advances (r r' : Reader) : Prop where
  options : r'.options = r.options
  unverified : r'.unverified = r.unverified
  header : ∀ header, r.header = some header → r'.header = some header

theorem advances_refl (r : Reader) : r.Advances r :=
  ⟨rfl, rfl, fun _ h => h⟩

theorem Advances.trans {r r' r'' : Reader} (h : r.Advances r') (h' : r'.Advances r'') :
    r.Advances r'' :=
  ⟨h'.options.trans h.options, h'.unverified.trans h.unverified,
    fun header hheader => h'.header header (h.header header hheader)⟩

theorem advances_of_nextLength {r r' : Reader} {result : Except Error (Option (Nat × Bytes))}
    (h : r.nextLength = (result, r')) : r.Advances r' := by
  rw [moved_of_nextLength h]
  exact ⟨rfl, rfl, fun _ h => h⟩

theorem advances_of_readBody {r r' : Reader} {length : Nat} {short : FramingFault}
    {result : Except Error Bytes} (h : r.readBody length short = (result, r')) :
    r.Advances r' := by
  rw [moved_of_readBody h]
  exact ⟨rfl, rfl, fun _ h => h⟩

theorem advances_of_readHeader {r r' : Reader} {result : Except Error Header}
    (h : r.readHeader = (result, r')) : r.Advances r' := by
  cases hheader : r.header with
  | some known =>
    rw [readHeader_of_known hheader] at h
    cases h
    exact r.advances_refl
  | none =>
    rw [readHeader_of_new hheader] at h
    have hreads := r.readsNewHeader_readNewHeader
    rw [h] at hreads
    cases hreads with
    | noLength e r₁ hlength => exact advances_of_nextLength hlength
    | missing r₁ hlength => exact advances_of_nextLength hlength
    | empty lengthBytes r₁ hlength => exact advances_of_nextLength hlength
    | tooLarge length lengthBytes r₁ hlength => exact advances_of_nextLength hlength
    | noBody length lengthBytes e r₁ r₂ hlength hpos hfits hbody =>
      exact (advances_of_nextLength hlength).trans (advances_of_readBody hbody)
    | malformed length lengthBytes body fault r₁ r₂ hlength hpos hfits hbody =>
      exact (advances_of_nextLength hlength).trans (advances_of_readBody hbody)
    | read length lengthBytes body decoded r₁ r₂ hlength hpos hfits hbody =>
      have hadvances := (advances_of_nextLength hlength).trans (advances_of_readBody hbody)
      refine ⟨hadvances.options, hadvances.unverified, fun known hknown => ?_⟩
      rw [hheader] at hknown
      cases hknown

/-! ## What is judged -/

/-- What the reading of a block comes to: nothing is judged, or a section was read and its payload
is judged last. -/
inductive Judges (r : Reader) : Except Error (Option Block) × Reader → Prop where
  | unread (result : Except Error (Option Block)) (r' : Reader) (hadvances : r.Advances r')
      (hnone : ∀ block, result ≠ .ok (some block)) : Judges r (result, r')
  | read (block : Block) (r' : Reader) (hadvances : r.Advances r') :
      Judges r ((r'.verify block).1.map fun _ => some block, (r'.verify block).2)

theorem Judges.of_advances {r r' : Reader} {result : Except Error (Option Block) × Reader}
    (h : r'.Judges result) (hadvances : r.Advances r') : r.Judges result := by
  cases h with
  | unread result r'' hadvances' hnone =>
    exact .unread result r'' (hadvances.trans hadvances') hnone
  | read block r'' hadvances' => exact .read block r'' (hadvances.trans hadvances')

theorem judges_readSection (r : Reader) (length : Nat) (lengthBytes : Bytes) :
    r.Judges ((r.readSection length lengthBytes).1.map some,
      (r.readSection length lengthBytes).2) := by
  have hcounted {body : Bytes} {r₁ : Reader}
      (hbody : r.readBody length .sectionTruncated = (.ok body, r₁)) :
      r.Advances { r₁ with blocksRead := r₁.blocksRead + 1 } := by
    have hadvances := advances_of_readBody hbody
    exact ⟨hadvances.options, hadvances.unverified, hadvances.header⟩
  have hreads := r.readsSection_readSection length lengthBytes
  generalize r.readSection length lengthBytes = result at hreads
  cases hreads with
  | noBody e r₁ hbody => exact .unread (.error e) r₁ (advances_of_readBody hbody) (by simp)
  | badCid body r₁ hbody =>
    exact .unread _ r₁ (advances_of_readBody hbody) (by simp [Except.map])
  | refused body payload cid e r₁ r₂ hbody hcid hverify =>
    have hread := Judges.read ⟨lengthBytes, cid, payload⟩ _ (hcounted hbody)
    rw [hverify] at hread
    exact hread
  | read body payload cid r₁ r₂ hbody hcid hverify =>
    have hread := Judges.read ⟨lengthBytes, cid, payload⟩ _ (hcounted hbody)
    rw [hverify] at hread
    exact hread

theorem judges_nextSection (r : Reader) : r.Judges r.nextSection := by
  have hsections {length : Nat} {lengthBytes : Bytes} {r₁ : Reader}
      (hlength : r.nextLength = (.ok (some (length, lengthBytes)), r₁)) :
      r.Judges ((r₁.readSection length lengthBytes).1.map some,
        (r₁.readSection length lengthBytes).2) :=
    (r₁.judges_readSection length lengthBytes).of_advances (advances_of_nextLength hlength)
  have hreads := r.readsOn_nextSection
  generalize r.nextSection = result at hreads
  cases hreads with
  | noLength e r₁ hlength => exact .unread (.error e) r₁ (advances_of_nextLength hlength) (by simp)
  | spent r₁ hlength => exact .unread (.ok none) r₁ (advances_of_nextLength hlength) (by simp)
  | marker lengthBytes r₁ hlength =>
    exact .unread (.ok none) r₁ (advances_of_nextLength hlength) (by simp)
  | empty lengthBytes r₁ hlength => exact .unread _ r₁ (advances_of_nextLength hlength) (by simp)
  | tooLarge length lengthBytes r₁ hlength =>
    exact .unread _ r₁ (advances_of_nextLength hlength) (by simp)
  | failed length lengthBytes e r₁ r₂ hlength hpos hfits hsection =>
    have hjudges := hsections hlength
    rw [hsection] at hjudges
    exact hjudges
  | block length lengthBytes block r₁ r₂ hlength hpos hfits hsection =>
    have hjudges := hsections hlength
    rw [hsection] at hjudges
    exact hjudges

theorem judges_next (r : Reader) : r.Judges r.next := by
  have hreads := r.readsNext_next
  generalize r.next = result at hreads
  cases hreads with
  | noHeader e r₁ hheader => exact .unread (.error e) r₁ (advances_of_readHeader hheader) (by simp)
  | behind header r₁ result hheader hsection =>
    rw [← hsection]
    exact r₁.judges_nextSection.of_advances (advances_of_readHeader hheader)

theorem verify_keeps (r : Reader) (block : Block) :
    (r.verify block).2.options = r.options ∧ (r.verify block).2.header = r.header := by
  obtain ⟨unverified, hverify⟩ := r.verify_snd block
  rw [hverify]
  exact ⟨rfl, rfl⟩

theorem options_next (r : Reader) : r.next.2.options = r.options := by
  have hjudges := r.judges_next
  generalize r.next = result at hjudges
  cases hjudges with
  | unread _ r' hadvances => exact hadvances.options
  | read block r' hadvances => exact (r'.verify_keeps block).1.trans hadvances.options

theorem options_call (r : Reader) (c : Call) : (r.call c).2.options = r.options := by
  cases c with
  | header => exact (advances_of_readHeader rfl).options
  | next => exact r.options_next

theorem options_perform (r : Reader) (calls : List Call) :
    (r.perform calls).2.options = r.options := by
  induction calls generalizing r with
  | nil => rfl
  | cons c calls ih => exact (ih _).trans (r.options_call c)

/-- Whatever a section contains, a header that is known stays. -/
theorem header_next {r : Reader} {header : Header} (h : r.header = some header) :
    r.next.2.header = some header := by
  have hjudges := r.judges_next
  generalize r.next = result at hjudges
  cases hjudges with
  | unread _ r' hadvances => exact hadvances.header header h
  | read block r' hadvances => exact (r'.verify_keeps block).2.trans (hadvances.header header h)

/-! ## Digests -/

/-- What a payload that is judged adds to the count of unverified blocks. -/
theorem unverified_verify {r : Reader} (hchecked : r.options.verifyDigests = true) (block : Block) :
    (r.verify block).2.unverified = r.unverified + [block].countP (·.isUnverifiable) := by
  rw [List.countP_singleton, Block.isUnverifiable]
  have hverifies := r.verifiesAs_verify block
  generalize r.verify block = result at hverifies
  cases hverifies with
  | unchecked hoff =>
    rw [hchecked] at hoff
    cases hoff
  | matching hon hmatching =>
    cases hhash : Multihash.function? block.cid.hashCode with
    | none =>
      rw [Multihash.check_eq_unsupported_iff.2 hhash] at hmatching
      cases hmatching
    | some hash => simp
  | unsupported hon hunsupported => simp [Multihash.check_eq_unsupported_iff.1 hunsupported]
  | differing hon hdiffering =>
    obtain ⟨hash, hhash, -⟩ := Multihash.check_eq_differing_iff.1 hdiffering
    simp [hhash]

/-- A payload that is refused is a forged one. -/
theorem forged_of_verify {r r' : Reader} {block : Block} {e : Error}
    (h : r.verify block = (.error e, r')) : block.Forged := by
  have hverifies := r.verifiesAs_verify block
  rw [h] at hverifies
  cases hverifies with
  | differing hon hdiffering => exact Block.forged_iff.2 hdiffering

theorem verify_of_forged {r : Reader} (hchecked : r.options.verifyDigests = true) {block : Block}
    (h : block.Forged) : r.verify block = (.error (.digestMismatch block.cid.toText), r) := by
  simp [verify, hchecked, Block.forged_iff.1 h]

/-- A reader that compares digests objects to a payload exactly if it is forged. -/
theorem verify_eq (r : Reader) (block : Block) :
    (r.verify block).1 =
      if r.options.verifyDigests = true ∧ block.Forged then
        .error (.digestMismatch block.cid.toText)
      else .ok () := by
  split
  · next h => rw [verify_of_forged h.1 h.2]
  · next h =>
    have hpasses : block.Verifies r.options := fun hchecked hdiffers =>
      h ⟨hchecked, Block.forged_iff.2 hdiffers⟩
    obtain ⟨r', hverify, -⟩ := verify_of_verifies hpasses
    rw [hverify]

/-- A reader that compares digests returns a block only if its digest was found right or cannot be
recomputed. -/
theorem genuine_of_next {r r' : Reader} {block : Block}
    (hchecked : r.options.verifyDigests = true) (h : r.next = (.ok (some block), r')) :
    block.Genuine ∨ block.isUnverifiable = true :=
  (verifies_of_next h).genuine hchecked

/-- A reader that compares digests counts the blocks that it returns and cannot verify, and nothing
else. -/
theorem unverified_of_next {r : Reader} (hchecked : r.options.verifyDigests = true) :
    r.next.2.unverified = r.unverified +
      (r.next.1.toOption.bind id).toList.countP (·.isUnverifiable) := by
  have hjudges := r.judges_next
  generalize r.next = result at hjudges
  cases hjudges with
  | unread result r' hadvances hnone =>
    rcases result with e | _ | block
    · exact hadvances.unverified
    · exact hadvances.unverified
    · exact absurd rfl (hnone block)
  | read block r' hadvances =>
    have hcount := unverified_verify (hadvances.options ▸ hchecked) block
    rw [hadvances.unverified] at hcount
    cases hverify : r'.verify block with
    | mk result r'' =>
      rw [hverify] at hcount
      cases result with
      | ok _ => exact hcount
      | error e =>
        rw [List.countP_singleton, (forged_of_verify hverify).not_unverifiable] at hcount
        exact hcount

/-- The section of a block is what a reader comes to next, behind the header if that was not read
before. -/
structure Faces (r : Reader) (b : Block) : Prop where
  opened : r.source.closed = false
  readable : b.Readable r.options.maxSectionSize
  ahead : ∃ header r' rest, r.readHeader = (.ok header, r') ∧ r'.source.unread = b.frame ++ rest

/-- A section whose digest differs is read and refused. -/
theorem Faces.next_of_forged {r : Reader} {b : Block} (h : r.Faces b)
    (hchecked : r.options.verifyDigests = true) (hforged : b.Forged) :
    r.next.1 = .error (.digestMismatch b.cid.toText) := by
  obtain ⟨header, r₁, rest, hread, hunread⟩ := h.ahead
  have hoptions := options_of_readHeader hread
  have hopen : r₁.source.closed = false := (closed_of_readHeader hread).trans h.opened
  obtain ⟨r₂, hpassed, hnext⟩ := next_of_readable (isSome_of_readHeader hread)
    (hoptions ▸ h.readable) hopen hunread
  have hchecked₂ : r₂.options.verifyDigests = true := by
    rw [hpassed.options, hoptions, hchecked]
  rw [next_of_readHeader hread, hnext, verify_of_forged hchecked₂ hforged]
  rfl

end Reader

end Archive

end CarSlice
