import CarSlice.Proofs.Cid

/-!
# Identifiers that are made and read

What `make` writes, `decode?` reads back, whatever follows it: a CID of version 1 with any codec and
hash function, and the bare SHA-256 multihash of version 0.  Conversely a CID that was read holds
the bytes that it was read from, with its digest at their end, and these are read in the same way
wherever they stand.

`consumed` counts the bytes of the CID at the front (`consumed_of_decode?`), so that the payload
behind a CID begins where the CID ends.
-/

namespace CarSlice.Cid

/-! ## Made and read back -/

theorem coherent_make_v1 {codec hashCode : Nat} {digest : Bytes} (hcodec : codec < 2 ^ 63)
    (hhash : hashCode < 2 ^ 63) (hdigest : digest.length ≤ maxDigest) :
    (make 1 codec hashCode digest).Coherent := by
  have hmake : make 1 codec hashCode digest =
      { version := 1, codec, hashCode, digest
        bytes := Varint.encode 1 ++ (Varint.encode codec ++
          (Varint.encode hashCode ++ (Varint.encode digest.length ++ digest))) } := by
    simp only [make, Nat.one_ne_zero, if_false, List.append_assoc]
  have hsize : digest.length < 2 ^ 63 :=
    Nat.lt_of_le_of_lt hdigest (by decide : maxDigest < 2 ^ 63)
  rw [coherent_iff_spelled, hmake]
  exact .v1 (Varint.spells_encode (by decide)) (Varint.spells_encode hcodec)
    (Varint.spells_encode hhash) (Varint.spells_encode hsize) hdigest

theorem coherent_make_sha256 {digest : Bytes} (h : digest.length = 32) :
    (make 0 Codec.dagPb Multihash.sha2_256 digest).Coherent := by
  have hcode : Varint.encode Multihash.sha2_256 = [0x12] := by decide +kernel
  have hsize : Varint.encode 32 = [0x20] := by decide +kernel
  have hmake : make 0 Codec.dagPb Multihash.sha2_256 digest =
      { version := 0, codec := Codec.dagPb, hashCode := Multihash.sha2_256, digest
        bytes := 0x12 :: 0x20 :: digest } := by
    simp only [make, if_true, h, hcode, hsize, List.cons_append, List.nil_append]
  rw [coherent_iff_spelled, hmake]
  exact .v0 h

/-! ## What was read -/

theorem consumed_of_decode? {src rest : Bytes} {cid : Cid} (h : decode? src = some (cid, rest)) :
    consumed src = cid.bytes.length := by
  rw [consumed, h]
  dsimp only
  rw [bytes_append_of_decode? h, List.length_append, Nat.add_sub_cancel]

theorem consumed_of_none {src : Bytes} (h : decode? src = none) : consumed src = 0 := by
  rw [consumed, h]

/-- The digest stands at the end of a CID. -/
theorem digest_suffix {src rest : Bytes} {cid : Cid} (h : decode? src = some (cid, rest)) :
    cid.digest <:+ cid.bytes := by
  obtain ⟨hspelled, -⟩ := decode?_eq_some_iff.1 h
  cases hspelled with
  | v0 => exact List.suffix_append [0x12, 0x20] _
  | v1 =>
    simp only [← List.append_assoc]
    exact List.suffix_append ..

/-- The bytes of a coherent CID are read wherever they stand, and counted. -/
theorem Coherent.reads {cid : Cid} (h : cid.Coherent) (rest : Bytes) :
    Cid.decode? (cid.bytes ++ rest) = some (cid, rest) ∧
      consumed (cid.bytes ++ rest) = cid.bytes.length :=
  ⟨h.decode? rest, consumed_of_decode? (h.decode? rest)⟩

/-- A CID that was made is read back from its bytes whatever follows them: one of version 1 with a
digest of at most 128 bytes, and the one of version 0.  A CID that was read is the front of what it
was read from, it ends with its digest, and its bytes are read as the same CID whatever follows
them.  Where none is read nothing is consumed. -/
theorem reading_agrees_with_making :
    (∀ (codec hashCode : Nat) (digest rest : Bytes), codec < 2 ^ 63 → hashCode < 2 ^ 63 →
      digest.length ≤ maxDigest →
        let cid := make 1 codec hashCode digest
        decode? (cid.bytes ++ rest) = some (cid, rest) ∧
          consumed (cid.bytes ++ rest) = cid.bytes.length) ∧
      (∀ digest rest : Bytes, digest.length = 32 →
        let cid := make 0 Codec.dagPb Multihash.sha2_256 digest
        decode? (cid.bytes ++ rest) = some (cid, rest) ∧
          consumed (cid.bytes ++ rest) = cid.bytes.length) ∧
      (∀ (src rest : Bytes) (cid : Cid), decode? src = some (cid, rest) →
        consumed src ≤ src.length ∧ cid.bytes = src.take (consumed src) ∧
          cid.digest <:+ cid.bytes ∧
          ∀ more, decode? (cid.bytes ++ more) = some (cid, more) ∧
            consumed (cid.bytes ++ more) = consumed src) ∧
      ∀ src, decode? src = none → consumed src = 0 := by
  refine ⟨fun codec hashCode digest rest hcodec hhash hdigest => ?_,
    fun digest rest hdigest => ?_, fun src rest cid hdecode => ?_, fun src => consumed_of_none⟩
  · exact (coherent_make_v1 hcodec hhash hdigest).reads rest
  · exact (coherent_make_sha256 hdigest).reads rest
  · have hsrc := bytes_append_of_decode? hdecode
    have hconsumed := consumed_of_decode? hdecode
    refine ⟨?_, ?_, digest_suffix hdecode, fun more => ?_⟩
    · rw [hconsumed, hsrc, List.length_append]
      exact Nat.le_add_right ..
    · rw [hconsumed, hsrc, List.take_left]
    · rw [hconsumed]
      exact (coherent_of_decode? hdecode).reads more

/-- A CID that was made, and one whose version stands in two bytes where one is enough. -/
theorem reading_agrees_with_making_padded :
    let made := make 1 Codec.raw Multihash.identity [0xab]
    let padded : Cid :=
      { version := 1, codec := Codec.raw, hashCode := Multihash.identity, digest := [0xab]
        bytes := [0x81, 0x00, 0x55, 0x00, 0x01, 0xab] }
    decode? (made.bytes ++ [0xcd]) = some (made, [0xcd]) ∧
      decode? (padded.bytes ++ [0xcd]) = some (padded, [0xcd]) ∧
      decode? (padded.bytes ++ [0xef]) = some (padded, [0xef]) ∧
      consumed (padded.bytes ++ [0xef]) = 6 := by
  intro made padded
  obtain ⟨hmake, -, hread, -⟩ := reading_agrees_with_making
  have hmade := hmake Codec.raw Multihash.identity [0xab] [0xcd] (by decide) (by decide) (by decide)
  have hpadded : decode? (padded.bytes ++ [0xcd]) = some (padded, [0xcd]) := by decide +kernel
  have hconsumed : consumed (padded.bytes ++ [0xcd]) = 6 := by decide +kernel
  obtain ⟨-, -, -, hagain⟩ := hread _ _ _ hpadded
  exact ⟨hmade.1, hpadded, (hagain [0xef]).1, (hagain [0xef]).2.trans hconsumed⟩

end CarSlice.Cid
