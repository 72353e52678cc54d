import CarSlice.Cid
import CarSlice.Proofs.Varint

/-!
# The bytes of an identifier

`Cid.Spelled` says of a CID that its bytes are those of its parts: the code and the length of a
SHA-256 digest in front of the digest, or the four numbers of version 1 in front of it.  A CID is
read from the front of a byte string exactly if it is spelled by that front
(`decode?_eq_some_iff`), whatever follows.
-/

namespace CarSlice.Cid

/-- A CID whose bytes are its parts one behind the other.  The numbers of version 1 may be longer
than needed; in front of the digest of version 0 stand two fixed bytes. -/
inductive Spelled : Cid → Prop where
  | v0 {digest : Bytes} (hdigest : digest.length = 32) :
      Spelled
        { version := 0, codec := Codec.dagPb, hashCode := Multihash.sha2_256, digest
          bytes := 0x12 :: 0x20 :: digest }
  | v1 {codec hashCode : Nat} {versionBytes codecBytes hashBytes sizeBytes digest : Bytes}
      (hversion : Varint.Spells 1 versionBytes) (hcodec : Varint.Spells codec codecBytes)
      (hhash : Varint.Spells hashCode hashBytes) (hsize : Varint.Spells digest.length sizeBytes)
      (hmax : digest.length ≤ maxDigest) :
      Spelled
        { version := 1, codec, hashCode, digest
          bytes := versionBytes ++ (codecBytes ++ (hashBytes ++ (sizeBytes ++ digest))) }

/-- A CID of version 1 does not begin like a SHA-256 multihash. -/
theorem not_sha256_of_read? {src rest more : Bytes} (h : Varint.read? src = some (1, rest)) :
    (src ++ more).take 2 ≠ [0x12, 0x20] := by
  cases src with
  | nil => simp [Varint.read?, Varint.decode, Varint.maxLength, Varint.decodeWithin] at h
  | cons b src =>
    intro hfront
    obtain rfl : b = 0x12 := (List.cons.inj hfront).1
    have hlast : Varint.read? (0x12 :: src) = some (0x12, src) := rfl
    rw [hlast] at h
    cases h

/-- The parts of a CID of version 1 in front of what follows them. -/
theorem parts_append (version codec hash size digest rest : Bytes) :
    version ++ (codec ++ (hash ++ (size ++ (digest ++ rest)))) =
      version ++ (codec ++ (hash ++ (size ++ digest))) ++ rest := by
  simp only [List.append_assoc]

/-- What is not left is the front. -/
theorem take_front (front rest : Bytes) :
    (front ++ rest).take ((front ++ rest).length - rest.length) = front := by
  rw [List.length_append, Nat.add_sub_cancel, List.take_left]

/-- What `decodeV1?` reads is spelled by the bytes in front of the rest. -/
theorem spelled_of_decodeV1? {src rest : Bytes} {cid : Cid}
    (h : decodeV1? src = some (cid, rest)) : cid.Spelled ∧ src = cid.bytes ++ rest := by
  unfold decodeV1? at h
  split at h
  · next s₁ h₁ =>
    obtain ⟨⟨codec, s₂⟩, h₂, h⟩ := Option.bind_eq_some_iff.1 h
    obtain ⟨⟨hashCode, s₃⟩, h₃, h⟩ := Option.bind_eq_some_iff.1 h
    obtain ⟨⟨size, s₄⟩, h₄, h⟩ := Option.bind_eq_some_iff.1 h
    dsimp only at h
    split at h
    · cases h
    · next hmax =>
      obtain ⟨⟨digest, s₅⟩, h₅, h⟩ := Option.bind_eq_some_iff.1 h
      cases h
      obtain ⟨versionBytes, rfl, hversion⟩ := Varint.read?_eq_some_iff.1 h₁
      obtain ⟨codecBytes, rfl, hcodec⟩ := Varint.read?_eq_some_iff.1 h₂
      obtain ⟨hashBytes, rfl, hhash⟩ := Varint.read?_eq_some_iff.1 h₃
      obtain ⟨sizeBytes, rfl, hsize⟩ := Varint.read?_eq_some_iff.1 h₄
      obtain ⟨rfl, rfl⟩ := takeExactly?_eq_some_iff.1 h₅
      dsimp only
      rw [parts_append, take_front]
      exact ⟨.v1 hversion hcodec hhash hsize (Nat.not_lt.1 hmax), rfl⟩
  · cases h

/-- Bytes that begin like a SHA-256 multihash hold a digest behind. -/
theorem exists_digest_of_front {src : Bytes} (hlong : sizeV0 ≤ src.length)
    (hfront : src.take 2 = [0x12, 0x20]) :
    ∃ digest : Bytes, digest.length = 32 ∧ src.take sizeV0 = 0x12 :: 0x20 :: digest := by
  have htwo : (src.take sizeV0).take 2 = [0x12, 0x20] := by
    rw [List.take_take]
    exact hfront
  refine ⟨(src.take sizeV0).drop 2, ?_, ?_⟩
  · rw [List.length_drop, List.length_take_of_le hlong]
    rfl
  · calc src.take sizeV0 = (src.take sizeV0).take 2 ++ (src.take sizeV0).drop 2 :=
        (List.take_append_drop ..).symm
      _ = 0x12 :: 0x20 :: (src.take sizeV0).drop 2 := by rw [htwo]; rfl

theorem spelled_of_decode? {src rest : Bytes} {cid : Cid} (h : decode? src = some (cid, rest)) :
    cid.Spelled ∧ src = cid.bytes ++ rest := by
  unfold decode? at h
  split at h
  · next hv0 =>
    obtain ⟨digest, hdigest, hfront⟩ := exists_digest_of_front hv0.1 hv0.2
    cases h
    refine ⟨?_, (List.take_append_drop sizeV0 src).symm⟩
    rw [hfront]
    exact .v0 hdigest
  · exact spelled_of_decodeV1? h

/-- A CID is read from the bytes that spell it. -/
theorem decode?_of_spelled {cid : Cid} (h : cid.Spelled) (rest : Bytes) :
    decode? (cid.bytes ++ rest) = some (cid, rest) := by
  cases h with
  | v0 hdigest =>
    next digest =>
    have hlength : (0x12 :: 0x20 :: digest).length = sizeV0 := congrArg (· + 2) hdigest
    have hlong : sizeV0 ≤ (0x12 :: 0x20 :: digest ++ rest).length := by
      rw [List.length_append, hlength]
      exact Nat.le_add_right ..
    rw [decode?, if_pos ⟨hlong, rfl⟩]
    dsimp only
    rw [← hlength, List.take_left, List.drop_left]
    rfl
  | v1 hversion hcodec hhash hsize hmax =>
    next codec hashCode versionBytes codecBytes hashBytes sizeBytes digest =>
    have hnot : (versionBytes ++
        (codecBytes ++ (hashBytes ++ (sizeBytes ++ (digest ++ rest))))).take 2 ≠ [0x12, 0x20] :=
      not_sha256_of_read? (Varint.read?_eq_some_nil_iff.2 hversion)
    have hdigest : takeExactly? digest.length (digest ++ rest) = some (digest, rest) :=
      takeExactly?_eq_some_iff.2 ⟨rfl, rfl⟩
    dsimp only
    rw [← parts_append, decode?, if_neg fun hv0 => hnot hv0.2, decodeV1?, hversion.read?]
    simp only [hcodec.read?, hhash.read?, hsize.read?, Option.bind_eq_bind, Option.bind_some,
      Nat.not_lt.2 hmax, if_false, hdigest, parts_append, take_front]

/-- A CID is read exactly if the front of the bytes spells it, and what follows it is left. -/
theorem decode?_eq_some_iff {src rest : Bytes} {cid : Cid} :
    decode? src = some (cid, rest) ↔ cid.Spelled ∧ src = cid.bytes ++ rest := by
  constructor
  · exact spelled_of_decode?
  · rintro ⟨hspelled, rfl⟩
    exact decode?_of_spelled hspelled rest

/-- A CID was decoded from its own bytes, and what follows them is left. -/
theorem bytes_append_of_decode? {src rest : Bytes} {cid : Cid}
    (h : decode? src = some (cid, rest)) : src = cid.bytes ++ rest :=
  (decode?_eq_some_iff.1 h).2

/-- Version 1 has four numbers in front of its digest, which may be empty, and version 0 is
longer. -/
theorem Spelled.four_le_length {cid : Cid} (h : cid.Spelled) : 4 ≤ cid.bytes.length := by
  cases h with
  | v0 hdigest =>
    simp only [List.length_cons]
    omega
  | v1 hversion hcodec hhash hsize =>
    have hone := List.length_pos_iff.2 hversion.ne_nil
    have htwo := List.length_pos_iff.2 hcodec.ne_nil
    have hthree := List.length_pos_iff.2 hhash.ne_nil
    have hfour := List.length_pos_iff.2 hsize.ne_nil
    simp only [List.length_append]
    omega

/-- Reading a CID uses up at least four bytes. -/
theorem decode?_length_add_four {src rest : Bytes} {cid : Cid}
    (h : decode? src = some (cid, rest)) : rest.length + 4 ≤ src.length := by
  obtain ⟨hspelled, rfl⟩ := decode?_eq_some_iff.1 h
  rw [List.length_append, Nat.add_comm]
  exact Nat.add_le_add_right hspelled.four_le_length _

/-- A CID is read in the same way whatever follows it. -/
theorem decode?_append {src rest : Bytes} {cid : Cid} (h : decode? src = some (cid, rest))
    (more : Bytes) : decode? (src ++ more) = some (cid, rest ++ more) := by
  obtain ⟨hspelled, rfl⟩ := decode?_eq_some_iff.1 h
  exact decode?_eq_some_iff.2 ⟨hspelled, List.append_assoc ..⟩

end CarSlice.Cid
