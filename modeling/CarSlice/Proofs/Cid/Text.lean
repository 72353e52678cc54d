import CarSlice.Proofs.Base32
import CarSlice.Proofs.Base58
import CarSlice.Proofs.Cid

/-!
# The text of an identifier

The text of a CID names its bytes.  Neither base 32 nor base 58 has one text for two byte strings,
and the two versions are told apart by the first letter: a number of 34 bytes that begin with the
code and the length of a SHA-256 digest lies between 23 and 24 times `58 ^ 45`, so that its base 58
text begins with `Q`, where the text of version 1 begins with `b`.
-/

namespace CarSlice.Cid

/-- The text of a bare SHA-256 multihash begins with the letter for 23. -/
theorem head?_encode_sha256 {digest : Bytes} (h : digest.length = 32) :
    (Base58.encode (0x12 :: 0x20 :: digest)).head? = some (ascii 'Q') := by
  have hlow := bigEndianValue_lt digest
  have hvalue : bigEndianValue (0x12 :: 0x20 :: digest) =
      bigEndianValue digest + 256 ^ digest.length * 0x1220 :=
    bigEndianValue_append [0x12, 0x20] digest
  rw [h] at hlow hvalue
  have hle : 23 * 58 ^ 45 ≤ 256 ^ 32 * 0x1220 := by decide +kernel
  have hlt : 256 ^ 32 * (0x1220 + 1) ≤ 24 * 58 ^ 45 := by decide +kernel
  have hspell := Base58.head?_spell (by decide : 0 < 23) (by decide)
    (by omega : 23 * 58 ^ 45 ≤ bigEndianValue (0x12 :: 0x20 :: digest)) (by omega)
  have hletter : Base58.letter (UInt8.ofNat 23) = ascii 'Q' := by decide +kernel
  -- The first byte is not zero, so that the text is the spelling of the number alone.
  have hencode : Base58.encode (0x12 :: 0x20 :: digest) =
      Base58.spell (bigEndianValue (0x12 :: 0x20 :: digest)) :=
    Base58.encode_eq _
  rw [hencode, hspell, hletter]

/-- It is not one that begins with the letter of version 1. -/
theorem encode_sha256_ne {digest : Bytes} (h : digest.length = 32) {rest : Text} :
    Base58.encode (0x12 :: 0x20 :: digest) ≠ ascii 'b' :: rest := by
  intro heq
  have hfirst := head?_encode_sha256 h
  rw [heq, List.head?_cons] at hfirst
  exact absurd (Option.some.inj hfirst) (by decide +kernel)

/-- Two CIDs that were read have the same text exactly if they have the same bytes. -/
theorem toText_eq_iff {src src' rest rest' : Bytes} {cid cid' : Cid}
    (h : decode? src = some (cid, rest)) (h' : decode? src' = some (cid', rest')) :
    cid.toText = cid'.toText ↔ cid.bytes = cid'.bytes := by
  constructor
  · intro htext
    obtain ⟨hspelled, -⟩ := decode?_eq_some_iff.1 h
    obtain ⟨hspelled', -⟩ := decode?_eq_some_iff.1 h'
    cases hspelled with
    | v0 hdigest =>
      cases hspelled' with
      | v0 hdigest' => exact Base58.encode_injective htext
      | v1 => exact absurd htext (encode_sha256_ne hdigest)
    | v1 =>
      cases hspelled' with
      | v0 hdigest' => exact absurd htext.symm (encode_sha256_ne hdigest')
      | v1 => exact Base32.encode_injective (List.cons.inj htext).2
  · intro hbytes
    have hcoherent := coherent_of_decode? h
    rw [Coherent, hbytes, coherent_of_decode? h'] at hcoherent
    cases hcoherent
    rfl

/-- One multihash as version 0 and, behind the number of its codec, as version 1. -/
theorem toText_eq_iff_across_versions :
    let digest : Bytes := List.replicate 32 0
    let bare := make 0 Codec.dagPb Multihash.sha2_256 digest
    let tagged := make 1 Codec.dagPb Multihash.sha2_256 digest
    decode? bare.bytes = some (bare, []) ∧
      decode? (tagged.bytes ++ [0xff]) = some (tagged, [0xff]) ∧
      (bare.toText = tagged.toText ↔ bare.bytes = tagged.bytes) ∧
      bare.toText ≠ tagged.toText := by
  intro digest bare tagged
  have hbare : decode? bare.bytes = some (bare, []) := by decide +kernel
  have htagged : decode? (tagged.bytes ++ [0xff]) = some (tagged, [0xff]) := by decide +kernel
  have hiff := toText_eq_iff hbare htagged
  have hne : bare.bytes ≠ tagged.bytes := by decide +kernel
  exact ⟨hbare, htagged, hiff, fun htext => hne (hiff.1 htext)⟩

end CarSlice.Cid
