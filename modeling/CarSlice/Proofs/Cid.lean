import CarSlice.Proofs.Cid.Grammar

/-!
# Identifiers in their own bytes

A CID is read in the same way whatever follows it (`Cid.decode?_append`), so the bytes of a CID
may stand at the front of a payload or of the rest of a header.  `Cid.IsBinary` says of bytes
that they are one CID and nothing else, and `Cid.Coherent` of a CID that it is what its bytes
say, which is that they spell it (`Cid.coherent_iff_spelled`).
-/

namespace CarSlice.Cid

/-- A byte string that is one CID and nothing else. -/
def IsBinary (bytes : Bytes) : Prop :=
  ∃ cid, decode? bytes = some (cid, [])

/-- A CID that is what its own bytes say. -/
def Coherent (cid : Cid) : Prop :=
  decode? cid.bytes = some (cid, [])

theorem IsBinary.exists_coherent {bytes : Bytes} (h : IsBinary bytes) :
    ∃ cid : Cid, cid.bytes = bytes ∧ cid.Coherent := by
  obtain ⟨cid, hdecode⟩ := h
  have hbytes : cid.bytes = bytes := by
    rw [bytes_append_of_decode? hdecode, List.append_nil]
  exact ⟨cid, hbytes, by rw [Coherent, hbytes, hdecode]⟩

/-- What a CID says is what its bytes say exactly if they spell it. -/
theorem coherent_iff_spelled {cid : Cid} : cid.Coherent ↔ cid.Spelled := by
  rw [Coherent, decode?_eq_some_iff, and_iff_left (List.append_nil _).symm]

/-- A CID that was read is what its own bytes say. -/
theorem coherent_of_decode? {src rest : Bytes} {cid : Cid}
    (h : Cid.decode? src = some (cid, rest)) : cid.Coherent :=
  coherent_iff_spelled.2 (decode?_eq_some_iff.1 h).1

/-- The bytes of a coherent CID are read off the front of what they stand before. -/
theorem Coherent.decode? {cid : Cid} (h : cid.Coherent) (rest : Bytes) :
    Cid.decode? (cid.bytes ++ rest) = some (cid, rest) :=
  decode?_append h rest

/-- Every row of binary CIDs is that of a row of coherent ones. -/
theorem exists_coherent_of_all {row : List Bytes} (h : ∀ bytes ∈ row, IsBinary bytes) :
    ∃ cids : List Cid, cids.map (·.bytes) = row ∧ ∀ cid ∈ cids, cid.Coherent := by
  induction row with
  | nil => exact ⟨[], rfl, by simp⟩
  | cons bytes row ih =>
    rw [List.forall_mem_cons] at h
    obtain ⟨cid, rfl, hcid⟩ := h.1.exists_coherent
    obtain ⟨cids, rfl, hcids⟩ := ih h.2
    exact ⟨cid :: cids, rfl, List.forall_mem_cons.2 ⟨hcid, hcids⟩⟩

end CarSlice.Cid
