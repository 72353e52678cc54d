import CarSlice.Archive.Header
import CarSlice.Proofs.Cbor
import CarSlice.Proofs.Cid

/-!
# Headers that were written

The body of a header is a map of two entries, the roots and the version.  Each part of it
is read back with whatever follows it: one root, a row of roots, an entry.  From them
`decode_encodeBody` says which entries the map is read as, and `decode_encodeBody_one` that a
body with version 1 and at least one root gives back exactly its roots.

A root that is no CID is found when its turn comes, before the version is looked at
(`decode_encodeBody_of_not_binary`).  `decode_undoes_encodeBody` says what becomes of any list of
byte strings and any version.
-/

namespace CarSlice.Archive.Header

open Cbor (Head)

/-! ## Roots -/

/-- Byte strings that can be written as roots: their number and the lengths of their links are
64-bit words, as those of all byte strings in memory. -/
structure Encodable (roots : List Bytes) : Prop where
  count : roots.length < 2 ^ 64
  lengths : ∀ root ∈ roots, root.length + 1 < 2 ^ 64

theorem length_lt_length_encodeRoot (cid : Bytes) : cid.length + 1 < (encodeRoot cid).length := by
  have htag : (Head.encode ⟨.tag, Cbor.linkTag⟩).length = 2 := rfl
  simp only [encodeRoot, Cbor.encodeBytes, List.length_append, List.length_cons, htag]
  omega

/-- There are no more roots than bytes that they take. -/
theorem length_le_length_flatMap_encodeRoot (roots : List Bytes) :
    roots.length ≤ (roots.flatMap encodeRoot).length := by
  induction roots with
  | nil => simp
  | cons root roots ih =>
    have := length_lt_length_encodeRoot root
    rw [List.flatMap_cons, List.length_append, List.length_cons]
    omega

/-- The roots of a body whose length is a word. -/
theorem encodable_of_length_encodeBody {roots : List Bytes} {version : Nat}
    (h : (encodeBody roots version).length < 2 ^ 64) : Encodable roots := by
  have hroots : (roots.flatMap encodeRoot).length < 2 ^ 64 := by
    simp only [encodeBody, List.length_append] at h
    omega
  refine ⟨Nat.lt_of_le_of_lt (length_le_length_flatMap_encodeRoot roots) hroots, ?_⟩
  intro root hmem
  have hpart := (List.sublist_flatten_of_mem (List.mem_map_of_mem (f := encodeRoot) hmem)).length_le
  rw [← List.flatMap_def] at hpart
  exact Nat.lt_trans (length_lt_length_encodeRoot root) (Nat.lt_of_le_of_lt hpart hroots)

/-- A link is read to its end, whatever it names. -/
theorem readRoot_encodeRoot {root : Bytes} (hlength : root.length + 1 < 2 ^ 64) (rest : Bytes) :
    readRoot (encodeRoot root ++ rest) =
      (rootOfLink (0 :: root)).map fun cid => (cid, rest) := by
  have hbytes : (0 :: root).length < 2 ^ 64 := hlength
  rw [encodeRoot, List.append_assoc, readRoot, Cbor.head?_encode (by decide)]
  simp only [if_true, Cbor.bytes?_encodeBytes hbytes]

theorem rootOfLink_of_coherent {cid : Cid} (h : cid.Coherent) :
    rootOfLink (0 :: cid.bytes) = .ok cid := by
  have hdecode : Cid.decode? cid.bytes = some (cid, []) := h
  simp only [rootOfLink, hdecode]

theorem rootOfLink_of_not_binary {root : Bytes} (h : ¬Cid.IsBinary root) :
    rootOfLink (0 :: root) = .error .badRootCid := by
  unfold rootOfLink
  split
  · next encoded heq =>
    obtain rfl := (List.cons.inj heq).2
    split
    · next cid hdecode => exact absurd ⟨cid, hdecode⟩ h
    · rfl
  · next hother => exact absurd rfl (hother root)

/-- A row of roots is read back. -/
theorem readRoots_encode {cids : List Cid} (h : ∀ cid ∈ cids, cid.Coherent)
    (hlengths : ∀ root ∈ cids.map (·.bytes), root.length + 1 < 2 ^ 64) (rest : Bytes) :
    readRoots cids.length ((cids.map (·.bytes)).flatMap encodeRoot ++ rest) = .ok (cids, rest) := by
  induction cids with
  | nil => rfl
  | cons cid cids ih =>
    rw [List.map_cons] at hlengths
    rw [List.forall_mem_cons] at h hlengths
    have hroot := readRoot_encodeRoot hlengths.1 ((cids.map (·.bytes)).flatMap encodeRoot ++ rest)
    rw [rootOfLink_of_coherent h.1] at hroot
    have hmore := ih h.2 hlengths.2
    rw [List.map_cons, List.flatMap_cons, List.append_assoc, List.length_cons, readRoots, hroot]
    simp only [Except.map, bind, Except.bind, hmore]

/-- In a row of roots, the first that is no CID ends the reading. -/
theorem readRoots_of_not_binary {roots : List Bytes} (h : ∃ root ∈ roots, ¬Cid.IsBinary root)
    (hlengths : ∀ root ∈ roots, root.length + 1 < 2 ^ 64) (rest : Bytes) :
    readRoots roots.length (roots.flatMap encodeRoot ++ rest) = .error .badRootCid := by
  induction roots with
  | nil =>
    obtain ⟨root, hmem, -⟩ := h
    cases hmem
  | cons root roots ih =>
    rw [List.forall_mem_cons] at hlengths
    have hroot := readRoot_encodeRoot hlengths.1 (roots.flatMap encodeRoot ++ rest)
    rw [List.flatMap_cons, List.append_assoc, List.length_cons, readRoots, hroot]
    by_cases hbinary : Cid.IsBinary root
    · obtain ⟨cid, rfl, hcid⟩ := hbinary.exists_coherent
      have hlater : ∃ root ∈ roots, ¬Cid.IsBinary root := by
        obtain ⟨other, hmem, hother⟩ := h
        rcases List.mem_cons.1 hmem with rfl | hmem
        · exact absurd hbinary hother
        · exact ⟨other, hmem, hother⟩
      rw [rootOfLink_of_coherent hcid]
      simp only [Except.map, bind, Except.bind, ih hlater hlengths.2]
    · rw [rootOfLink_of_not_binary hbinary]
      rfl

/-! ## Entries -/

theorem readEntry_roots {count : Nat} (h : count < 2 ^ 64) (s : Bytes) :
    readEntry (Cbor.encodeText rootsKey ++ (Head.encode ⟨.array, count⟩ ++ s)) =
      (readRoots count s).map fun (cids, s) => (.roots cids, s) := by
  have hkey : rootsKey.length < 2 ^ 64 := by decide +kernel
  have hother : rootsKey ≠ versionKey := by decide +kernel
  have hcount : (Head.mk .array count).argument < 2 ^ 64 := h
  rw [readEntry, Cbor.text?_encodeText hkey]
  simp only [if_neg hother, if_true, readRootsArray, Cbor.head?_encode hcount]

theorem readEntry_version {version : Nat} (h : version < 2 ^ 64) (rest : Bytes) :
    readEntry (Cbor.encodeText versionKey ++ Head.encode ⟨.unsigned, version⟩ ++ rest) =
      .ok (.version version, rest) := by
  have hkey : versionKey.length < 2 ^ 64 := by decide +kernel
  rw [List.append_assoc, readEntry, Cbor.text?_encodeText hkey]
  simp only [if_true, Cbor.unsigned?_encode h]

/-! ## The whole body -/

/-- A body that was written begins with the head of a map. -/
theorem head?_encodeBody (roots : List Bytes) (version : Nat) :
    Cbor.head? (encodeBody roots version) = some (⟨.map, 2⟩,
      Cbor.encodeText rootsKey ++ (Head.encode ⟨.array, roots.length⟩ ++
        (roots.flatMap encodeRoot ++
          (Cbor.encodeText versionKey ++ Head.encode ⟨.unsigned, version⟩)))) := by
  simp only [encodeBody, List.append_assoc]
  exact Cbor.head?_encode (by decide) _

/-- A body is read as the two entries that it was written from. -/
theorem decode_encodeBody {cids : List Cid} (h : ∀ cid ∈ cids, cid.Coherent) {version : Nat}
    (hversion : version < 2 ^ 64) (hencodable : Encodable (cids.map (·.bytes))) :
    decode (encodeBody (cids.map (·.bytes)) version) =
      ofEntries [.roots cids, .version version] := by
  have hcount := hencodable.count
  rw [List.length_map] at hcount
  have hroots := readRoots_encode h hencodable.lengths
    (Cbor.encodeText versionKey ++ Head.encode ⟨.unsigned, version⟩)
  have hlast := readEntry_version hversion []
  rw [List.append_nil] at hlast
  rw [decode, head?_encodeBody, List.length_map]
  simp only [readEntries, readEntry_roots hcount, hroots, hlast, Except.map, bind, Except.bind]

/-- Where one of the roots is no CID, that is found before anything else. -/
theorem decode_encodeBody_of_not_binary {roots : List Bytes}
    (h : ∃ root ∈ roots, ¬Cid.IsBinary root) (hencodable : Encodable roots) (version : Nat) :
    decode (encodeBody roots version) = .error .badRootCid := by
  have hroots := readRoots_of_not_binary h hencodable.lengths
    (Cbor.encodeText versionKey ++ Head.encode ⟨.unsigned, version⟩)
  rw [decode, head?_encodeBody]
  simp only [readEntries, readEntry_roots hencodable.count, hroots, Except.map, bind, Except.bind]

/-- What the two entries of a body come to. -/
theorem ofEntries_written (cids : List Cid) (version : Nat) :
    ofEntries [.roots cids, .version version] =
      if version ≠ supportedVersion then .error .unsupportedVersion
      else if cids.isEmpty then .error .missingRoots
      else .ok { version, roots := cids } := by
  have hlast : ([Entry.roots cids, .version version].filterMap Entry.version?).getLast? =
    some version := rfl
  have hroots : [Entry.roots cids, .version version].flatMap Entry.cids = cids := by
    simp [Entry.cids]
  rw [ofEntries, hlast]
  simp only [hroots]

/-- A body with version 1 gives back its roots, if there are any. -/
theorem decode_encodeBody_one {cids : List Cid} (hne : cids ≠ []) (h : ∀ cid ∈ cids, cid.Coherent)
    (hencodable : Encodable (cids.map (·.bytes))) :
    decode (encodeBody (cids.map (·.bytes)) 1) = .ok { version := 1, roots := cids } := by
  have hsome : ¬cids.isEmpty = true := by simpa using hne
  rw [decode_encodeBody h (by decide) hencodable, ofEntries_written, if_neg (by decide),
    if_neg hsome]

/-- Whatever byte strings are written as roots, and with whatever version, the body is refused for
a root that is not exactly one CID, else for a version other than 1, else for want of roots, and
otherwise it gives back exactly the roots, in order. -/
theorem decode_undoes_encodeBody {roots : List Bytes} {version : Nat} (hversion : version < 2 ^ 64)
    (hencodable : Encodable roots) :
    ((∃ root ∈ roots, ¬Cid.IsBinary root) →
      decode (encodeBody roots version) = .error .badRootCid) ∧
    ((∀ root ∈ roots, Cid.IsBinary root) →
      (version ≠ 1 → decode (encodeBody roots version) = .error .unsupportedVersion) ∧
      (version = 1 → roots = [] → decode (encodeBody roots version) = .error .missingRoots) ∧
      (version = 1 → roots ≠ [] → ∃ cids : List Cid, cids.map (·.bytes) = roots ∧
        decode (encodeBody roots version) = .ok { version := 1, roots := cids })) ∧
    [HeaderFault.badRootCid, .unsupportedVersion, .missingRoots].map
      (fun fault => (Error.header fault).code) = [0x105, 0x107, 0x106] := by
  refine ⟨fun h => decode_encodeBody_of_not_binary h hencodable version, fun h => ?_, rfl⟩
  obtain ⟨cids, rfl, hcoherent⟩ := Cid.exists_coherent_of_all h
  rw [decode_encodeBody hcoherent hversion hencodable, ofEntries_written]
  refine ⟨fun hother => if_pos hother, ?_, ?_⟩
  · rintro rfl hnil
    rw [if_neg (by decide), if_pos (List.isEmpty_iff.2 (List.map_eq_nil_iff.1 hnil))]
  · rintro rfl hne
    refine ⟨cids, rfl, ?_⟩
    rw [if_neg (by decide),
      if_neg fun hempty => hne (List.map_eq_nil_iff.2 (List.isEmpty_iff.1 hempty))]

/-- Two roots of which one is empty are refused for that one, though the version is wrong too, and
a single root of version 1 comes back. -/
theorem decode_undoes_encodeBody_two_roots :
    let root : Bytes := [0x01, 0x55, 0x00, 0x00]
    decode (encodeBody [root, []] 2) = .error .badRootCid ∧
      ∃ cid : Cid, cid.bytes = root ∧
        decode (encodeBody [root] 1) = .ok { version := 1, roots := [cid] } := by
  intro root
  have hbad : ¬Cid.IsBinary [] := by
    rintro ⟨cid, hdecode⟩
    cases hdecode
  have hgood : Cid.IsBinary root := ⟨_, rfl⟩
  have htwo : Encodable [root, []] := ⟨by decide, by decide⟩
  have hone : Encodable [root] := ⟨by decide, by decide⟩
  refine ⟨(decode_undoes_encodeBody (by decide) htwo).1 ⟨[], by simp, hbad⟩, ?_⟩
  obtain ⟨cids, hcids, hdecode⟩ := ((@decode_undoes_encodeBody [root] 1 (by decide) hone).2.1
    (by simpa using hgood)).2.2 rfl (by simp)
  obtain ⟨cid, more, rfl, hcid, hmore⟩ := List.map_eq_cons_iff.1 hcids
  obtain rfl := List.map_eq_nil_iff.1 hmore
  exact ⟨cid, hcid, hdecode⟩

end CarSlice.Archive.Header
