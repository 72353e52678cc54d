import CarSlice.Proofs.Archive.SectionAhead

/-!
# Headers that are cut short

An archive may end anywhere in the frame of its header.  A reader finds that out, wherever the cut
is, but not always in the same way: behind the length, and where there is nothing at all, the
header is truncated; inside the length it is the length that is truncated.

* `Header.cutFault` says which fault it is.
* `nextLength_of_cut` finds the end of the source inside a length, `readNewHeader_of_cut_body`
  inside the body behind it.
* `readHeader_of_cut` puts the three places of the cut together, and
  `cut_header_is_bad_header_unless_in_length` says where the code is that of a bad header.
-/

namespace CarSlice.Archive

/-- What is wrong with the frame of a header of which only a front part is there. -/
def Header.cutFault (lengthBytes cut : Bytes) : FramingFault :=
  if cut ≠ [] ∧ cut.length < lengthBytes.length then .lengthTruncated else .headerTruncated

namespace Reader

section

variable {r : Reader} (hreliable : r.source.Reliable)

include hreliable

/-- A front part of a length that is not all of it says that more is to come. -/
theorem nextLength_of_cut {lengthBytes : Bytes} {length : Nat}
    (hlength : Varint.Spells length lengthBytes)
    (hcut : r.source.available <+: lengthBytes) (hbegun : r.source.available ≠ [])
    (hshort : r.source.available.length < lengthBytes.length) :
    ∃ r', r.nextLength = (.error (.framing .lengthTruncated
        (r.bytesConsumed + r.source.available.length)), r') ∧
      r.Takes r.source.available.length r' := by
  obtain ⟨hmore, -, hroom⟩ := hlength
  next more last =>
    rw [List.length_append, List.length_singleton] at hshort
    have hfront : r.source.available <+: more :=
      List.prefix_of_prefix_length_le hcut (List.prefix_append _ _) (Nat.le_of_lt_succ hshort)
    refine nextLength_of_truncated hreliable hbegun (Nat.lt_of_le_of_lt hfront.length_le hroom) ?_
    exact fun b hb => hmore b (hfront.subset hb)

/-- A length, and of the body that it announces a part that is not all of it. -/
theorem readNewHeader_of_cut_body {lengthBytes part : Bytes} {length : Nat}
    (hlength : Varint.Spells length lengthBytes) (hsize : length ≤ r.options.maxHeaderSize)
    (hpart : r.source.available = lengthBytes ++ part) (hless : part.length < length) :
    ∃ r', r.readNewHeader = (.error (.framing .headerTruncated
        (r.bytesConsumed + r.source.available.length)), r') ∧
      r.Takes r.source.available.length r' := by
  obtain ⟨r₁, hread, htakes₁, hreliable₁⟩ := nextLength_of_spells hreliable hlength hpart
  have hpart₁ : r₁.source.available = part := by
    rw [htakes₁.available, hpart, List.drop_left]
  obtain ⟨r₂, hbody, htakes₂⟩ := readBody_of_reliable hreliable₁ length .headerTruncated
  rw [hpart₁, if_neg (Nat.not_le.2 hless), htakes₁.consumed] at hbody
  rw [hpart₁, Nat.min_eq_right (Nat.le_of_lt hless)] at htakes₂
  have hpos : length ≠ 0 := Nat.ne_of_gt (Nat.zero_lt_of_lt hless)
  have hlimit : ¬r₁.options.maxHeaderSize < length := by
    rw [htakes₁.passed.options]
    exact Nat.not_lt.2 hsize
  refine ⟨r₂, ?_, ?_⟩
  · simp only [readNewHeader, hread, if_neg hpos, if_neg hlimit, hbody]
    rw [hpart, List.length_append, Nat.add_assoc]
  · rw [hpart, List.length_append]
    exact htakes₁.trans htakes₂

/-- A source that holds a front part of a frame and nothing else: the header is not read, all
bytes are taken, and the fault is the one of the place of the cut. -/
theorem readHeader_of_cut (hnew : r.header = none) {lengthBytes body : Bytes}
    (hlength : Varint.Spells body.length lengthBytes)
    (hsize : body.length ≤ r.options.maxHeaderSize)
    (hcut : r.source.available <+: lengthBytes ++ body)
    (hproper : r.source.available ≠ lengthBytes ++ body) :
    ∃ r', r.readHeader = (.error (.framing (Header.cutFault lengthBytes r.source.available)
        (r.bytesConsumed + r.source.available.length)), r') ∧
      r.Takes r.source.available.length r' := by
  rw [readHeader, hnew, Header.cutFault]
  dsimp only
  by_cases hnothing : r.source.available = []
  · -- The end of the source is found in the place of a length.
    obtain ⟨r', hread, htakes⟩ := nextLength_of_nothing hreliable hnothing
    rw [if_neg fun h => h.1 hnothing, hnothing]
    refine ⟨r', ?_, htakes⟩
    simp only [readNewHeader, hread, framingError, htakes.consumed]
    rfl
  · by_cases hshort : r.source.available.length < lengthBytes.length
    · have hfront : r.source.available <+: lengthBytes :=
        List.prefix_of_prefix_length_le hcut (List.prefix_append _ _) (Nat.le_of_lt hshort)
      obtain ⟨r', hread, htakes⟩ := nextLength_of_cut hreliable hlength hfront hnothing hshort
      refine ⟨r', ?_, htakes⟩
      rw [readNewHeader, hread, if_pos ⟨hnothing, hshort⟩]
    · obtain ⟨part, hpart⟩ : lengthBytes <+: r.source.available :=
        List.prefix_of_prefix_length_le (List.prefix_append _ _) hcut (Nat.le_of_not_lt hshort)
      rw [← hpart, List.prefix_append_right_inj] at hcut
      have hless : part.length < body.length := by
        refine lt_of_le_of_ne hcut.length_le fun hsame => hproper ?_
        rw [← hpart, hcut.eq_of_length hsame]
      rw [if_neg fun h => hshort h.2]
      exact readNewHeader_of_cut_body hreliable hlength hsize hpart.symm hless

/-- A source that holds a front part of the frame of a header, and not all of it: the reader fails
with an error of the archive domain, having taken what was there.  The code is that of a bad header
exactly if the cut is not inside the length.  Inside the length it is that of a truncated
section. -/
theorem cut_header_is_bad_header_unless_in_length (hnew : r.header = none)
    {lengthBytes body : Bytes} (hlength : Varint.Spells body.length lengthBytes)
    (hsize : body.length ≤ r.options.maxHeaderSize)
    (hcut : r.source.available <+: lengthBytes ++ body)
    (hproper : r.source.available ≠ lengthBytes ++ body) :
    let cut := r.source.available
    let inLength := cut ≠ [] ∧ cut.length < lengthBytes.length
    ∃ e, r.readHeader.1 = .error e ∧ r.Takes cut.length r.readHeader.2 ∧ e.domain = .archive ∧
      e.context = [utf8 "stream offset " ++ decimal (r.bytesConsumed + cut.length)] ∧
      (¬inLength → e.code = 0x106 ∧ e.message = utf8 "CAR header truncated") ∧
      (inLength → e.code = 0x102 ∧ e.message = utf8 "Section length prefix truncated") := by
  intro cut inLength
  obtain ⟨r', hread, htakes⟩ := readHeader_of_cut hreliable hnew hlength hsize hcut hproper
  rw [hread]
  refine ⟨_, rfl, htakes, rfl, rfl, fun hin => ?_, fun hin => ?_⟩
  · rw [Header.cutFault, if_neg hin]
    exact ⟨Error.code_framing .., rfl⟩
  · rw [Header.cutFault, if_pos hin]
    exact ⟨Error.code_framing .., rfl⟩

end

/-- A header with three roots, whose length takes two bytes, from a stream that ends inside its
body. -/
theorem cut_header_is_bad_header_in_body :
    let root : Bytes := [0x01, 0x55, 0x12, 0x20] ++ List.replicate 32 0
    let frame := framed (Header.encodeBody [root, root, root] 1)
    let r : Reader := { source := .ofStream (frame.take 60), options := {} }
    frame.take 2 = [0x8c, 0x01] ∧ frame.length = 142 ∧
      ∃ e, r.readHeader.1 = .error e ∧ r.Takes 60 r.readHeader.2 ∧ e.code = 0x106 := by
  intro root frame r
  have hreliable : r.source.device ≠ .stream true := by decide +kernel
  have hcut : r.source.available.length = 60 := by decide +kernel
  have hbehind : ¬(r.source.available ≠ [] ∧ 60 < (frame.take 2).length) := by decide +kernel
  obtain ⟨e, hread, htakes, -, -, hcode, -⟩ :=
    @cut_header_is_bad_header_unless_in_length r hreliable rfl (frame.take 2) (frame.drop 2)
      (Varint.read?_eq_some_nil_iff.1 (by decide +kernel)) (by decide +kernel)
      (by decide +kernel) (by decide +kernel)
  rw [hcut] at htakes hcode
  exact ⟨by decide +kernel, by decide +kernel, e, hread, htakes, (hcode hbehind).1⟩

/-- The same header, of which the first byte is there.  Its length is cut, and the code is not that
of a bad header. -/
theorem cut_length_is_no_bad_header :
    let root : Bytes := [0x01, 0x55, 0x12, 0x20] ++ List.replicate 32 0
    let body := Header.encodeBody [root, root, root] 1
    let r : Reader := { source := .ofMemory [0x8c] 0, options := {} }
    (∃ header, Header.decode body = .ok header) ∧ body.length ≤ r.options.maxHeaderSize ∧
      r.source.available <+: framed body ∧ r.source.available ≠ framed body ∧
      r.readHeader.1 = .error (.framing .lengthTruncated 1) ∧
      (Error.framing .lengthTruncated 1).code ≠ 0x106 := by
  intro root body r
  refine ⟨?_, by decide +kernel, by decide +kernel, by decide +kernel, by decide +kernel, ?_⟩
  · cases hbody : Header.decode body with
    | ok header => exact ⟨header, rfl⟩
    | error fault =>
      have hok : (Header.decode body).toBool = true := by decide +kernel
      rw [hbody] at hok
      cases hok
  · rw [Error.code_framing]
    decide

end Reader

end CarSlice.Archive
