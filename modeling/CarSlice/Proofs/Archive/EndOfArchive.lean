import CarSlice.Proofs.Archive.Digests
import CarSlice.Proofs.Archive.Positions
import CarSlice.Proofs.Archive.RoundTrip

/-!
# The end of an archive

A reader finds the end of an archive where its source has no more bytes, or at a section of length
zero.  It does not remember that it has found it, so what it does afterwards depends on what
follows in the source.

* `StaysAtEnd` says that no later call takes a byte or answers anything else than the end.
* `staysAtEnd_iff`: a reader stays at its end exactly if its source is spent.
* `end_is_final_unless_marked` puts this together with `end_of_nextSection` for every row of
  calls.  An end without a marker is final, and an end with a marker is so exactly if nothing
  follows the marker.
-/

namespace CarSlice.Archive.Reader

/-- A reader that has come to its end for good: whatever is called, a call for a block finds the
end, and no byte is taken. -/
def StaysAtEnd (r : Reader) : Prop :=
  ∀ calls : List Call,
    (∀ result, .next result ∈ (r.perform calls).1 → result = .ok none) ∧
      (r.perform calls).2.bytesConsumed = r.bytesConsumed ∧
      (r.perform calls).2.source.position = r.source.position

/-! ## Spent sources -/

/-- One call to a reader whose source is spent. -/
theorem call_of_spent {r : Reader} (hheader : r.header.isSome = true) (hspent : r.source.Spent)
    (c : Call) :
    (∀ result, .next result = (r.call c).1 → result = .ok none) ∧
      r.Passed [] (r.call c).2 ∧ (r.call c).2.source.Spent ∧
      (r.call c).2.bytesConsumed = r.bytesConsumed := by
  cases c with
  | header =>
    obtain ⟨header, hread⟩ := readHeader_of_isSome hheader
    rw [call, hread]
    refine ⟨fun result hresult => ?_, r.passed_nil, hspent, rfl⟩
    cases hresult
  | next =>
    obtain ⟨r', hnext, -, hpassed, hspent'⟩ := next_of_spent hheader hspent
    have hcounts := r.counts_next
    rw [hnext, Counts, hpassed.source.position] at hcounts
    rw [call, hnext]
    exact ⟨fun result hresult => Answer.next.inj hresult, hpassed, hspent',
      (Nat.add_left_cancel hcounts).symm⟩

theorem staysAtEnd_of_spent {r : Reader} (hheader : r.header.isSome = true)
    (hspent : r.source.Spent) : r.StaysAtEnd := by
  intro calls
  induction calls generalizing r with
  | nil =>
    refine ⟨fun result hmem => ?_, rfl, rfl⟩
    cases hmem
  | cons c calls ih =>
    obtain ⟨hanswer, hpassed, hspent', hcount⟩ := call_of_spent hheader hspent c
    obtain ⟨hanswers, hcounts, hposition⟩ := ih (hpassed.header ▸ hheader) hspent'
    refine ⟨fun result hmem => ?_, hcounts.trans hcount, hposition.trans hpassed.source.position⟩
    rcases List.mem_cons.1 hmem with hfirst | hrest
    · exact hanswer result hfirst
    · exact hanswers result hrest

/-- A reader stays at its end exactly if its source is spent.  Otherwise its next call takes a byte
or does not find an end. -/
theorem staysAtEnd_iff {r : Reader} (hheader : r.header.isSome = true) :
    r.StaysAtEnd ↔ r.source.Spent := by
  refine ⟨fun hstays => ?_, staysAtEnd_of_spent hheader⟩
  obtain ⟨hanswers, -, hposition⟩ := hstays [.next]
  have hnext : r.nextSection = (.ok none, r.next.2) := by
    rw [← next_eq_nextSection hheader]
    exact Prod.ext (hanswers r.next.1 (List.mem_singleton.2 rfl)) rfl
  rcases end_of_nextSection hnext with ⟨hspent, -, -⟩ | ⟨marker, hpassed, -, hread⟩
  · exact hspent
  · -- A marker is at least one byte, which was taken.
    exfalso
    have hmoved := hpassed.source.position
    have hsame : r.next.2.source.position = r.source.position := hposition
    rw [hsame] at hmoved
    have hnil : marker = [] := List.length_eq_zero_iff.1 (Nat.left_eq_add.1 hmoved)
    rw [hnil] at hread
    cases hread

/-! ## Rows of calls -/

/-- Calls in any order, of which the last finds the end: behind the header it takes the bytes that
mark the end, if there are any.  It was the end for good if there are none, which is so for every
archive where a section of length zero is refused, and otherwise exactly if nothing comes behind
the marker. -/
theorem end_is_final_unless_marked {source : Source} {options : ReaderOptions} {calls : List Call}
    {r' : Reader}
    (hend : (perform { source, options } calls).2.next = (.ok none, r')) :
    ∃ header r marker, (perform { source, options } calls).2.readHeader = (.ok header, r) ∧
      r.Passed marker r' ∧ IsEndMarker options marker ∧
      (options.emptyEndsArchive = false → marker = []) ∧
      (marker = [] → r'.StaysAtEnd) ∧ (r'.StaysAtEnd ↔ r'.source.Spent) := by
  have hoptions := options_perform { source, options } calls
  cases hread : (perform { source, options } calls).2.readHeader with
  | mk result r =>
    cases result with
    | error e =>
      rw [next, hread] at hend
      cases hend
    | ok header =>
      have hheader := isSome_of_readHeader hread
      rw [next_of_readHeader hread, next_eq_nextSection hheader] at hend
      have hkept : r.options = options := (advances_of_readHeader hread).options.trans hoptions
      rcases end_of_nextSection hend with ⟨-, hpassed, hspent⟩ | ⟨marker, hpassed, hends, hzero⟩
      · have hheader' : r'.header.isSome = true := hpassed.header ▸ hheader
        exact ⟨header, r, [], rfl, hpassed, Or.inl rfl, fun _ => rfl,
          fun _ => staysAtEnd_of_spent hheader' hspent, staysAtEnd_iff hheader'⟩
      · have hheader' : r'.header.isSome = true := hpassed.header ▸ hheader
        rw [hkept] at hends
        refine ⟨header, r, marker, rfl, hpassed, Or.inr ⟨hends, hzero⟩, ?_, ?_,
          staysAtEnd_iff hheader'⟩
        · intro hrefused
          rw [hrefused] at hends
          cases hends
        · intro hnil
          rw [hnil] at hzero
          cases hzero

/-- A header with nothing behind it, that comes in pieces of three bytes. -/
theorem end_behind_header_is_final :
    let bytes := encode [[0x01, 0x70, 0x00, 0x00]] []
    let r := (perform { source := .ofMemory bytes 3, options := {} } [.header]).2
    r.next.1 = .ok none ∧ r.next.2.StaysAtEnd := by
  intro bytes r
  have hend : r.next.1 = .ok none := by decide +kernel
  obtain ⟨header, r₁, marker, -, -, -, -, -, hstays⟩ :=
    @end_is_final_unless_marked (.ofMemory bytes 3) {} [.header] r.next.2 (Prod.ext hend rfl)
  have hnothing : r.next.2.source.available = [] := by decide +kernel
  have hdevice : r.next.2.source.device ≠ .stream true := by decide +kernel
  exact ⟨hend, hstays.2 ⟨hnothing, Or.inr hdevice⟩⟩

/-- A marker with a section behind it.  The call that comes after the end gives the block. -/
theorem marked_end_is_left :
    let root : Bytes := [0x01, 0x70, 0x00, 0x00]
    let leaf : Bytes := [0x01, 0x55, 0x00, 0x00]
    let bytes := encode [root] [] ++ 0x00 :: framed (leaf ++ [0x61, 0x62])
    let r : Reader := { source := .ofMemory bytes 0, options := {} }
    let answers := (r.perform [.header, .next, .next]).1
    answers.map Answer.isEnd = [false, true, false] ∧
      answers.filterMap (fun a => a.block?.map Block.payload) = [[0x61, 0x62]] ∧
      ¬(r.perform [.header, .next]).2.StaysAtEnd := by
  intro root leaf bytes r answers
  refine ⟨by decide +kernel, by decide +kernel, fun hstays => ?_⟩
  have hposition := (hstays [.next]).2.2
  revert hposition
  decide +kernel

end CarSlice.Archive.Reader
