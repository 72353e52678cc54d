import CarSlice.Proofs.Archive.Digests
import CarSlice.Proofs.Archive.Failures
import CarSlice.Proofs.Archive.Unread

/-!
# Checking is an overlay

A reader that compares digests reads what a reader reads that does not.  It takes the same bytes,
counts the same blocks and finds the same faults.  Only where the other one returns a block that is
forged it refuses that block, and it goes on behind it like the other.

* `Answer.checked` is what the comparison makes of an answer.
* `Reader.checking` is a reader that compares digests in the place of one that does not.  Each
  function of a reader has one lemma that says what it does instead.  Up to `verify` it does the
  same.
* `perform_checking` is the induction over a row of calls.
-/

namespace CarSlice.Archive

/-! ## Answers -/

/-- The block, unless it is forged. -/
def Block.checked (b : Block) : Except Error Block :=
  if b.Forged then .error (.digestMismatch b.cid.toText) else .ok b

namespace Reader

/-- What the comparison of digests makes of the answer to a call for a block. -/
def checkedResult : Except Error (Option Block) → Except Error (Option Block)
  | .ok (some block) => block.checked.map some
  | result => result

/-- What the comparison of digests makes of an answer. -/
def Answer.checked : Answer → Answer
  | .next result => .next (checkedResult result)
  | .header result => .header result

/-- The same reader, but it compares digests.  It may have found some number of blocks that cannot
be verified. -/
def checking (r : Reader) (unverified : Nat) : Reader :=
  { r with options := { r.options with verifyDigests := true }, unverified := unverified }

section

variable (r : Reader) (n : Nat)

/-! ## Up to the check -/

theorem nextLength_checking :
    (r.checking n).nextLength = (r.nextLength.1, r.nextLength.2.checking n) := by
  have hmoved : r.nextLength.2 = r.movedTo r.nextLength.2 := moved_of_nextLength rfl
  rw [hmoved]
  exact readLength_movedTo (r.checking n) r {} []

theorem readBody_checking (length : Nat) (short : FramingFault) :
    (r.checking n).readBody length short =
      ((r.readBody length short).1, (r.readBody length short).2.checking n) := by
  have hmoved : (r.readBody length short).2 = r.movedTo (r.readBody length short).2 :=
    moved_of_readBody rfl
  rw [hmoved]
  exact readBody_movedTo (r.checking n) r length short

theorem readHeader_checking :
    (r.checking n).readHeader = (r.readHeader.1, r.readHeader.2.checking n) := by
  unfold readHeader
  rw [show (r.checking n).header = r.header from rfl]
  cases r.header with
  | some header => rfl
  | none =>
    dsimp only
    unfold readNewHeader
    rw [nextLength_checking]
    rcases r.nextLength with ⟨_ | _ | ⟨length, lengthBytes⟩, r₁⟩
    · rfl
    · rfl
    · dsimp only
      split
      · rfl
      · show (if r₁.options.maxHeaderSize < length then _ else _) = _
        split
        · rfl
        · rw [readBody_checking]
          rcases r₁.readBody length .headerTruncated with ⟨_ | body, r₂⟩
          · rfl
          · dsimp only
            split <;> rfl

/-! ## The check -/

theorem verify_checking (block : Block) :
    ∃ m, (r.checking n).verify block = (block.checked.map fun _ => (), r.checking m) := by
  unfold verify Block.checked
  rw [if_pos (show (r.checking n).options.verifyDigests = true from rfl)]
  split
  · next h =>
    rw [if_neg fun hforged => by rw [Block.forged_iff.1 hforged] at h; cases h]
    exact ⟨n, rfl⟩
  · next h =>
    rw [if_neg fun hforged => by rw [Block.forged_iff.1 hforged] at h; cases h]
    exact ⟨n + 1, rfl⟩
  · next h =>
    rw [if_pos (Block.forged_iff.2 h)]
    exact ⟨n, rfl⟩

end

section

variable {r : Reader} (hoff : r.options.verifyDigests = false) (n : Nat)

include hoff

/-- A section is taken and counted in the same way, and then its block is checked. -/
theorem readSection_checking (length : Nat) (lengthBytes : Bytes) :
    ∃ m, (r.checking n).readSection length lengthBytes =
      ((r.readSection length lengthBytes).1.bind Block.checked,
        (r.readSection length lengthBytes).2.checking m) := by
  have hchecked := r.readBody_checking n length .sectionTruncated
  rcases hbody : r.readBody length .sectionTruncated with ⟨_ | body, r₁⟩
  · rw [hbody] at hchecked
    simp only [readSection, hbody, hchecked]
    exact ⟨n, rfl⟩
  · rw [hbody] at hchecked
    cases hcid : Cid.decode? body with
    | none =>
      simp only [readSection, hbody, hchecked, hcid]
      exact ⟨n, rfl⟩
    | some decoded =>
      obtain ⟨cid, payload⟩ := decoded
      let block : Block := { lengthBytes, cid, payload }
      let counted : Reader := { r₁ with blocksRead := r₁.blocksRead + 1 }
      have hoff₁ : counted.options.verifyDigests = false := by
        show r₁.options.verifyDigests = false
        rw [(advances_of_readBody hbody).options, hoff]
      have hplain : counted.verify block = (.ok (), counted) := verify_of_unchecked hoff₁ block
      obtain ⟨m, hverify⟩ := counted.verify_checking n block
      refine ⟨m, ?_⟩
      rw [readSection_of_readBody hbody hcid, readSection_of_readBody hchecked hcid]
      show (((counted.checking n).verify block).1.map fun _ => block,
          ((counted.checking n).verify block).2) =
        (((counted.verify block).1.map fun _ => block).bind Block.checked,
          (counted.verify block).2.checking m)
      rw [hplain, hverify]
      show ((block.checked.map fun _ => ()).map fun _ => block, counted.checking m) =
        (block.checked, counted.checking m)
      by_cases hforged : block.Forged
      · rw [show block.checked = .error _ from if_pos hforged]
        rfl
      · rw [show block.checked = .ok block from if_neg hforged]
        rfl

theorem nextSection_checking :
    ∃ m, (r.checking n).nextSection =
      (checkedResult r.nextSection.1, r.nextSection.2.checking m) := by
  unfold nextSection
  rw [nextLength_checking]
  rcases hlength : r.nextLength with ⟨_ | _ | ⟨length, lengthBytes⟩, r₁⟩
  · exact ⟨n, rfl⟩
  · exact ⟨n, rfl⟩
  · have hoff₁ : r₁.options.verifyDigests = false := by
      rw [(advances_of_nextLength hlength).options, hoff]
    dsimp only
    split
    · show ∃ m, (if r₁.options.emptyEndsArchive = true then _ else _) = _
      split
      · exact ⟨n, rfl⟩
      · exact ⟨n, rfl⟩
    · show ∃ m, (if r₁.options.maxSectionSize < length then _ else _) = _
      split
      · exact ⟨n, rfl⟩
      · obtain ⟨m, hsection⟩ := readSection_checking hoff₁ n length lengthBytes
        rw [hsection]
        rcases r₁.readSection length lengthBytes with ⟨_ | block, r₂⟩
        · exact ⟨m, rfl⟩
        · refine ⟨m, ?_⟩
          dsimp only [Except.bind, checkedResult]
          cases block.checked with
          | error e => rfl
          | ok b => rfl

theorem next_checking :
    ∃ m, (r.checking n).next = (checkedResult r.next.1, r.next.2.checking m) := by
  unfold next
  rw [readHeader_checking]
  rcases hread : r.readHeader with ⟨_ | header, r₁⟩
  · exact ⟨n, rfl⟩
  · have hoff₁ : r₁.options.verifyDigests = false := by
      rw [(advances_of_readHeader hread).options, hoff]
    exact nextSection_checking hoff₁ n

/-! ## Rows of calls -/

theorem call_checking (c : Call) :
    ∃ m, (r.checking n).call c = ((r.call c).1.checked, (r.call c).2.checking m) := by
  cases c with
  | header =>
    refine ⟨n, ?_⟩
    rw [call, readHeader_checking]
    rfl
  | next =>
    obtain ⟨m, hnext⟩ := next_checking hoff n
    refine ⟨m, ?_⟩
    rw [call, hnext]
    rfl

theorem perform_checking (calls : List Call) :
    ∃ m, (r.checking n).perform calls =
      ((r.perform calls).1.map Answer.checked, (r.perform calls).2.checking m) := by
  induction calls generalizing r n with
  | nil => exact ⟨n, rfl⟩
  | cons c calls ih =>
    obtain ⟨m, hcall⟩ := call_checking hoff n c
    obtain ⟨m', hrest⟩ := ih (by rw [r.options_call c, hoff]) m
    refine ⟨m', ?_⟩
    rw [perform, hcall, hrest]
    rfl

end

/-- Two readers of the same source, of which one compares digests and the other does not, after any
row of calls, whether these failed or not: they have taken the same bytes and counted the same
blocks, and their answers are the same, one by one, except that a block that the second one
returned is refused by the first one if its hash function can be recomputed and gives another
digest. -/
theorem checking_is_overlay (source : Source) (options : ReaderOptions) (calls : List Call) :
    let plain := perform { source, options := { options with verifyDigests := false } } calls
    let checked := perform { source, options := { options with verifyDigests := true } } calls
    checked.1 = plain.1.map Answer.checked ∧ checked.2.source = plain.2.source ∧
      checked.2.bytesConsumed = plain.2.bytesConsumed ∧
      checked.2.blocksRead = plain.2.blocksRead ∧
      ∀ cid, (Error.digestMismatch cid).code = 0x301 := by
  intro plain checked
  let r : Reader := { source, options := { options with verifyDigests := false } }
  obtain ⟨m, hperform⟩ := perform_checking (r := r) rfl 0 calls
  have hchecked : checked = (plain.1.map Answer.checked, plain.2.checking m) := hperform
  rw [hchecked]
  exact ⟨rfl, rfl, rfl, rfl, Error.code_digestMismatch⟩

/-- A forged block in front of a genuine one: it is refused, and the next call goes on behind it. -/
example :
    let forged : Bytes := [0x01, 0x55, 0x00, 0x00] ++ [0x61]
    let genuine : Bytes := [0x01, 0x55, 0x00, 0x01, 0x62] ++ [0x62]
    let bytes := encode [[0x01, 0x70, 0x00, 0x00]] [] ++ framed forged ++ framed genuine
    let answers := (perform { source := .ofMemory bytes 2, options := { verifyDigests := true } }
      [.next, .next, .next]).1
    answers.map Answer.failed = [true, false, false] ∧
      answers.filterMap (fun a => a.block?.map Block.payload) = [[0x62]] := by
  decide +kernel

end Reader

end CarSlice.Archive
