import CarSlice.Proofs.Archive.Digests
import CarSlice.Proofs.Archive.Failures
import CarSlice.Proofs.Archive.Positions

/-!
# The section ahead

Behind the header, what a call for a block comes to is settled by the bytes that the source still
holds and by the options, and by nothing else that happened before.  `ahead` says what it is, case
by case: the answer, and how many bytes the call takes.

* `Reader.Takes` is a reader behind a number of bytes that it has counted.
* `readLength_of_more` is the induction over the bytes of a length that is not at its end yet.
  From it follow the two ways in which a length is malformed (`nextLength_of_truncated`,
  `nextLength_of_overlong`).  `nextLength_of_spells` reads one that is there.
* `readBody_of_reliable` reads a body as far as it is there, `readSection_of_le` judges it, and
  `next_follows_ahead` puts the cases together.
-/

namespace CarSlice.Archive

/-! ## The reference -/

/-- What a call for a block answers, and how many bytes it takes. -/
structure Outcome where
  answer : Except Error (Option Block)
  taken : Nat
  deriving DecidableEq

/-- The framing is found malformed behind `taken` more bytes. -/
def Outcome.malformed (fault : FramingFault) (place taken : Nat) : Outcome :=
  ⟨.error (.framing fault (place + taken)), taken⟩

/-- What the contents of a section that ends at `place` are. -/
def judged (options : ReaderOptions) (place : Nat) (lengthBytes body : Bytes) :
    Except Error (Option Block) :=
  match Cid.decode? body with
  | none => .error (.framing .badCid place)
  | some (cid, payload) =>
    let block : Block := { lengthBytes, cid, payload }
    if options.verifyDigests = true ∧ block.Forged then .error (.digestMismatch cid.toText)
    else .ok (some block)

/-- What comes of a section with the given length and some bytes behind it. -/
def aheadOfLength (options : ReaderOptions) (place : Nat) (lengthBytes rest : Bytes) : Outcome :=
  let length := Varint.spelled lengthBytes
  let prefixed := lengthBytes.length
  if length = 0 then
    if options.emptyEndsArchive then ⟨.ok none, prefixed⟩
    else .malformed .sectionEmpty place prefixed
  else if options.maxSectionSize < length then .malformed .sectionTooLarge place prefixed
  else if rest.length < length then .malformed .sectionTruncated place (prefixed + rest.length)
  else
    let taken := prefixed + length
    ⟨judged options (place + taken) lengthBytes (rest.take length), taken⟩

/-- What a call for a block comes to behind the header, at a place in the archive from which on
there are the given bytes. -/
def ahead (options : ReaderOptions) (place : Nat) (left : Bytes) : Outcome :=
  if left = [] then ⟨.ok none, 0⟩
  else if left.length ≤ 8 ∧ left.all (128 ≤ ·) then .malformed .lengthTruncated place left.length
  else if 9 ≤ left.length ∧ (left.take 9).all (128 ≤ ·) then .malformed .lengthOverlong place 9
  else
    let prefixed := left.findIdx (· < 128) + 1
    aheadOfLength options place (left.take prefixed) (left.drop prefixed)

namespace Reader

/-! ## Bytes that are taken -/

/-- A reader behind so many more bytes, which it has counted. -/
structure Takes (r : Reader) (n : Nat) (r' : Reader) : Prop where
  passed : r.Passed (r.source.available.take n) r'
  consumed : r'.bytesConsumed = r.bytesConsumed + n

/-- A reader that passed bytes and counts them has taken them off the front. -/
theorem takes_of_passed {r r' : Reader} {bytes rest : Bytes} (hpassed : r.Passed bytes r')
    (hcounts : r.Counts r') (havailable : r.source.available = bytes ++ rest) :
    r.Takes bytes.length r' := by
  refine ⟨by rwa [havailable, List.take_left], ?_⟩
  have hposition := hpassed.source.position
  rw [Counts, hposition] at hcounts
  omega

theorem Takes.available {r r' : Reader} {n : Nat} (h : r.Takes n r') :
    r'.source.available = r.source.available.drop n := by
  by_cases hclosed : r.source.closed = true
  · rw [Source.available_of_closed hclosed, List.drop_nil]
    exact Source.available_of_closed (h.passed.source.closed.trans hclosed)
  · have hopen : r.source.closed = false := by simpa using hclosed
    have hunread := h.passed.source.unread
    rw [Source.available_of_open hopen] at hunread ⊢
    rw [Source.available_of_open (h.passed.source.closed.trans hopen)]
    exact List.append_cancel_left (hunread.symm.trans (List.take_append_drop n _).symm)

theorem Takes.trans {r r' r'' : Reader} {m n : Nat} (h : r.Takes m r') (h' : r'.Takes n r'') :
    r.Takes (m + n) r'' := by
  refine ⟨?_, by rw [h'.consumed, h.consumed, Nat.add_assoc]⟩
  rw [List.take_add, ← h.available]
  exact h.passed.trans h'.passed

/-- One more byte. -/
theorem takes_byte {r : Reader} (hreliable : r.source.Reliable) {b : UInt8} {rest : Bytes}
    (havailable : r.source.available = b :: rest) :
    ∃ source, r.source.read 1 = (.ok [b], source) ∧ source.Reliable ∧
      r.Takes 1 { r with source, bytesConsumed := r.bytesConsumed + 1 } := by
  obtain ⟨source, hread, hdevice⟩ := Source.read_one_of_reliable hreliable
  rw [havailable, List.take_succ_cons, List.take_zero] at hread
  refine ⟨source, hread, hreliable.of_device hdevice, ⟨?_, rfl, rfl⟩, rfl⟩
  rw [havailable]
  exact Source.gave_of_read_one hread

theorem takes_verify (r : Reader) (block : Block) : r.Takes 0 (r.verify block).2 :=
  takes_of_passed (r.passed_verify block) (carried_counts.verify r block) (List.nil_append _).symm

/-! ## Lengths -/

section

variable {r : Reader} (hreliable : r.source.Reliable)

include hreliable

/-- The bytes of a length that say that more is to come are taken one after the other. -/
theorem readLength_of_more {more rest : Bytes} (hmore : ∀ b ∈ more, 128 ≤ b)
    (havailable : r.source.available = more ++ rest) {acc : Varint.Accumulator}
    (hstatus : acc.status = .needMore) (hroom : acc.length + more.length < Varint.maxLength)
    (seen : Bytes) :
    ∃ acc' r', r.readLength acc seen = r'.readLength acc' (seen ++ more) ∧
      r.Takes more.length r' ∧ r'.source.Reliable ∧ acc'.status = .needMore ∧
      acc'.length = acc.length + more.length := by
  induction more generalizing r acc seen with
  | nil =>
    refine ⟨acc, r, by rw [List.append_nil], ⟨?_, rfl⟩, hreliable, hstatus, rfl⟩
    exact r.passed_nil
  | cons b more ih =>
    rw [List.forall_mem_cons] at hmore
    rw [List.length_cons] at hroom
    obtain ⟨source, hread, hreliable₁, htakes₁⟩ := takes_byte hreliable havailable
    have hb : ¬b < 128 := UInt8.not_lt.2 hmore.1
    obtain ⟨hneed, hlength, -⟩ := Varint.Accumulator.push_more hstatus (by omega) hb
    have havailable₁ := htakes₁.available
    rw [havailable, List.cons_append, List.drop_one, List.tail_cons] at havailable₁
    obtain ⟨acc', r', hrest, htakes, hreliable', hstatus', hlength'⟩ :=
      ih hreliable₁ hmore.2 havailable₁ hneed (by omega) (seen ++ [b])
    refine ⟨acc', r', ?_, ?_, hreliable', hstatus', ?_⟩
    · rw [List.append_assoc, List.singleton_append] at hrest
      rw [← hrest, readLength, hread]
      dsimp only
      split
      · next h => rw [hneed] at h; cases h
      · next h => rw [hneed] at h; cases h
      · rfl
    · rw [List.length_cons, Nat.add_comm]
      exact htakes₁.trans htakes
    · rw [hlength', hlength, List.length_cons, Nat.add_comm more.length, Nat.add_assoc]

/-- Where nothing is left there is no length, and nothing is taken. -/
theorem nextLength_of_nothing (hnothing : r.source.available = []) :
    ∃ r', r.nextLength = (.ok none, r') ∧ r.Takes 0 r' := by
  obtain ⟨r', hlength, -, hpassed, -⟩ := nextLength_of_spent ⟨hnothing, Or.inr hreliable⟩
  have hcounts := r.counts_readLength {} []
  rw [show r.readLength {} [] = (_, r') from hlength] at hcounts
  exact ⟨r', hlength, takes_of_passed hpassed hcounts (List.nil_append _).symm⟩

/-- A length that was begun is not complete where the source ends. -/
theorem nextLength_of_truncated (hbegun : r.source.available ≠ [])
    (hroom : r.source.available.length < Varint.maxLength)
    (hmore : ∀ b ∈ r.source.available, 128 ≤ b) :
    ∃ r', r.nextLength = (.error (.framing .lengthTruncated
        (r.bytesConsumed + r.source.available.length)), r') ∧
      r.Takes r.source.available.length r' := by
  have hstatus : ({} : Varint.Accumulator).status = .needMore := rfl
  obtain ⟨acc, r₁, hlength, htakes₁, hreliable₁, -, hstarted⟩ :=
    readLength_of_more hreliable hmore (List.append_nil _).symm hstatus (by rwa [Nat.zero_add]) []
  have hnothing : r₁.source.available = [] := by
    rw [htakes₁.available, List.drop_length]
  obtain ⟨source, hread, -, hgave, -⟩ := Source.Spent.read ⟨hnothing, Or.inr hreliable₁⟩
  have hbegun : acc.started = true := by
    simpa [Varint.Accumulator.started, hstarted] using hbegun
  have hended : r₁.Takes 0 { r₁ with source } := ⟨⟨hgave, rfl, rfl⟩, rfl⟩
  refine ⟨{ r₁ with source }, ?_, htakes₁.trans hended⟩
  rw [nextLength, hlength, readLength, hread, ← htakes₁.consumed]
  exact if_pos hbegun

/-- A length does not go on behind its ninth byte. -/
theorem nextLength_of_overlong (hroom : Varint.maxLength ≤ r.source.available.length)
    (hmore : ∀ b ∈ r.source.available.take Varint.maxLength, 128 ≤ b) :
    ∃ r', r.nextLength =
        (.error (.framing .lengthOverlong (r.bytesConsumed + Varint.maxLength)), r') ∧
      r.Takes Varint.maxLength r' := by
  obtain ⟨more, b, rest, havailable, hmore, hb, hlength⟩ := Varint.exists_ninth hroom hmore
  have hstatus : ({} : Varint.Accumulator).status = .needMore := rfl
  obtain ⟨acc, r₁, hread₁, htakes₁, hreliable₁, hstatus₁, hseen⟩ :=
    readLength_of_more hreliable hmore havailable hstatus (by rw [← hlength]; simp) []
  have havailable₁ := htakes₁.available
  rw [havailable, List.drop_left] at havailable₁
  obtain ⟨source, hread, -, htakes⟩ := takes_byte hreliable₁ havailable₁
  have hoverlong : (acc.push b).status = .overlong :=
    Varint.Accumulator.push_overlong hstatus₁ (by rw [hseen, ← hlength]; simp) (UInt8.not_lt.2 hb)
  have htaken := htakes₁.trans htakes
  rw [hlength] at htaken
  refine ⟨{ r₁ with source, bytesConsumed := r₁.bytesConsumed + 1 }, ?_, htaken⟩
  rw [nextLength, hread₁, readLength, hread, ← htaken.consumed]
  dsimp only
  split
  · next h => rw [hoverlong] at h; cases h
  · rfl
  · next h => rw [hoverlong] at h; cases h

/-- A length that is there is read, whatever follows it. -/
theorem nextLength_of_spells {lengthBytes rest : Bytes} {length : Nat}
    (hspells : Varint.Spells length lengthBytes)
    (havailable : r.source.available = lengthBytes ++ rest) :
    ∃ r', r.nextLength = (.ok (some (length, lengthBytes)), r') ∧
      r.Takes lengthBytes.length r' ∧ r'.source.Reliable := by
  have hopen : r.source.closed = false := by
    by_contra hclosed
    rw [Source.available_of_closed (by simpa using hclosed)] at havailable
    exact hspells.ne_nil (List.append_eq_nil_iff.1 havailable.symm).1
  have hunread := havailable
  rw [Source.available_of_open hopen] at hunread
  obtain ⟨r', hnext, hpassed⟩ :=
    nextLength_of_read? (Varint.read?_eq_some_nil_iff.2 hspells) hopen hunread
  have hcounts := r.counts_readLength {} []
  have hreliable' := (@matched_readLength r (.memory 0) hreliable (by simp) 0 {} []).1
  rw [show r.readLength {} [] = (_, r') from hnext] at hcounts hreliable'
  exact ⟨r', hnext, takes_of_passed hpassed hcounts havailable, hreliable'⟩

/-! ## Bodies -/

/-- A body is read as far as it is there. -/
theorem readBody_of_reliable (length : Nat) (short : FramingFault) :
    ∃ r', r.readBody length short =
        (if length ≤ r.source.available.length then .ok (r.source.available.take length)
          else .error (.framing short (r.bytesConsumed + r.source.available.length)), r') ∧
      r.Takes (min length r.source.available.length) r' := by
  obtain ⟨source, hread, -⟩ := Source.readFully_of_reliable hreliable length
  have hgave := Source.gave_of_readFully hread
  have hlength := List.length_take (i := length) (l := r.source.available)
  refine
    ⟨{ r with
        source
        bytesConsumed := r.bytesConsumed + min length r.source.available.length }, ?_, ?_, rfl⟩
  · rw [readBody, hread]
    dsimp only
    rw [hlength]
    split
    · next hfull => rw [if_pos (by omega)]
    · next hshort => rw [if_neg (by omega), framingError, Nat.min_eq_right (by omega)]
  · rw [← List.take_eq_take_min]
    exact ⟨hgave, rfl, rfl⟩

/-- A section that is there is judged by its contents. -/
theorem readSection_of_le {length : Nat} (hlength : length ≤ r.source.available.length)
    (lengthBytes : Bytes) :
    (r.readSection length lengthBytes).1.map some =
        judged r.options (r.bytesConsumed + length) lengthBytes
          (r.source.available.take length) ∧
      r.Takes length (r.readSection length lengthBytes).2 := by
  obtain ⟨r₁, hbody, htakes⟩ := readBody_of_reliable hreliable length .sectionTruncated
  rw [if_pos hlength] at hbody
  rw [Nat.min_eq_left hlength] at htakes
  cases hcid : Cid.decode? (r.source.available.take length) with
  | none =>
    have hsection : r.readSection length lengthBytes = (.error (r₁.framingError .badCid), r₁) := by
      simp only [readSection, hbody, hcid]
    rw [hsection, judged, hcid, ← htakes.consumed]
    exact ⟨rfl, htakes⟩
  | some decoded =>
    obtain ⟨cid, payload⟩ := decoded
    let block : Block := { lengthBytes, cid, payload }
    let counted : Reader := { r₁ with blocksRead := r₁.blocksRead + 1 }
    have hsection : r.readSection length lengthBytes =
        ((counted.verify block).1.map fun _ => block, (counted.verify block).2) :=
      readSection_of_readBody hbody hcid
    have hcounted : r.Takes length counted :=
      ⟨⟨htakes.passed.source, htakes.passed.options, htakes.passed.header⟩, htakes.consumed⟩
    have hoptions : counted.options = r.options := htakes.passed.options
    rw [hsection, judged, hcid]
    refine ⟨?_, hcounted.trans (takes_verify counted block)⟩
    dsimp only
    rw [verify_eq, hoptions]
    split <;> rfl

/-! ## Sections -/

omit hreliable in
/-- Behind its length, a section is read as the reference says. -/
theorem nextSection_of_nextLength {lengthBytes : Bytes} {r₁ : Reader}
    (hlength : r.nextLength = (.ok (some (Varint.spelled lengthBytes, lengthBytes)), r₁))
    (htakes : r.Takes lengthBytes.length r₁) (hreliable₁ : r₁.source.Reliable) :
    let outcome := aheadOfLength r.options r.bytesConsumed lengthBytes r₁.source.available
    r.nextSection.1 = outcome.answer ∧ r.Takes outcome.taken r.nextSection.2 := by
  intro outcome
  have hoptions := htakes.passed.options
  have hplace := htakes.consumed
  simp only [outcome, nextSection, hlength, aheadOfLength, hoptions]
  split
  · split
    · exact ⟨rfl, htakes⟩
    · refine ⟨?_, htakes⟩
      rw [framingError, hplace]
      rfl
  · split
    · refine ⟨?_, htakes⟩
      rw [framingError, hplace]
      rfl
    · by_cases hshort : r₁.source.available.length < Varint.spelled lengthBytes
      · obtain ⟨r₂, hbody, htakes₂⟩ := readBody_of_reliable hreliable₁
          (Varint.spelled lengthBytes) .sectionTruncated
        rw [if_neg (Nat.not_le.2 hshort), hplace, Nat.add_assoc] at hbody
        rw [Nat.min_eq_right (Nat.le_of_lt hshort)] at htakes₂
        simp only [readSection, hbody, if_pos hshort]
        exact ⟨rfl, htakes.trans htakes₂⟩
      · obtain ⟨hjudged, htakes₂⟩ :=
          readSection_of_le hreliable₁ (Nat.le_of_not_lt hshort) lengthBytes
        rw [hoptions, hplace, Nat.add_assoc] at hjudged
        rw [if_neg hshort, ← hjudged]
        generalize r₁.readSection (Varint.spelled lengthBytes) lengthBytes = result at htakes₂ ⊢
        rcases result with ⟨_ | _, r₂⟩
        · exact ⟨rfl, htakes.trans htakes₂⟩
        · exact ⟨rfl, htakes.trans htakes₂⟩

theorem nextSection_follows_ahead :
    r.nextSection.1 = (ahead r.options r.bytesConsumed r.source.available).answer ∧
      r.Takes (ahead r.options r.bytesConsumed r.source.available).taken r.nextSection.2 := by
  simp only [ahead, List.all_eq_true, decide_eq_true_eq]
  split
  · next hnothing =>
    obtain ⟨r', hlength, htakes⟩ := nextLength_of_nothing hreliable hnothing
    rw [nextSection, hlength]
    exact ⟨rfl, htakes⟩
  · next hsome =>
    split
    · next h =>
      obtain ⟨r', hlength, htakes⟩ :=
        nextLength_of_truncated hreliable hsome (Nat.lt_succ_of_le h.1) h.2
      rw [nextSection, hlength]
      exact ⟨rfl, htakes⟩
    · next hshort =>
      split
      · next h =>
        obtain ⟨r', hlength, htakes⟩ := nextLength_of_overlong hreliable h.1 h.2
        rw [nextSection, hlength]
        exact ⟨rfl, htakes⟩
      · next hlong =>
        obtain ⟨more, last, rest, hleft, hmore, hlast, hroom⟩ :=
          Varint.exists_last (fun h => hshort ⟨Nat.le_of_lt_succ h.1, h.2⟩) hlong
        have hprefixed : r.source.available.findIdx (· < 128) + 1 = (more ++ [last]).length := by
          rw [hleft, Varint.findIdx_last hmore hlast, List.length_append, List.length_singleton]
        rw [List.append_cons] at hleft
        obtain ⟨r₁, hlength, htakes, hreliable₁⟩ :=
          nextLength_of_spells hreliable (.mk hmore hlast hroom) hleft
        have hrest := htakes.available
        rw [hprefixed, ← hrest, hleft, List.take_left]
        exact nextSection_of_nextLength hlength htakes hreliable₁

/-- Behind the header, a call for a block comes to what the bytes that are left and the options
say. -/
theorem next_follows_ahead (hheader : r.header.isSome = true) :
    let outcome := ahead r.options r.bytesConsumed r.source.available
    r.next.1 = outcome.answer ∧ r.Takes outcome.taken r.next.2 ∧
      (∀ place, [FramingFault.lengthTruncated, .lengthOverlong, .sectionEmpty, .sectionTooLarge,
          .sectionTruncated, .badCid].map (fun fault => (Error.framing fault place).code) =
        [0x102, 0x104, 0x101, 0x103, 0x102, 0x105]) ∧
      ∀ cid, (Error.digestMismatch cid).code = 0x301 := by
  intro outcome
  rw [next_eq_nextSection hheader]
  obtain ⟨hanswer, htakes⟩ := nextSection_follows_ahead hreliable
  refine ⟨hanswer, htakes, fun _ => ?_, Error.code_digestMismatch⟩
  simp [Error.code_framing, FramingFault.offset]

end

/-- A section whose payload does not match is refused behind its last byte, and then a length that
does not end. -/
theorem next_follows_ahead_forged :
    let bytes := encode [[0x01, 0x70, 0x00, 0x00]] [] ++
      [0x06, 0x01, 0x55, 0x00, 0x00, 0x61, 0x62, 0x80]
    let r := (perform { source := .ofMemory bytes 2, options := { verifyDigests := true } }
      [.header]).2
    r.next.1 = .error (.digestMismatch (utf8 "bafkqaaa")) ∧ r.Takes 7 r.next.2 ∧
      r.next.2.next.1 = .error (.framing .lengthTruncated bytes.length) ∧
      r.next.2.Takes 1 r.next.2.next.2 := by
  intro bytes r
  have hreliable (r' : Reader) (h : r'.source.device = .memory 2) : r'.source.Reliable := by
    simp [Source.Reliable, h]
  obtain ⟨hanswer, htakes, -⟩ :=
    next_follows_ahead (hreliable r (by decide +kernel)) (by decide +kernel)
  obtain ⟨hanswer', htakes', -⟩ :=
    next_follows_ahead (hreliable r.next.2 (by decide +kernel)) (by decide +kernel)
  have hforged : ahead r.options r.bytesConsumed r.source.available =
      ⟨.error (.digestMismatch (utf8 "bafkqaaa")), 7⟩ := by decide +kernel
  have hended : ahead r.next.2.options r.next.2.bytesConsumed r.next.2.source.available =
      ⟨.error (.framing .lengthTruncated bytes.length), 1⟩ := by decide +kernel
  rw [hforged] at hanswer htakes
  rw [hended] at hanswer' htakes'
  exact ⟨hanswer, htakes, hanswer', htakes'⟩

end Reader

end CarSlice.Archive
