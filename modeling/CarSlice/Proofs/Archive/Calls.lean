import CarSlice.Proofs.Source

/-!
# Rows of calls to a reader

A caller reads the header and the blocks of an archive in any order, and goes on after a
failure.  `Reader.perform` makes a row of such calls and gives every answer.

* `Tallied` relates a reader to the bytes of its source: it has counted exactly what the source
  handed out, and the source still holds the rest.  Every function of a reader keeps it, whether
  it fails or not (`carried_tallied`, `Tallied.perform`).
* `readable_of_next`: a block that was returned is framed as it must be.
* `Copied` says that header and blocks that were returned are all that was taken.  A call
  that returns something keeps it, and the end of an archive takes at most its marker.
* `calls_take_what_they_return` puts these together for every row of calls.
-/

namespace CarSlice.Archive.Reader

/-! ## Calls -/

/-- What a caller may ask of a reader. -/
inductive Call where
  | header
  | next
  deriving Repr, DecidableEq

/-- What a reader answers. -/
inductive Answer where
  | header (result : Except Error Header)
  | next (result : Except Error (Option Block))

/-- Whether the call failed. -/
def Answer.failed : Answer → Bool
  | .header (.error _) | .next (.error _) => true
  | .header (.ok _) | .next (.ok _) => false

/-- Whether the answer is that the archive ends here. -/
def Answer.isEnd : Answer → Bool
  | .next (.ok none) => true
  | _ => false

/-- The block that was returned, if it was one. -/
def Answer.block? : Answer → Option Block
  | .next (.ok block) => block
  | _ => none

/-- A call, with the reader behind it. -/
def call (r : Reader) : Call → Answer × Reader
  | .header => (.header r.readHeader.1, r.readHeader.2)
  | .next => (.next r.next.1, r.next.2)

/-- A row of calls. -/
def perform (r : Reader) : List Call → List Answer × Reader
  | [] => ([], r)
  | c :: calls => ((r.call c).1 :: ((r.call c).2.perform calls).1, ((r.call c).2.perform calls).2)

theorem perform_append (r : Reader) (first second : List Call) :
    r.perform (first ++ second) =
      ((r.perform first).1 ++ ((r.perform first).2.perform second).1,
        ((r.perform first).2.perform second).2) := by
  induction first generalizing r with
  | nil => rfl
  | cons c calls ih => simp [perform, ih]

/-! ## What was counted -/

/-- A reader that has counted what its source handed out of some bytes, and whose source does
not fail. -/
structure Tallied (bytes : Bytes) (r : Reader) : Prop where
  reliable : r.source.Reliable
  position : r.source.position = r.bytesConsumed
  bounded : r.bytesConsumed ≤ bytes.length
  unread : r.source.unread = bytes.drop r.bytesConsumed

theorem tallied_new (bytes : Bytes) (chunk : Nat) (options : ReaderOptions) :
    Tallied bytes { source := .ofMemory bytes chunk, options := options } :=
  ⟨Source.reliable_ofMemory bytes chunk, rfl, Nat.zero_le _, rfl⟩

section

variable {bytes : Bytes} {r : Reader} (h : r.Tallied bytes)

include h

/-- What is counted beside the bytes does not matter. -/
theorem Tallied.of_eq {r' : Reader} (hsource : r'.source = r.source)
    (hcount : r'.bytesConsumed = r.bytesConsumed) : r'.Tallied bytes := by
  constructor
  · rw [hsource]
    exact h.reliable
  · rw [hsource, hcount]
    exact h.position
  · rw [hcount]
    exact h.bounded
  · rw [hsource, hcount]
    exact h.unread

/-- Bytes that the source gave and the reader counts. -/
theorem Tallied.took {got : Bytes} {source : Source} (hgave : r.source.Gave got source)
    (hdevice : source.device = r.source.device) :
    Tallied bytes { r with source, bytesConsumed := r.bytesConsumed + got.length } := by
  have hunread : got ++ source.unread = bytes.drop r.bytesConsumed := by
    rw [← hgave.unread]
    exact h.unread
  have hlength := congrArg List.length hunread
  rw [List.length_append, List.length_drop] at hlength
  have hbounded := h.bounded
  refine ⟨h.reliable.of_device hdevice, ?_, ?_, ?_⟩
  · show source.position = r.bytesConsumed + got.length
    rw [hgave.position, h.position]
  · show r.bytesConsumed + got.length ≤ bytes.length
    omega
  · show source.unread = bytes.drop (r.bytesConsumed + got.length)
    rw [← List.drop_drop, ← hunread, List.drop_left]

end

theorem Tallied.readLength {bytes : Bytes} {r : Reader} (h : r.Tallied bytes)
    (acc : Varint.Accumulator) (seen : Bytes) : (r.readLength acc seen).2.Tallied bytes := by
  fun_induction Reader.readLength r acc seen with
  | case1 r acc seen e source hread =>
    obtain ⟨source', hok, -⟩ := Source.read_one_of_reliable h.reliable
    rw [hok] at hread
    cases hread
  | case2 r acc seen source hread | case3 r acc seen source hread =>
    obtain ⟨source', hok, hdevice⟩ := Source.read_one_of_reliable h.reliable
    obtain rfl : source' = source := (Prod.mk.inj (hok.symm.trans hread)).2
    exact (h.took (Source.gave_of_read hread) hdevice).of_eq rfl rfl
  | case4 r acc seen b got source hread | case5 r acc seen b got source hread =>
    obtain ⟨source', hok, hdevice⟩ := Source.read_one_of_reliable h.reliable
    obtain rfl : source' = source := (Prod.mk.inj (hok.symm.trans hread)).2
    exact h.took (Source.gave_of_read_one hread) hdevice
  | case6 r acc seen b got source hread _ _ _ ih =>
    obtain ⟨source', hok, hdevice⟩ := Source.read_one_of_reliable h.reliable
    obtain rfl : source' = source := (Prod.mk.inj (hok.symm.trans hread)).2
    exact ih (h.took (Source.gave_of_read_one hread) hdevice)

theorem Tallied.readBody {bytes : Bytes} {r : Reader} (h : r.Tallied bytes) (length : Nat)
    (short : FramingFault) : (r.readBody length short).2.Tallied bytes := by
  obtain ⟨source, hread, hdevice⟩ := Source.readFully_of_reliable h.reliable length
  have htook := h.took (Source.gave_of_readFully hread) hdevice
  have hreads := r.readsBody_readBody length short
  generalize r.readBody length short = result at hreads
  cases hreads with
  | unread e source hfailed => cases hread.symm.trans hfailed
  | cut body source hsame => cases hread.symm.trans hsame; exact htook
  | whole body source hsame => cases hread.symm.trans hsame; exact htook

theorem carried_tallied (bytes : Bytes) :
    Carried fun r r' => r.Tallied bytes → r'.Tallied bytes where
  trans := fun hfirst hsecond h => hsecond (hfirst h)
  beside := fun hsource hcount h => h.of_eq hsource hcount
  length := fun _ acc seen h => h.readLength acc seen
  body := fun _ length short h => h.readBody length short

theorem Tallied.call {bytes : Bytes} {r : Reader} (h : r.Tallied bytes) (c : Call) :
    (r.call c).2.Tallied bytes := by
  cases c with
  | header => exact (carried_tallied bytes).readHeader r h
  | next => exact (carried_tallied bytes).next r h

/-- Every row of calls counts what it takes, also where a call fails. -/
theorem Tallied.perform {bytes : Bytes} {r : Reader} (h : r.Tallied bytes) (calls : List Call) :
    (r.perform calls).2.Tallied bytes := by
  induction calls generalizing r with
  | nil => exact h
  | cons c calls ih => exact ih (h.call c)

/-! ## What was returned -/

theorem length_of_readBody {r r' : Reader} {length : Nat} {short : FramingFault} {body : Bytes}
    (h : r.readBody length short = (.ok body, r')) : body.length = length := by
  have hreads := r.readsBody_readBody length short
  rw [h] at hreads
  cases hreads with
  | whole body source hread hlength => exact hlength

theorem readable_of_readSection {r r' : Reader} {length maxSize : Nat} {lengthBytes : Bytes}
    {block : Block} (hlength : Varint.read? lengthBytes = some (length, []))
    (hsize : length ≤ maxSize) (h : r.readSection length lengthBytes = (.ok block, r')) :
    block.Readable maxSize := by
  have hreads := r.readsSection_readSection length lengthBytes
  rw [h] at hreads
  cases hreads with
  | read body payload cid r₁ r₂ hbody hcid =>
    have hparts := Cid.bytes_append_of_decode? hcid
    have hcount := length_of_readBody hbody
    rw [hparts] at hcid hcount
    constructor
    · rw [hcount]
      exact hlength
    · rw [hcount]
      exact hsize
    · exact hcid

theorem readable_of_nextSection {r r' : Reader} {block : Block}
    (h : r.nextSection = (.ok (some block), r')) : block.Readable r.options.maxSectionSize := by
  have hreads := r.readsOn_nextSection
  rw [h] at hreads
  cases hreads with
  | block length lengthBytes block r₁ r₂ hread hpos hfits hsection =>
    obtain ⟨hlength, hpassed⟩ := passed_of_nextLength hread
    rw [hpassed.options] at hfits
    exact readable_of_readSection hlength (Nat.le_of_not_lt hfits) hsection

theorem options_of_readHeader {r r' : Reader} {header : Header}
    (h : r.readHeader = (.ok header, r')) : r'.options = r.options := by
  cases hheader : r.header with
  | none => exact (readHeader_gave hheader h).2.1
  | some known =>
    obtain ⟨header', hread⟩ := readHeader_of_isSome (r := r) (by simp [hheader])
    rw [hread] at h
    rw [← (Prod.mk.inj h).2]

/-- A block that was returned is framed as it must be. -/
theorem readable_of_next {r r' : Reader} {block : Block} (h : r.next = (.ok (some block), r')) :
    block.Readable r.options.maxSectionSize := by
  have hreads := r.readsNext_next
  rw [h] at hreads
  cases hreads with
  | behind header r₁ result hread hsection =>
    rw [← options_of_readHeader hread]
    exact readable_of_nextSection hsection

theorem readable_of_mem_perform {r : Reader} {calls : List Call} {block : Block}
    (h : .next (.ok (some block)) ∈ (r.perform calls).1) : ∃ maxSize, block.Readable maxSize := by
  induction calls generalizing r with
  | nil => cases h
  | cons c calls ih =>
    rw [perform, List.mem_cons] at h
    rcases h with h | h
    · cases c with
      | header => cases h
      | next =>
        have hnext : r.next = (.ok (some block), r.next.2) := by
          rw [Answer.next.inj h]
        exact ⟨_, readable_of_next hnext⟩
    · exact ih h

/-- The bytes of the header as they stand in the archive, if it was read. -/
def headerFrame (r : Reader) : Bytes :=
  r.header.elim [] (·.frame)

/-- A reader that has taken header and blocks off some bytes and nothing else. -/
structure Copied (bytes : Bytes) (options : ReaderOptions) (r : Reader) (blocks : List Block) :
    Prop where
  source : bytes = r.headerFrame ++ blocks.flatMap Block.frame ++ r.source.unread
  headless : r.header = none → blocks = []
  options : r.options = options

theorem copied_new (bytes : Bytes) (chunk : Nat) (options : ReaderOptions) :
    Copied bytes options { source := .ofMemory bytes chunk, options := options } [] :=
  ⟨rfl, fun _ => rfl, rfl⟩

section

variable {bytes : Bytes} {options : ReaderOptions} {r r' : Reader} {blocks : List Block}
  (h : r.Copied bytes options blocks)

include h

theorem Copied.readHeader {header : Header} (hread : r.readHeader = (.ok header, r')) :
    r'.Copied bytes options blocks ∧ r'.header.isSome = true := by
  have hoptions := (options_of_readHeader hread).trans h.options
  cases hheader : r.header with
  | none =>
    obtain ⟨hgave, -, hsome⟩ := readHeader_gave hheader hread
    obtain rfl := h.headless hheader
    refine ⟨⟨?_, fun _ => rfl, hoptions⟩, by rw [hsome]; rfl⟩
    have hsource := h.source
    rw [headerFrame, hheader, hgave.unread] at hsource
    rw [headerFrame, hsome]
    simpa using hsource
  | some known =>
    obtain ⟨header', hsame⟩ := readHeader_of_isSome (r := r) (by simp [hheader])
    obtain rfl : r = r' := (Prod.mk.inj (hsame.symm.trans hread)).2
    exact ⟨h, by simp [hheader]⟩

/-- Behind the header, bytes that were passed are taken off what is left. -/
theorem Copied.passed {taken : Bytes} (hpassed : r.Passed taken r') :
    bytes = r'.headerFrame ++ blocks.flatMap Block.frame ++ taken ++ r'.source.unread := by
  have hsource := h.source
  rw [hpassed.source.unread] at hsource
  rw [headerFrame, hpassed.header, List.append_assoc _ taken]
  exact hsource

theorem Copied.next_some {block : Block} (hnext : r.next = (.ok (some block), r')) :
    r'.Copied bytes options (blocks ++ [block]) := by
  cases hread : r.readHeader with
  | mk result r₁ =>
    cases result with
    | error e =>
      rw [next, hread] at hnext
      cases hnext
    | ok header =>
      obtain ⟨hcopied, hsome⟩ := h.readHeader hread
      have hpassed := passed_of_next_some hsome ((next_of_readHeader hread).symm.trans hnext)
      refine ⟨?_, fun hnone => ?_, hpassed.options.trans hcopied.options⟩
      · rw [List.flatMap_append, ← List.append_assoc]
        simpa using hcopied.passed hpassed
      · rw [hpassed.header] at hnone
        rw [hnone] at hsome
        cases hsome

theorem Copied.next_none (hnext : r.next = (.ok none, r')) :
    ∃ marker, IsEndMarker options marker ∧
      bytes = r'.headerFrame ++ blocks.flatMap Block.frame ++ marker ++ r'.source.unread := by
  cases hread : r.readHeader with
  | mk result r₁ =>
    cases result with
    | error e =>
      rw [next, hread] at hnext
      cases hnext
    | ok header =>
      obtain ⟨hcopied, hsome⟩ := h.readHeader hread
      obtain ⟨marker, hmarker, hpassed⟩ :=
        passed_of_next_none hsome ((next_of_readHeader hread).symm.trans hnext)
      rw [hcopied.options] at hmarker
      exact ⟨marker, hmarker, hcopied.passed hpassed⟩

/-- A call that neither fails nor comes to the end adds to the blocks what it returns. -/
theorem Copied.call {c : Call} (hok : (r.call c).1.failed = false)
    (hmore : (r.call c).1.isEnd = false) :
    (r.call c).2.Copied bytes options (blocks ++ (r.call c).1.block?.toList) := by
  cases c with
  | header =>
    cases hread : r.readHeader with
    | mk result r₁ =>
      cases result with
      | error e => simp [Reader.call, hread, Answer.failed] at hok
      | ok header =>
        simp only [Reader.call, hread, Answer.block?, Option.toList_none, List.append_nil]
        exact (h.readHeader hread).1
  | next =>
    cases hnext : r.next with
    | mk result r₁ =>
      rcases result with e | _ | block
      · simp [Reader.call, hnext, Answer.failed] at hok
      · simp [Reader.call, hnext, Answer.isEnd] at hmore
      · simp only [Reader.call, hnext, Answer.block?, Option.toList_some]
        exact h.next_some hnext

end

/-- A row of calls of which none fails or comes to the end. -/
theorem Copied.perform {bytes : Bytes} {options : ReaderOptions} {r : Reader} {blocks : List Block}
    (h : r.Copied bytes options blocks) {calls : List Call}
    (hok : ∀ a ∈ (r.perform calls).1, a.failed = false)
    (hmore : ∀ a ∈ (r.perform calls).1, a.isEnd = false) :
    (r.perform calls).2.Copied bytes options
      (blocks ++ (r.perform calls).1.filterMap Answer.block?) := by
  induction calls generalizing r blocks with
  | nil => simpa [Reader.perform] using h
  | cons c calls ih =>
    rw [Reader.perform, List.forall_mem_cons] at hok hmore
    have hcall := h.call hok.1 hmore.1
    have hrest := ih hcall hok.2 hmore.2
    have hblocks : ((r.call c).1 :: ((r.call c).2.perform calls).1).filterMap Answer.block? =
        (r.call c).1.block?.toList ++
          ((r.call c).2.perform calls).1.filterMap Answer.block? := by
      cases hblock : (r.call c).1.block? <;> simp [hblock]
    rw [Reader.perform, hblocks, ← List.append_assoc]
    exact hrest

/-- Only a call for a block finds the end. -/
theorem call_of_isEnd {r : Reader} {c : Call} (h : (r.call c).1.isEnd = true) :
    r.next = (.ok none, (r.call c).2) ∧ (r.call c).1 = .next (.ok none) := by
  cases c with
  | header => cases h
  | next =>
    cases hnext : r.next with
    | mk result r₁ =>
      rcases result with e | _ | block
      · simp [call, hnext, Answer.isEnd] at h
      · simp [call, hnext]
      · simp [call, hnext, Answer.isEnd] at h

/-- The end of the archive may come with the last call.  Then its marker is taken too. -/
theorem Copied.perform_to_end {bytes : Bytes} {options : ReaderOptions} {r : Reader}
    (h : r.Copied bytes options []) {calls : List Call}
    (hok : ∀ a ∈ (r.perform calls).1, a.failed = false)
    (hmore : ∀ a ∈ (r.perform calls).1.dropLast, a.isEnd = false) :
    ∃ marker,
      bytes = (r.perform calls).2.headerFrame ++
          ((r.perform calls).1.filterMap Answer.block?).flatMap Block.frame ++ marker ++
            (r.perform calls).2.source.unread ∧
        (marker ≠ [] → (r.perform calls).1.getLast? = some (.next (.ok none)) ∧
          options.emptyEndsArchive = true ∧ Varint.read? marker = some (0, [])) := by
  rcases List.eq_nil_or_concat calls with rfl | ⟨front, c, rfl⟩
  · exact ⟨[], by simpa [Reader.perform] using h.source, fun hne => absurd rfl hne⟩
  · rw [List.concat_eq_append] at hok hmore ⊢
    have hanswers : (r.perform (front ++ [c])).1 =
        (r.perform front).1 ++ [((r.perform front).2.call c).1] := by
      rw [perform_append]
      rfl
    have hafter : (r.perform (front ++ [c])).2 = ((r.perform front).2.call c).2 := by
      rw [perform_append]
      rfl
    rw [hanswers, List.dropLast_concat] at hmore
    rw [hanswers, List.forall_mem_append] at hok
    rw [hanswers, hafter, List.filterMap_append]
    have hfront := h.perform hok.1 hmore
    rw [List.nil_append] at hfront
    by_cases hend : ((r.perform front).2.call c).1.isEnd = true
    · obtain ⟨hnext, hanswer⟩ := call_of_isEnd hend
      obtain ⟨marker, hmarker, hsource⟩ := hfront.next_none hnext
      refine ⟨marker, ?_, fun hne => ⟨?_, hmarker.resolve_left hne⟩⟩
      · have hnone : [Answer.next (.ok none)].filterMap Answer.block? = [] := rfl
        rw [hanswer, hnone, List.append_nil]
        exact hsource
      · rw [List.getLast?_concat, hanswer]
    · have hlast := hfront.call (hok.2 ((r.perform front).2.call c).1 (by simp))
        (by simpa using hend)
      refine ⟨[], ?_, fun hne => absurd rfl hne⟩
      have hsource := hlast.source
      cases hblock : ((r.perform front).2.call c).1.block? <;> simpa [hblock] using hsource

/-! ## The header that was returned -/

theorem header_of_call_header {r : Reader} {c : Call} {header : Header}
    (h : (r.call c).1 = .header (.ok header)) : (r.call c).2.header = some header := by
  cases c with
  | next => cases h
  | header =>
    have hread : r.readHeader = (.ok header, r.readHeader.2) := by
      rw [← Answer.header.inj h]
    exact header_of_readHeader hread

/-- A header that is known is not read again. -/
theorem header_of_call {r : Reader} {c : Call} {header : Header}
    (hok : (r.call c).1.failed = false) (h : r.header = some header) :
    (r.call c).2.header = some header := by
  cases c with
  | header => simp [call, readHeader, h]
  | next =>
    have hsome : r.header.isSome = true := by rw [h]; rfl
    cases hnext : r.next with
    | mk result r₁ =>
      rcases result with e | _ | block
      · simp [call, hnext, Answer.failed] at hok
      · obtain ⟨marker, -, hpassed⟩ := passed_of_next_none hsome hnext
        rw [call, hnext, hpassed.header, h]
      · have hpassed := passed_of_next_some hsome hnext
        rw [call, hnext, hpassed.header, h]

theorem header_of_perform {r : Reader} {calls : List Call} {header : Header}
    (hok : ∀ a ∈ (r.perform calls).1, a.failed = false) (h : r.header = some header) :
    (r.perform calls).2.header = some header := by
  induction calls generalizing r with
  | nil => exact h
  | cons c calls ih =>
    rw [perform, List.forall_mem_cons] at hok
    exact ih hok.2 (header_of_call hok.1 h)

/-- Every header that was returned is the one that was read. -/
theorem header_of_mem_perform {r : Reader} {calls : List Call} {header : Header}
    (hok : ∀ a ∈ (r.perform calls).1, a.failed = false)
    (h : .header (.ok header) ∈ (r.perform calls).1) :
    (r.perform calls).2.header = some header := by
  induction calls generalizing r with
  | nil => cases h
  | cons c calls ih =>
    rw [perform, List.forall_mem_cons] at hok
    rw [perform, List.mem_cons] at h
    rcases h with h | h
    · show ((r.call c).2.perform calls).2.header = some header
      exact header_of_perform hok.2 (header_of_call_header h.symm)
    · exact ih hok.2 h

/-! ## All calls -/

/-- Whatever calls are made of a reader over memory, and whether they fail or not, it has counted
exactly the bytes that its source handed out, and the source still holds the rest.  A block that
it returned is framed by a number that is the length of its CID and its payload.  If no call
failed and only the last may have found the end of the archive, the bytes that were counted are
the frame of the header, the frames of the blocks, and the marker at the end if the last call
took one. -/
theorem calls_take_what_they_return (bytes : Bytes) (chunk : Nat) (options : ReaderOptions)
    (calls : List Call) :
    let answers := (perform { source := .ofMemory bytes chunk, options := options } calls).1
    let r := (perform { source := .ofMemory bytes chunk, options := options } calls).2
    r.source.position = r.bytesConsumed ∧
      bytes = bytes.take r.bytesConsumed ++ r.source.unread ∧
      (∀ block, .next (.ok (some block)) ∈ answers → ∃ lengthBytes,
        Varint.read? lengthBytes = some (block.cid.bytes.length + block.payload.length, []) ∧
          block.frame = lengthBytes ++ block.cid.bytes ++ block.payload) ∧
      ((∀ a ∈ answers, a.failed = false) → (∀ a ∈ answers.dropLast, a.isEnd = false) →
        (∀ header, .header (.ok header) ∈ answers → r.header = some header) ∧
        ∃ marker,
          bytes.take r.bytesConsumed =
              r.headerFrame ++ (answers.filterMap Answer.block?).flatMap Block.frame ++ marker ∧
            (marker ≠ [] → answers.getLast? = some (.next (.ok none)) ∧
              options.emptyEndsArchive = true ∧ Varint.read? marker = some (0, []))) := by
  intro answers r
  have htallied : r.Tallied bytes := (tallied_new bytes chunk options).perform calls
  have hsplit : bytes = bytes.take r.bytesConsumed ++ r.source.unread := by
    rw [htallied.unread, List.take_append_drop]
  refine ⟨htallied.position, hsplit, ?_, ?_⟩
  · intro block hmem
    obtain ⟨maxSize, hreadable⟩ := readable_of_mem_perform hmem
    refine ⟨block.lengthBytes, ?_, rfl⟩
    rw [← List.length_append]
    exact hreadable.length
  · intro hok hmore
    obtain ⟨marker, hsource, hmarker⟩ :=
      (copied_new bytes chunk options).perform_to_end hok hmore
    refine ⟨fun header hmem => header_of_mem_perform hok hmem, marker, ?_, hmarker⟩
    exact List.append_cancel_right (hsplit.symm.trans hsource)

/-- A marker behind one block is taken, and the byte behind the marker is not. -/
example :
    let body := Header.encodeBody [[0x01, 0x70, 0x00, 0x00]] 1
    let header : Bytes := UInt8.ofNat body.length :: body
    let block : Bytes := [0x06, 0x01, 0x55, 0x00, 0x00, 0x61, 0x62]
    let after := perform
      { source := .ofMemory (header ++ block ++ [0x00, 0x01]) 2, options := {} }
      [.header, .next, .next]
    after.1.map Answer.isEnd = [false, false, true] ∧ after.2.source.unread = [0x01] := by
  decide +kernel

end CarSlice.Archive.Reader
