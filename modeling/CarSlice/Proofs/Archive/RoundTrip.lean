import CarSlice.Proofs.Archive.Calls
import CarSlice.Proofs.Archive.HeaderBody

/-!
# Archives that were written

`encode` lays an archive out: the header behind its length, then every section behind its
length.  A reader gives back what was laid out, and then the end for as long as it is asked.

* `Header.readable_written` and `Block.Written.readable`: what was written is framed as a
  reader accepts it.
* `blocksRead_of_readHeader`, `blocksRead_of_next_some` and `blocksRead_of_next_none` count the
  blocks.
* `Awaits.perform_next` reads all blocks that are left, and `Awaits.perform_end` goes on
  behind them.
* `perform_encode`: the whole archive.
-/

namespace CarSlice.Archive

/-! ## Laying out -/

/-- Some bytes behind their length. -/
def framed (body : Bytes) : Bytes :=
  Varint.encode body.length ++ body

/-- An archive with the given binary CIDs as roots, and sections that are each a binary CID and
a payload. -/
def encode (roots : List Bytes) (sections : List (Bytes × Bytes)) : Bytes :=
  framed (Header.encodeBody roots 1) ++ sections.flatMap fun s => framed (s.1 ++ s.2)

theorem length_le_length_framed (body : Bytes) : body.length ≤ (framed body).length := by
  rw [framed, List.length_append]
  omega

theorem length_le_length_flatMap {α : Type} {f : α → Bytes} {row : List α} {a : α}
    (h : a ∈ row) : (f a).length ≤ (row.flatMap f).length := by
  rw [List.flatMap_def]
  exact (List.sublist_flatten_of_mem (List.mem_map_of_mem h)).length_le

/-! ## Headers and sections that were written -/

/-- The header of an archive that was laid out. -/
def Header.written (cids : List Cid) : Header :=
  { version := 1, roots := cids, frame := framed (Header.encodeBody (cids.map (·.bytes)) 1) }

theorem Header.readable_written {cids : List Cid} (hne : cids ≠ [])
    (hcids : ∀ cid ∈ cids, cid.Coherent) {maxSize : Nat}
    (hsize : (encodeBody (cids.map (·.bytes)) 1).length ≤ maxSize)
    (hmemory : (encodeBody (cids.map (·.bytes)) 1).length < 2 ^ 63) :
    (written cids).Readable maxSize := by
  have hlength := Varint.read?_encode hmemory []
  rw [List.append_nil] at hlength
  have hdecode := decode_encodeBody_one hne hcids
    (encodable_of_length_encodeBody (Nat.lt_trans hmemory (by decide)))
  exact ⟨_, _, _, hlength, hsize, hdecode, rfl⟩

/-- A section that was laid out. -/
structure Block.Written (b : Block) : Prop where
  length : b.lengthBytes = Varint.encode (b.cid.bytes ++ b.payload).length
  cid : b.cid.Coherent

theorem Block.Written.frame {b : Block} (h : b.Written) :
    b.frame = framed (b.cid.bytes ++ b.payload) := by
  rw [Block.frame_eq, h.length, framed]

theorem Block.Written.readable {b : Block} (h : b.Written) {maxSize : Nat}
    (hsize : (b.cid.bytes ++ b.payload).length ≤ maxSize)
    (hmemory : (b.cid.bytes ++ b.payload).length < 2 ^ 63) : b.Readable maxSize := by
  refine ⟨?_, hsize, h.cid.decode? b.payload⟩
  have hlength := Varint.read?_encode hmemory []
  rwa [List.append_nil, ← h.length] at hlength

/-- Every row of binary CIDs and payloads is that of a row of blocks. -/
theorem exists_written_of_all {sections : List (Bytes × Bytes)}
    (h : ∀ s ∈ sections, Cid.IsBinary s.1) :
    ∃ blocks : List Block, blocks.map (fun b => (b.cid.bytes, b.payload)) = sections ∧
      ∀ b ∈ blocks, b.Written := by
  induction sections with
  | nil => exact ⟨[], rfl, by simp⟩
  | cons s sections ih =>
    obtain ⟨cidBytes, payload⟩ := s
    rw [List.forall_mem_cons] at h
    obtain ⟨cid, rfl, hcid⟩ := h.1.exists_coherent
    obtain ⟨blocks, rfl, hblocks⟩ := ih h.2
    let block : Block :=
      { lengthBytes := Varint.encode (cid.bytes ++ payload).length, cid, payload }
    have hblock : block.Written := ⟨rfl, hcid⟩
    exact ⟨block :: blocks, rfl, List.forall_mem_cons.2 ⟨hblock, hblocks⟩⟩

theorem flatMap_frame_of_written {blocks : List Block} (h : ∀ b ∈ blocks, b.Written) :
    blocks.flatMap Block.frame =
      (blocks.map fun b => (b.cid.bytes, b.payload)).flatMap fun s => framed (s.1 ++ s.2) := by
  induction blocks with
  | nil => rfl
  | cons b blocks ih =>
    rw [List.forall_mem_cons] at h
    rw [List.flatMap_cons, List.map_cons, List.flatMap_cons, h.1.frame, ih h.2]

namespace Reader

/-! ## Counting blocks -/

theorem blocksRead_of_nextLength {r r' : Reader} {result : Except Error (Option (Nat × Bytes))}
    (h : r.nextLength = (result, r')) : r'.blocksRead = r.blocksRead := by
  rw [moved_of_nextLength h]
  rfl

theorem blocksRead_of_readBody {r r' : Reader} {length : Nat} {short : FramingFault}
    {body : Bytes} (h : r.readBody length short = (.ok body, r')) :
    r'.blocksRead = r.blocksRead := by
  rw [moved_of_readBody h]
  rfl

theorem blocksRead_of_readHeader {r r' : Reader} {header : Header}
    (h : r.readHeader = (.ok header, r')) : r'.blocksRead = r.blocksRead := by
  cases hheader : r.header with
  | some known =>
    rw [readHeader_of_known hheader] at h
    cases h
    rfl
  | none =>
    rw [readHeader_of_new hheader] at h
    have hreads := r.readsNewHeader_readNewHeader
    rw [h] at hreads
    cases hreads with
    | read length lengthBytes body decoded r₁ r₂ hlength hpos hfits hbody =>
      exact (blocksRead_of_readBody hbody).trans (blocksRead_of_nextLength hlength)

theorem blocksRead_verify (r : Reader) (block : Block) :
    (r.verify block).2.blocksRead = r.blocksRead := by
  obtain ⟨unverified, hverify⟩ := r.verify_snd block
  rw [hverify]

theorem blocksRead_of_readSection {r r' : Reader} {length : Nat} {lengthBytes : Bytes}
    {block : Block} (h : r.readSection length lengthBytes = (.ok block, r')) :
    r'.blocksRead = r.blocksRead + 1 := by
  have hreads := r.readsSection_readSection length lengthBytes
  rw [h] at hreads
  cases hreads with
  | read body payload cid r₁ r₂ hbody hcid hverify =>
    have hkept := blocksRead_verify { r₁ with blocksRead := r₁.blocksRead + 1 }
      { lengthBytes := lengthBytes, cid := cid, payload := payload }
    rw [hverify] at hkept
    rw [hkept, blocksRead_of_readBody hbody]

/-- A block that was returned is counted. -/
theorem blocksRead_of_next_some {r r' : Reader} {block : Block}
    (h : r.next = (.ok (some block), r')) : r'.blocksRead = r.blocksRead + 1 := by
  have hreads := r.readsNext_next
  rw [h] at hreads
  cases hreads with
  | behind header r₁ result hheader hnext =>
    have hreads := r₁.readsOn_nextSection
    rw [hnext] at hreads
    cases hreads with
    | block length lengthBytes block r₂ r₃ hlength hpos hfits hsection =>
      rw [blocksRead_of_readSection hsection, blocksRead_of_nextLength hlength,
        blocksRead_of_readHeader hheader]

/-- The end of the archive is not counted. -/
theorem blocksRead_of_next_none {r r' : Reader} (h : r.next = (.ok none, r')) :
    r'.blocksRead = r.blocksRead := by
  have hreads := r.readsNext_next
  rw [h] at hreads
  cases hreads with
  | behind header r₁ result hheader hnext =>
    have hreads := r₁.readsOn_nextSection
    rw [hnext] at hreads
    cases hreads with
    | spent r₂ hlength => rw [blocksRead_of_nextLength hlength, blocksRead_of_readHeader hheader]
    | marker lengthBytes r₂ hlength =>
      rw [blocksRead_of_nextLength hlength, blocksRead_of_readHeader hheader]

/-! ## Reading on to the end -/

/-- All blocks that are left, one call for each. -/
theorem Awaits.perform_next {r : Reader} {blocks : List Block} {tail : Bytes}
    (h : r.Awaits blocks tail) :
    (r.perform (List.replicate blocks.length .next)).1 =
        blocks.map (fun b => .next (.ok (some b))) ∧
      (r.perform (List.replicate blocks.length .next)).2.Awaits [] tail ∧
      (r.perform (List.replicate blocks.length .next)).2.blocksRead =
        r.blocksRead + blocks.length := by
  induction blocks generalizing r with
  | nil => exact ⟨rfl, h, rfl⟩
  | cons b blocks ih =>
    obtain ⟨r', hnext, -, hmore⟩ := h.next
    obtain ⟨hanswers, hawaits, hcount⟩ := ih hmore
    have hcall : r.call .next = (.next (.ok (some b)), r') := by
      rw [call, hnext]
    rw [List.length_cons, List.replicate_succ, perform, hcall]
    refine ⟨?_, hawaits, ?_⟩
    · rw [hanswers, List.map_cons]
    · rw [hcount, blocksRead_of_next_some hnext]
      omega

/-- Where a source has nothing to hand out, the answer is the end, and nothing is taken. -/
theorem next_of_nothing {r : Reader} (hheader : r.header.isSome = true)
    (hreliable : r.source.Reliable) (hnothing : r.source.available = []) :
    ∃ r', r.next = (.ok none, r') ∧ r.Passed [] r' ∧ r'.source.Reliable := by
  obtain ⟨r', hnext, hdevice, hpassed, -⟩ := next_of_spent hheader ⟨hnothing, Or.inr hreliable⟩
  exact ⟨r', hnext, hpassed, hreliable.of_device hdevice⟩

theorem Awaits.next_nil {r : Reader} (h : r.Awaits [] []) (hreliable : r.source.Reliable) :
    ∃ r', r.next = (.ok none, r') ∧ r'.Awaits [] [] ∧ r'.source.Reliable := by
  have hnothing : r.source.available = [] := by
    rw [Source.available_of_open h.isOpen]
    exact h.unread
  obtain ⟨r', hnext, hpassed, hreliable'⟩ := next_of_nothing h.header hreliable hnothing
  refine ⟨r', hnext, ⟨?_, ?_, by simp, hpassed.source.closed.trans h.isOpen,
    hpassed.source.unread_eq h.unread⟩, hreliable'⟩
  · rw [hpassed.header, h.header]
  · rw [hpassed.options, h.verifyDigests]

/-- At the end, every further call finds it again. -/
theorem Awaits.perform_end {r : Reader} (h : r.Awaits [] []) (hreliable : r.source.Reliable)
    (further : Nat) :
    (r.perform (List.replicate further .next)).1 = List.replicate further (.next (.ok none)) ∧
      (r.perform (List.replicate further .next)).2.Awaits [] [] ∧
      (r.perform (List.replicate further .next)).2.blocksRead = r.blocksRead := by
  induction further generalizing r with
  | zero => exact ⟨rfl, h, rfl⟩
  | succ further ih =>
    obtain ⟨r', hnext, hawaits, hreliable'⟩ := h.next_nil hreliable
    obtain ⟨hanswers, hlast, hcount⟩ := ih hawaits hreliable'
    have hcall : r.call .next = (.next (.ok none), r') := by
      rw [call, hnext]
    rw [List.replicate_succ, perform, hcall]
    refine ⟨?_, hlast, ?_⟩
    · rw [hanswers, ← List.replicate_succ]
    · rw [hcount, blocksRead_of_next_none hnext]

/-- A reader that has counted what it took and for which nothing is left has taken it all. -/
theorem Tallied.bytesConsumed_of_unread {bytes : Bytes} {r : Reader} (h : r.Tallied bytes)
    (hunread : r.source.unread = []) : r.bytesConsumed = bytes.length := by
  have hnil := h.unread
  rw [hunread] at hnil
  have hle : bytes.length ≤ r.bytesConsumed := List.drop_eq_nil_iff.1 hnil.symm
  exact Nat.le_antisymm h.bounded hle

/-! ## Whole archives -/

/-- A header and blocks that are framed as a reader accepts them come one after the other, and
behind them is the end. -/
theorem perform_readable {bytes : Bytes} {r : Reader} {header : Header} {blocks : List Block}
    (htallied : r.Tallied bytes) (hnew : r.header = none) (hopen : r.source.closed = false)
    (hverify : r.options.verifyDigests = false)
    (hheader : header.Readable r.options.maxHeaderSize)
    (hblocks : ∀ b ∈ blocks, b.Readable r.options.maxSectionSize)
    (hunread : r.source.unread = header.frame ++ blocks.flatMap Block.frame) (further : Nat) :
    let after := r.perform (.header :: List.replicate (blocks.length + further) .next)
    after.1 = .header (.ok header) :: (blocks.map (fun b => .next (.ok (some b))) ++
        List.replicate further (.next (.ok none))) ∧
      after.2.bytesConsumed = bytes.length ∧
      after.2.blocksRead = r.blocksRead + blocks.length := by
  obtain ⟨r₁, hread, hgave, hoptions, hknown⟩ :=
    readHeader_of_readable hnew hheader hopen hunread
  have hcall : r.call .header = (.header (.ok header), r₁) := by
    rw [call, hread]
  have htallied₁ : r₁.Tallied bytes := by
    have hfirst := htallied.call .header
    rwa [hcall] at hfirst
  have hawaits : r₁.Awaits blocks [] := by
    constructor
    · rw [hknown]
      rfl
    · rw [hoptions]
      exact hverify
    · rw [hoptions]
      exact hblocks
    · exact hgave.closed.trans hopen
    · rw [hgave.unread_eq hunread, List.append_nil]
  obtain ⟨hanswers, hbehind, hcount⟩ := hawaits.perform_next
  have htallied₂ := htallied₁.perform (List.replicate blocks.length .next)
  obtain ⟨hends, hlast, hsame⟩ := hbehind.perform_end htallied₂.reliable further
  have htallied₃ := htallied₂.perform (List.replicate further .next)
  rw [← List.replicate_append_replicate, perform, hcall, perform_append]
  refine ⟨?_, htallied₃.bytesConsumed_of_unread hlast.unread, ?_⟩
  · rw [hanswers, hends]
  · rw [hsame, hcount, blocksRead_of_readHeader hread]

/-- Reading undoes laying out.  An archive of at least one root, whose roots are binary CIDs and
whose sections begin with one, is given back as it was laid out if its parts are not too long
for the reader: the header with its roots and its frame, then every section with its CID, its
payload and its frame, then the end, however often it is asked for.  By then all bytes and all
blocks are counted.  The lengths in front are numbers below `2 ^ 63`, as is the length of any
byte string in memory. -/
theorem perform_encode {roots : List Bytes} {sections : List (Bytes × Bytes)}
    {options : ReaderOptions} (chunk : Nat) (hne : roots ≠ [])
    (hroots : ∀ root ∈ roots, Cid.IsBinary root) (hcids : ∀ s ∈ sections, Cid.IsBinary s.1)
    (hverify : options.verifyDigests = false)
    (hheader : (Header.encodeBody roots 1).length ≤ options.maxHeaderSize)
    (hsections : ∀ s ∈ sections, (s.1 ++ s.2).length ≤ options.maxSectionSize)
    (hmemory : (encode roots sections).length < 2 ^ 63) :
    ∃ (header : Header) (blocks : List Block),
      (header.version = 1 ∧ header.roots.map (·.bytes) = roots ∧
        (∀ cid ∈ header.roots, cid.Coherent) ∧
        header.frame = framed (Header.encodeBody roots 1)) ∧
      (blocks.map (fun b => (b.cid.bytes, b.payload)) = sections ∧
        ∀ b ∈ blocks, b.cid.Coherent ∧ b.frame = framed (b.cid.bytes ++ b.payload)) ∧
      ∀ further,
        let after := perform
          { source := .ofMemory (encode roots sections) chunk, options := options }
          (.header :: List.replicate (sections.length + further) .next)
        after.1 = .header (.ok header) :: (blocks.map (fun b => .next (.ok (some b))) ++
            List.replicate further (.next (.ok none))) ∧
          after.2.bytesConsumed = (encode roots sections).length ∧
          after.2.blocksRead = sections.length := by
  obtain ⟨cids, rfl, hcoherent⟩ := Cid.exists_coherent_of_all hroots
  obtain ⟨blocks, rfl, hwritten⟩ := exists_written_of_all hcids
  have hsome : cids ≠ [] := by simpa using hne
  -- Every part is a part of the archive and so no longer than it.
  have hbody : (Header.encodeBody (cids.map (·.bytes)) 1).length < 2 ^ 63 := by
    have hle := length_le_length_framed (Header.encodeBody (cids.map (·.bytes)) 1)
    rw [encode, List.length_append] at hmemory
    omega
  have hreadable : ∀ b ∈ blocks, b.Readable options.maxSectionSize := by
    intro b hb
    have hmem := List.mem_map_of_mem (f := fun b : Block => (b.cid.bytes, b.payload)) hb
    refine (hwritten b hb).readable (hsections _ hmem) ?_
    have hframed := length_le_length_framed (b.cid.bytes ++ b.payload)
    have hpart : (framed (b.cid.bytes ++ b.payload)).length ≤ _ :=
      length_le_length_flatMap (f := fun s : Bytes × Bytes => framed (s.1 ++ s.2)) hmem
    rw [encode, List.length_append] at hmemory
    omega
  refine ⟨Header.written cids, blocks, ⟨rfl, rfl, hcoherent, rfl⟩,
    ⟨rfl, fun b hb => ⟨(hwritten b hb).cid, (hwritten b hb).frame⟩⟩, ?_⟩
  intro further
  have hunread : encode (cids.map (·.bytes)) (blocks.map fun b => (b.cid.bytes, b.payload)) =
      (Header.written cids).frame ++ blocks.flatMap Block.frame := by
    rw [flatMap_frame_of_written hwritten]
    rfl
  have hall := perform_readable (tallied_new _ chunk options) rfl rfl hverify
    (Header.readable_written hsome hcoherent hheader hbody) hreadable hunread further
  rw [List.length_map]
  rw [Nat.zero_add] at hall
  exact hall

/-- Two sections, one with a CID of version 0, that come in pieces of three bytes. -/
theorem perform_encode_two_sections :
    let root : Bytes := 0x12 :: 0x20 :: List.replicate 32 0
    let leaf : Bytes := [0x01, 0x55, 0x00, 0x00]
    let archive := encode [root] [(root, [0x0a, 0x00]), (leaf, [0x61, 0x62, 0x63])]
    ∃ (header : Header) (first second : Block),
      header.roots.map (·.bytes) = [root] ∧ first.payload = [0x0a, 0x00] ∧
        second.cid.bytes = leaf ∧ second.payload = [0x61, 0x62, 0x63] ∧
        (perform { source := .ofMemory archive 3, options := {} }
            [.header, .next, .next, .next]).1 =
          [.header (.ok header), .next (.ok (some first)), .next (.ok (some second)),
            .next (.ok none)] := by
  intro root leaf archive
  have hroot : Cid.IsBinary root := ⟨_, rfl⟩
  have hleaf : Cid.IsBinary leaf := ⟨_, rfl⟩
  obtain ⟨header, blocks, ⟨-, hroots, -, -⟩, ⟨hsections, -⟩, hread⟩ :=
    @perform_encode [root] [(root, [0x0a, 0x00]), (leaf, [0x61, 0x62, 0x63])] {} 3
      (by simp) (by simpa using hroot) (by simpa using ⟨hroot, hleaf⟩) rfl (by decide +kernel)
      (by decide +kernel) (by decide +kernel)
  obtain ⟨first, more, rfl, hfirst, hmore⟩ := List.map_eq_cons_iff.1 hsections
  obtain ⟨second, more, rfl, hsecond, hmore⟩ := List.map_eq_cons_iff.1 hmore
  obtain rfl := List.map_eq_nil_iff.1 hmore
  exact ⟨header, first, second, hroots, congrArg Prod.snd hfirst, congrArg Prod.fst hsecond,
    congrArg Prod.snd hsecond, (hread 1).1⟩

end Reader

end CarSlice.Archive
