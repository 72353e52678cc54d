import CarSlice.Proofs.Archive.Calls

/-!
# Reading over any device

Memory may hand out its bytes in small pieces, and a stream in one piece.  A reader cannot tell.

* `Source.onDevice` puts another device under a source.  What is read is the same
  (`Source.read_one_onDevice`, `Source.readFully_onDevice`).
* `Reader.Matched` compares what a reader does with what it does over another device: the
  answer is the same, and so is all that is left behind but the device and the count of its
  reads.  Every function of a reader has one lemma that says so.
* `matched_perform`: the same for a row of calls.
-/

namespace CarSlice

/-! ## Sources -/

namespace Source

/-- The same source over another device that was asked for bytes some other number of times. -/
def onDevice (s : Source) (device : Device) (calls : Nat) : Source :=
  { s with device := device, readCalls := calls }

/-- Two sources that gave the same bytes still are the same. -/
theorem onDevice_of_gave {s s' t' : Source} {device : Device} {calls : Nat} {got : Bytes}
    (hs : s.Gave got s') (ht : (s.onDevice device calls).Gave got t')
    (hdevice : t'.device = device) : t' = s'.onDevice device t'.readCalls := by
  have hunread : t'.unread = s'.unread := ht.unread_eq hs.unread
  have hposition : t'.position = s'.position := ht.position.trans hs.position.symm
  have hclosed : t'.closed = s'.closed := ht.closed.trans hs.closed.symm
  rw [onDevice, ← hunread, ← hposition, ← hclosed, ← hdevice]

section

variable {s : Source} {device : Device} (h : s.Reliable) (hdevice : device ≠ .stream true)
  (calls : Nat)

include h hdevice

/-- A read of one byte comes to the same over another device. -/
theorem read_one_onDevice {result : Except Error Bytes} {s' : Source}
    (hread : s.read 1 = (result, s')) :
    s'.Reliable ∧
      ∃ calls', (s.onDevice device calls).read 1 = (result, s'.onDevice device calls') := by
  have hother : (s.onDevice device calls).Reliable := hdevice
  obtain ⟨s₁, hs, hsame⟩ := read_one_of_reliable h
  obtain ⟨t₁, ht, hkept⟩ := read_one_of_reliable hother
  rw [hs] at hread
  obtain ⟨rfl, rfl⟩ := Prod.mk.inj hread
  refine ⟨h.of_device hsame, t₁.readCalls, ?_⟩
  rw [← onDevice_of_gave (gave_of_read hs) (gave_of_read ht) hkept]
  exact ht

/-- Reading on until enough came comes to the same over another device. -/
theorem readFully_onDevice {n : Nat} {result : Except Error Bytes} {s' : Source}
    (hread : s.readFully n = (result, s')) :
    s'.Reliable ∧
      ∃ calls', (s.onDevice device calls).readFully n = (result, s'.onDevice device calls') := by
  have hother : (s.onDevice device calls).Reliable := hdevice
  obtain ⟨s₁, hs, hsame⟩ := readFully_of_reliable h n
  obtain ⟨t₁, ht, hkept⟩ := readFully_of_reliable hother n
  rw [hs] at hread
  obtain ⟨rfl, rfl⟩ := Prod.mk.inj hread
  refine ⟨h.of_device hsame, t₁.readCalls, ?_⟩
  rw [← onDevice_of_gave (gave_of_readFully hs) (gave_of_readFully ht) hkept]
  exact ht

end

/-- Where bytes come from that are handed out without a failure: memory with a limit on each
read, or a stream. -/
inductive Supply where
  | memory (chunk : Nat)
  | stream
  deriving Repr, DecidableEq

/-- The device that stands under a source. -/
def Supply.device : Supply → Device
  | .memory chunk => .memory chunk
  | .stream => .stream false

/-- A source of some bytes. -/
def Supply.source (supply : Supply) (bytes : Bytes) : Source :=
  match supply with
  | .memory chunk => .ofMemory bytes chunk
  | .stream => .ofStream bytes

theorem Supply.device_ne (supply : Supply) : supply.device ≠ .stream true := by
  cases supply with
  | memory chunk => simp [device]
  | stream => simp [device]

theorem Supply.source_eq (supply : Supply) (bytes : Bytes) :
    supply.source bytes = (ofMemory bytes 0).onDevice supply.device 0 := by
  cases supply with
  | memory chunk => rfl
  | stream => rfl

end Source

namespace Archive.Reader

/-! ## Readers -/

/-- The same reader over another device. -/
def onDevice (r : Reader) (device : Device) (calls : Nat) : Reader :=
  { r with source := r.source.onDevice device calls }

theorem source_onDevice (r : Reader) (device : Device) (calls : Nat) :
    (r.onDevice device calls).source = r.source.onDevice device calls :=
  rfl

theorem header_onDevice (r : Reader) (device : Device) (calls : Nat) :
    (r.onDevice device calls).header = r.header :=
  rfl

/-- What came of a reader, and of the same reader over another device. -/
def Matched {α : Type} (device : Device) (x y : α × Reader) : Prop :=
  x.2.source.Reliable ∧ ∃ calls, y = (x.1, x.2.onDevice device calls)

section

variable {r : Reader} {device : Device} (h : r.source.Reliable) (hdevice : device ≠ .stream true)
  (calls : Nat)

include h hdevice

theorem matched_readLength (acc : Varint.Accumulator) (seen : Bytes) :
    Matched device (r.readLength acc seen) ((r.onDevice device calls).readLength acc seen) := by
  -- A length is read a byte at a time, so both sides see each byte and the end in the same read.
  fun_induction readLength r acc seen generalizing calls with
  | case1 r acc seen e source hleft =>
    obtain ⟨hreliable, calls', hright⟩ := Source.read_one_onDevice h hdevice calls hleft
    refine ⟨hreliable, calls', ?_⟩
    rw [readLength, source_onDevice, hright]
    rfl
  | case2 r acc seen source hleft _ hstarted =>
    obtain ⟨hreliable, calls', hright⟩ := Source.read_one_onDevice h hdevice calls hleft
    refine ⟨hreliable, calls', ?_⟩
    rw [readLength, source_onDevice, hright]
    dsimp only
    rw [if_pos hstarted]
    rfl
  | case3 r acc seen source hleft _ hstarted =>
    obtain ⟨hreliable, calls', hright⟩ := Source.read_one_onDevice h hdevice calls hleft
    refine ⟨hreliable, calls', ?_⟩
    rw [readLength, source_onDevice, hright]
    dsimp only
    rw [if_neg hstarted]
    rfl
  | case4 r acc seen b got source hleft _ _ hstatus =>
    obtain ⟨hreliable, calls', hright⟩ := Source.read_one_onDevice h hdevice calls hleft
    refine ⟨hreliable, calls', ?_⟩
    rw [readLength, source_onDevice, hright]
    dsimp only
    split
    · rfl
    · next hother => rw [hstatus] at hother; cases hother
    · next hother => rw [hstatus] at hother; cases hother
  | case5 r acc seen b got source hleft _ hstatus =>
    obtain ⟨hreliable, calls', hright⟩ := Source.read_one_onDevice h hdevice calls hleft
    refine ⟨hreliable, calls', ?_⟩
    rw [readLength, source_onDevice, hright]
    dsimp only
    split
    · next hother => rw [hstatus] at hother; cases hother
    · rfl
    · next hother => rw [hstatus] at hother; cases hother
  | case6 r acc seen b got source hleft _ _ hstatus ih =>
    obtain ⟨hreliable, calls', hright⟩ := Source.read_one_onDevice h hdevice calls hleft
    obtain ⟨hreliable', calls'', hmore⟩ := ih hreliable calls'
    refine ⟨hreliable', calls'', ?_⟩
    rw [readLength, source_onDevice, hright]
    dsimp only
    split
    · next hother => rw [hstatus] at hother; cases hother
    · next hother => rw [hstatus] at hother; cases hother
    · exact hmore

theorem matched_readBody (length : Nat) (short : FramingFault) :
    Matched device (r.readBody length short) ((r.onDevice device calls).readBody length short) := by
  unfold readBody
  cases hleft : r.source.readFully length with
  | mk result source =>
    obtain ⟨hreliable, calls', hright⟩ := Source.readFully_onDevice h hdevice calls hleft
    rw [source_onDevice, hright]
    cases result with
    | error e => exact ⟨hreliable, calls', rfl⟩
    | ok body =>
      dsimp only
      split
      · exact ⟨hreliable, calls', rfl⟩
      · exact ⟨hreliable, calls', rfl⟩

theorem matched_readNewHeader :
    Matched device r.readNewHeader (r.onDevice device calls).readNewHeader := by
  obtain ⟨hreliable, calls', hright⟩ := matched_readLength h hdevice calls {} []
  unfold readNewHeader nextLength
  rw [hright]
  cases hleft : r.readLength {} [] with
  | mk result r₁ =>
    rw [hleft] at hreliable
    rcases result with e | _ | ⟨length, lengthBytes⟩
    · exact ⟨hreliable, calls', rfl⟩
    · exact ⟨hreliable, calls', rfl⟩
    · dsimp only
      split
      · exact ⟨hreliable, calls', rfl⟩
      · show Matched device _ (if r₁.options.maxHeaderSize < length then _ else _)
        split
        · exact ⟨hreliable, calls', rfl⟩
        · obtain ⟨hreliable', calls'', hbody⟩ :=
            matched_readBody hreliable hdevice calls' length .headerTruncated
          rw [hbody]
          cases hleft' : r₁.readBody length .headerTruncated with
          | mk result r₂ =>
            rw [hleft'] at hreliable'
            cases result with
            | error e => exact ⟨hreliable', calls'', rfl⟩
            | ok body =>
              dsimp only
              split
              · exact ⟨hreliable', calls'', rfl⟩
              · exact ⟨hreliable', calls'', rfl⟩

theorem matched_readHeader : Matched device r.readHeader (r.onDevice device calls).readHeader := by
  unfold readHeader
  rw [header_onDevice]
  cases r.header with
  | some header => exact ⟨h, calls, rfl⟩
  | none => exact matched_readNewHeader h hdevice calls

end

/-- What is no business of the source is the same over every device. -/
theorem verify_onDevice (r : Reader) (block : Block) (device : Device) (calls : Nat) :
    (r.onDevice device calls).verify block =
      ((r.verify block).1, (r.verify block).2.onDevice device calls) := by
  unfold verify
  show (if r.options.verifyDigests = true then _ else _) = _
  split
  · split <;> rfl
  · rfl

/-- What does the same over every device keeps the device that it has. -/
theorem matched_of_onDevice {α : Type} {f : Reader → α × Reader} {r : Reader}
    (h : r.source.Reliable)
    (hf : ∀ device calls, f (r.onDevice device calls) = ((f r).1, (f r).2.onDevice device calls))
    (device : Device) (calls : Nat) : Matched device (f r) (f (r.onDevice device calls)) := by
  refine ⟨?_, calls, hf device calls⟩
  have hsame : (f r).2 = (f r).2.onDevice r.source.device r.source.readCalls :=
    congrArg Prod.snd (hf r.source.device r.source.readCalls)
  rw [hsame]
  exact h

section

variable {r : Reader} {device : Device} (h : r.source.Reliable) (hdevice : device ≠ .stream true)
  (calls : Nat)

include h hdevice

theorem matched_readSection (length : Nat) (lengthBytes : Bytes) :
    Matched device (r.readSection length lengthBytes)
      ((r.onDevice device calls).readSection length lengthBytes) := by
  obtain ⟨hreliable, calls', hright⟩ :=
    matched_readBody h hdevice calls length .sectionTruncated
  unfold readSection
  rw [hright]
  cases hleft : r.readBody length .sectionTruncated with
  | mk result r₁ =>
    rw [hleft] at hreliable
    cases result with
    | error e => exact ⟨hreliable, calls', rfl⟩
    | ok body =>
      dsimp only
      split
      · exact ⟨hreliable, calls', rfl⟩
      · next cid payload _ =>
        let counted : Reader := { r₁ with blocksRead := r₁.blocksRead + 1 }
        let block : Block := { lengthBytes := lengthBytes, cid := cid, payload := payload }
        have hcounted : counted.source.Reliable := hreliable
        obtain ⟨hverified, calls'', hsame⟩ :=
          matched_of_onDevice (f := fun r => r.verify block) hcounted
            (counted.verify_onDevice block) device calls'
        have hright : ({ r₁.onDevice device calls' with
            blocksRead := (r₁.onDevice device calls').blocksRead + 1 } : Reader).verify block = _ :=
          hsame
        rw [hright]
        cases hverify : counted.verify block with
        | mk result r₂ =>
          rw [hverify] at hverified
          cases result with
          | error e => exact ⟨hverified, calls'', rfl⟩
          | ok _ => exact ⟨hverified, calls'', rfl⟩

theorem matched_nextSection :
    Matched device r.nextSection (r.onDevice device calls).nextSection := by
  obtain ⟨hreliable, calls', hright⟩ := matched_readLength h hdevice calls {} []
  unfold nextSection nextLength
  rw [hright]
  cases hleft : r.readLength {} [] with
  | mk result r₁ =>
    rw [hleft] at hreliable
    rcases result with e | _ | ⟨length, lengthBytes⟩
    · exact ⟨hreliable, calls', rfl⟩
    · exact ⟨hreliable, calls', rfl⟩
    · dsimp only
      split
      · show Matched device _ (if r₁.options.emptyEndsArchive = true then _ else _)
        split
        · exact ⟨hreliable, calls', rfl⟩
        · exact ⟨hreliable, calls', rfl⟩
      · show Matched device _ (if r₁.options.maxSectionSize < length then _ else _)
        split
        · exact ⟨hreliable, calls', rfl⟩
        · obtain ⟨hreliable', calls'', hsection⟩ :=
            matched_readSection hreliable hdevice calls' length lengthBytes
          rw [hsection]
          cases hleft' : r₁.readSection length lengthBytes with
          | mk result r₂ =>
            rw [hleft'] at hreliable'
            cases result with
            | error e => exact ⟨hreliable', calls'', rfl⟩
            | ok block => exact ⟨hreliable', calls'', rfl⟩

theorem matched_next : Matched device r.next (r.onDevice device calls).next := by
  obtain ⟨hreliable, calls', hright⟩ := matched_readHeader h hdevice calls
  unfold next
  rw [hright]
  cases hleft : r.readHeader with
  | mk result r₁ =>
    rw [hleft] at hreliable
    cases result with
    | error e => exact ⟨hreliable, calls', rfl⟩
    | ok header => exact matched_nextSection hreliable hdevice calls'

/-! ## Rows of calls -/

theorem matched_call (c : Call) : Matched device (r.call c) ((r.onDevice device calls).call c) := by
  cases c with
  | header =>
    obtain ⟨hreliable, calls', hright⟩ := matched_readHeader h hdevice calls
    refine ⟨hreliable, calls', ?_⟩
    rw [call, hright]
    rfl
  | next =>
    obtain ⟨hreliable, calls', hright⟩ := matched_next h hdevice calls
    refine ⟨hreliable, calls', ?_⟩
    rw [call, hright]
    rfl

end

/-- Every row of calls has the same answers over another device. -/
theorem matched_perform {r : Reader} {device : Device} (h : r.source.Reliable)
    (hdevice : device ≠ .stream true) (calls : Nat) (row : List Call) :
    Matched device (r.perform row) ((r.onDevice device calls).perform row) := by
  induction row generalizing r calls with
  | nil => exact ⟨h, calls, rfl⟩
  | cons c row ih =>
    obtain ⟨hreliable, calls', hcall⟩ := matched_call h hdevice calls c
    obtain ⟨hreliable', calls'', hrow⟩ := ih hreliable calls'
    refine ⟨hreliable', calls'', ?_⟩
    rw [perform, hcall, hrow]
    rfl

/-- The reader, whatever device is under it. -/
def plain (r : Reader) : Reader :=
  r.onDevice (.memory 0) 0

end Archive.Reader

end CarSlice
