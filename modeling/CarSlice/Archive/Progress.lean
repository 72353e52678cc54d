import CarSlice.Archive.Carried

/-!
# Progress of a reader

A reader only ever takes bytes from its source, and a block that it returns has
taken at least one. Loops over the blocks of an archive end because of it.
-/

namespace CarSlice.Archive.Reader

/-- How many bytes of the source are left. -/
def remaining (r : Reader) : Nat :=
  r.source.unread.length

/-! ## Lengths and bodies -/

theorem remaining_readLength_le (r : Reader) (acc : Varint.Accumulator) (seen : Bytes) :
    (r.readLength acc seen).2.remaining ≤ r.remaining := by
  fun_induction readLength r acc seen with
  | case1 r acc seen e source h =>
    simpa [remaining, h] using r.source.read_length_le 1
  | case2 r acc seen source h =>
    simpa [remaining, h] using r.source.read_length_le 1
  | case3 r acc seen source h =>
    simpa [remaining, h] using r.source.read_length_le 1
  | case4 r acc seen b got source h =>
    simpa [remaining, h] using r.source.read_length_le 1
  | case5 r acc seen b got source h =>
    simpa [remaining, h] using r.source.read_length_le 1
  | case6 r acc seen b got source h r' seen' _ ih =>
    have := r.source.read_length_le 1
    simp only [remaining, h] at this ih ⊢
    exact Nat.le_trans ih this

/-- A length that was read took at least one byte. -/
theorem remaining_readLength_lt {r r' : Reader} {acc : Varint.Accumulator} {seen : Bytes}
    {length : Nat × Bytes} (h : r.readLength acc seen = (.ok (some length), r')) :
    r'.remaining < r.remaining := by
  fun_induction readLength r acc seen with
  | case1 => simp at h
  | case2 => simp at h
  | case3 => simp at h
  | case4 r₀ acc seen b got source hread =>
    have := Source.read_length hread
    rw [← (Prod.mk.inj h).2]
    change source.unread.length < r₀.source.unread.length
    simp only [List.length_cons] at this
    omega
  | case5 => simp at h
  | case6 r₀ acc seen b got source hread _ _ _ ih =>
    have := Source.read_length hread
    have hlt := ih h
    change r'.source.unread.length < source.unread.length at hlt
    change r'.source.unread.length < r₀.source.unread.length
    simp only [List.length_cons] at this
    omega

theorem remaining_readBody_le (r : Reader) (length : Nat) (short : FramingFault) :
    (r.readBody length short).2.remaining ≤ r.remaining := by
  have hle := r.source.readFully_length_le length
  have hreads := r.readsBody_readBody length short
  generalize r.readBody length short = result at hreads
  cases hreads with
  | unread e source hread => rwa [hread] at hle
  | cut body source hread => rwa [hread] at hle
  | whole body source hread => rwa [hread] at hle

/-! ## Headers and sections -/

/-- Whatever a reader does, it puts nothing back. -/
theorem carried_remaining : Carried fun r r' => r'.remaining ≤ r.remaining where
  trans first second := Nat.le_trans second first
  beside hsource _ := Nat.le_of_eq (congrArg (·.unread.length) hsource)
  length := remaining_readLength_le
  body := remaining_readBody_le

theorem remaining_readHeader_le (r : Reader) : r.readHeader.2.remaining ≤ r.remaining :=
  carried_remaining.readHeader r

theorem remaining_next_le (r : Reader) : r.next.2.remaining ≤ r.remaining :=
  carried_remaining.next r

/-- A block that was read took at least one byte. -/
theorem remaining_nextSection_lt {r r' : Reader} {block : Block}
    (h : r.nextSection = (.ok (some block), r')) : r'.remaining < r.remaining := by
  have hreads := r.readsOn_nextSection
  rw [h] at hreads
  cases hreads with
  | block length lengthBytes block r₁ _ hlength _ _ hsection =>
    have hlt := remaining_readLength_lt hlength
    have hle := carried_remaining.readSection r₁ length lengthBytes
    rw [hsection] at hle
    exact Nat.lt_of_le_of_lt hle hlt

theorem remaining_next_lt {r r' : Reader} {block : Block}
    (h : r.next = (.ok (some block), r')) : r'.remaining < r.remaining := by
  have hheader := r.remaining_readHeader_le
  have hreads := r.readsNext_next
  rw [h] at hreads
  cases hreads with
  | behind header r₁ _ hread hsection =>
    rw [hread] at hheader
    exact Nat.lt_of_lt_of_le (remaining_nextSection_lt hsection) hheader

end CarSlice.Archive.Reader
