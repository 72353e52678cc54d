import CarSlice.Archive.Cases

/-!
# Why an archive is not read

A reader fails for what it reads and for nothing else (`Error.OfReading`): the framing or the
header is malformed, a digest is not that of its CID, or the device under the source breaks.
Each function of a source and of a reader has one lemma that says so, and the whole comes to
`ofReading_of_readHeader` and `ofReading_of_next`.  The codes of faults of the framing and of
digests are `Error.code_framing` and `Error.code_digestMismatch`.
-/

namespace CarSlice

/-- The ways in which reading an archive fails. -/
inductive Error.OfReading : Error → Prop where
  | header (fault : HeaderFault) : OfReading (.header fault)
  | framing (fault : FramingFault) (offset : Nat) : OfReading (.framing fault offset)
  | digestMismatch (cid : Text) : OfReading (.digestMismatch cid)
  | sourceFailed : OfReading .sourceFailed

theorem Error.code_framing (fault : FramingFault) (offset : Nat) :
    (framing fault offset).code = 0x100 + fault.offset := by
  simp [code, domain, Error.offset, Domain.base, Domain.number, Domain.span]

theorem Error.code_digestMismatch (cid : Text) : (digestMismatch cid).code = 0x301 := by
  simp [code, domain, offset, Domain.base, Domain.number, Domain.span]

namespace Source

theorem ofReading_of_read {s s' : Source} {n : Nat} {e : Error}
    (h : s.read n = (.error e, s')) : e.OfReading := by
  unfold read at h
  split at h
  · cases h
  · split at h
    · cases h
    · split at h
      · cases h
        exact .sourceFailed
      · cases h

theorem ofReading_of_readFully {s s' : Source} {n : Nat} {e : Error}
    (h : s.readFully n = (.error e, s')) : e.OfReading := by
  induction n using Nat.strongRecOn generalizing s s' e with
  | ind n ih =>
    unfold readFully at h
    split at h
    · cases h
    · split at h
      · next hread =>
        cases h
        exact ofReading_of_read hread
      · cases h
      · next b got s₁ hread =>
        cases hmore : s₁.readFully (n - (b :: got).length) with
        | mk more s₂ =>
          rw [hmore] at h
          cases more with
          | ok more => cases h
          | error e' =>
            cases h
            exact ih _ (by simp only [List.length_cons]; omega) hmore

end Source

namespace Archive.Reader

/-! ## Lengths and bodies -/

theorem ofReading_of_readLength {r r' : Reader} {acc : Varint.Accumulator} {seen : Bytes}
    {e : Error} (h : r.readLength acc seen = (.error e, r')) : e.OfReading := by
  fun_induction readLength r acc seen with
  | case1 r acc seen e₁ source hread =>
    cases h
    exact Source.ofReading_of_read hread
  | case2 =>
    obtain rfl := Except.error.inj (Prod.mk.inj h).1
    exact .framing ..
  | case3 => cases h
  | case4 => cases h
  | case5 =>
    obtain rfl := Except.error.inj (Prod.mk.inj h).1
    exact .framing ..
  | case6 r acc seen b rest source hread r₁ seen₁ hstatus ih => exact ih h

theorem ofReading_of_readBody {r r' : Reader} {length : Nat} {short : FramingFault} {e : Error}
    (h : r.readBody length short = (.error e, r')) : e.OfReading := by
  have hreads := r.readsBody_readBody length short
  rw [h] at hreads
  cases hreads with
  | unread e source hread => exact Source.ofReading_of_readFully hread
  | cut => exact .framing ..

/-! ## The header -/

theorem ofReading_of_readNewHeader {r r' : Reader} {e : Error}
    (h : r.readNewHeader = (.error e, r')) : e.OfReading := by
  have hreads := r.readsNewHeader_readNewHeader
  rw [h] at hreads
  cases hreads with
  | noLength e r₁ hlength => exact ofReading_of_readLength hlength
  | missing => exact .framing ..
  | empty => exact .framing ..
  | tooLarge => exact .framing ..
  | noBody length lengthBytes e r₁ r₂ hlength hpos hfits hbody => exact ofReading_of_readBody hbody
  | malformed length lengthBytes body fault => exact .header fault

theorem ofReading_of_readHeader {r r' : Reader} {e : Error}
    (h : r.readHeader = (.error e, r')) : e.OfReading := by
  cases hheader : r.header with
  | some header =>
    rw [readHeader_of_known hheader] at h
    cases h
  | none =>
    rw [readHeader_of_new hheader] at h
    exact ofReading_of_readNewHeader h

/-! ## Sections -/

theorem ofReading_of_verify {r r' : Reader} {block : Block} {e : Error}
    (h : r.verify block = (.error e, r')) : e.OfReading := by
  have hverifies := r.verifiesAs_verify block
  rw [h] at hverifies
  cases hverifies with
  | differing => exact .digestMismatch _

theorem ofReading_of_readSection {r r' : Reader} {length : Nat} {lengthBytes : Bytes} {e : Error}
    (h : r.readSection length lengthBytes = (.error e, r')) : e.OfReading := by
  have hreads := r.readsSection_readSection length lengthBytes
  rw [h] at hreads
  cases hreads with
  | noBody e r₁ hbody => exact ofReading_of_readBody hbody
  | badCid => exact .framing ..
  | refused body payload cid e r₁ r₂ hbody hcid hverify => exact ofReading_of_verify hverify

theorem ofReading_of_nextSection {r r' : Reader} {e : Error}
    (h : r.nextSection = (.error e, r')) : e.OfReading := by
  have hreads := r.readsOn_nextSection
  rw [h] at hreads
  cases hreads with
  | noLength e r₁ hlength => exact ofReading_of_readLength hlength
  | empty => exact .framing ..
  | tooLarge => exact .framing ..
  | failed length lengthBytes e r₁ r₂ hlength hpos hfits hsection =>
    exact ofReading_of_readSection hsection

theorem ofReading_of_next {r r' : Reader} {e : Error} (h : r.next = (.error e, r')) :
    e.OfReading := by
  have hreads := r.readsNext_next
  rw [h] at hreads
  cases hreads with
  | noHeader e r₁ hread => exact ofReading_of_readHeader hread
  | behind header r₁ result hread hsection => exact ofReading_of_nextSection hsection

end Archive.Reader

end CarSlice
