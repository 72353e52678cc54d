import CarSlice.Proofs.Source

/-!
# What a reader counts and what its source hands out

A reader counts the bytes that it gets, and a source those that it hands out.  The two agree also
where a call fails: a device breaks instead of handing out bytes, and not behind some of them
(`Source.position_of_readFully_error`).  `Reader.Counts` says so, and every function of a reader
carries it on (`carried_counts`).
-/

namespace CarSlice

namespace Source

/-- A device that breaks hands out nothing. -/
theorem position_of_read_error {s s' : Source} {n : Nat} {e : Error}
    (h : s.read n = (.error e, s')) : s'.position = s.position := by
  unfold read at h
  split at h
  · cases h
  · split at h
    · cases h
    · split at h
      · cases h
        rfl
      · cases h

/-- A device that may break gives all that is wanted, or nothing. -/
theorem length_of_read_of_breaks {s s' : Source} {n : Nat} {b : UInt8} {got : Bytes}
    (hdevice : s.device = .stream true) (h : s.read n = (.ok (b :: got), s')) :
    (b :: got).length = n := by
  unfold read at h
  split at h
  · cases h
  · rw [hdevice] at h
    dsimp only at h
    split at h
    · cases h
    · next hshort =>
      have hgot : s.unread.take n = b :: got := by
        have hfirst := (Prod.mk.inj h).1
        injection hfirst
      have hle := List.length_take_le n s.unread
      simp only [Bool.true_and, decide_eq_true_eq] at hshort
      rw [← hgot]
      omega

/-- Where reading on fails, nothing was handed out before. -/
theorem position_of_readFully_error {s s' : Source} {n : Nat} {e : Error}
    (h : s.readFully n = (.error e, s')) : s'.position = s.position := by
  have hdevice : s.device = .stream true := by
    by_contra hreliable
    obtain ⟨s₁, hok, -⟩ := readFully_of_reliable hreliable n
    rw [hok] at h
    cases h
  unfold readFully at h
  split at h
  · cases h
  · split at h
    · next hread =>
      cases h
      exact position_of_read_error hread
    · cases h
    · next b got s₁ hread =>
      exfalso
      rw [length_of_read_of_breaks hdevice hread, Nat.sub_self, readFully, if_pos rfl] at h
      cases h

end Source

namespace Archive.Reader

/-- A reader has counted what its source has handed out meanwhile. -/
def Counts (r r' : Reader) : Prop :=
  r'.source.position + r.bytesConsumed = r.source.position + r'.bytesConsumed

theorem Counts.trans {r r' r'' : Reader} (h : r.Counts r') (h' : r'.Counts r'') :
    r.Counts r'' := by
  unfold Counts at h h' ⊢
  omega

theorem counts_readLength (r : Reader) (acc : Varint.Accumulator) (seen : Bytes) :
    r.Counts (r.readLength acc seen).2 := by
  fun_induction readLength r acc seen with
  | case1 r acc seen e source hread =>
    show source.position + r.bytesConsumed = r.source.position + r.bytesConsumed
    rw [Source.position_of_read_error hread]
  | case2 r acc seen source hread | case3 r acc seen source hread =>
    have hgave := Source.gave_of_read hread
    show source.position + r.bytesConsumed = r.source.position + r.bytesConsumed
    rw [hgave.position]
    rfl
  | case4 r acc seen b got source hread | case5 r acc seen b got source hread =>
    have hgave := Source.gave_of_read_one hread
    show source.position + r.bytesConsumed = r.source.position + (r.bytesConsumed + 1)
    rw [hgave.position, List.length_singleton]
    omega
  | case6 r acc seen b got source hread _ _ _ ih =>
    have hgave := Source.gave_of_read_one hread
    have hbyte : r.Counts { r with source, bytesConsumed := r.bytesConsumed + 1 } := by
      show source.position + r.bytesConsumed = r.source.position + (r.bytesConsumed + 1)
      rw [hgave.position, List.length_singleton]
      omega
    exact hbyte.trans ih

theorem counts_readBody (r : Reader) (length : Nat) (short : FramingFault) :
    r.Counts (r.readBody length short).2 := by
  have hcounts {body : Bytes} {source : Source}
      (hread : r.source.readFully length = (.ok body, source)) :
      r.Counts { r with source, bytesConsumed := r.bytesConsumed + body.length } := by
    show source.position + r.bytesConsumed = r.source.position + (r.bytesConsumed + body.length)
    rw [(Source.gave_of_readFully hread).position]
    omega
  have hreads := r.readsBody_readBody length short
  generalize r.readBody length short = result at hreads
  cases hreads with
  | unread e source hread =>
    show source.position + r.bytesConsumed = r.source.position + r.bytesConsumed
    rw [Source.position_of_readFully_error hread]
  | cut body source hread => exact hcounts hread
  | whole body source hread => exact hcounts hread

theorem carried_counts : Carried Counts where
  trans := Counts.trans
  beside := fun hsource hcount => by rw [Counts, hsource, hcount]
  length := counts_readLength
  body := counts_readBody

theorem counts_next (r : Reader) : r.Counts r.next.2 :=
  carried_counts.next r

end Archive.Reader

end CarSlice
