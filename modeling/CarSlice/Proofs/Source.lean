import CarSlice.Proofs.Archive.Consumption

/-!
# Sources that do not fail

Memory hands out its bytes in pieces of any size, and a stream that ends after its bytes hands
out as many as are asked for.  The pieces do not matter: what one read of a single byte gives, and
what reads that are repeated until enough came give, is the front of what the source still
holds (`read_one_of_reliable`, `readFully_of_reliable`), and nothing behind it is touched.

A source that has nothing left and does not fail for want of it is spent (`Spent`), and remains
so.  A reader finds no length exactly there (`nextLength_of_spent`, `spent_of_nextLength_none`),
so it finds the end of an archive at a spent source or behind a marker (`end_of_nextSection`).
-/

namespace CarSlice

namespace Source

/-- A source whose device does not break. -/
def Reliable (s : Source) : Prop :=
  s.device ≠ .stream true

theorem reliable_ofMemory (bytes : Bytes) (chunk : Nat) : (ofMemory bytes chunk).Reliable := by
  simp [Reliable, ofMemory]

theorem Reliable.of_device {s s' : Source} (h : s.Reliable) (hdevice : s'.device = s.device) :
    s'.Reliable := by
  rw [Reliable, hdevice]
  exact h

/-- The bytes that a source would still hand out. -/
def available (s : Source) : Bytes :=
  if s.closed then [] else s.unread

theorem available_of_closed {s : Source} (h : s.closed = true) : s.available = [] :=
  if_pos h

theorem available_of_open {s : Source} (h : s.closed = false) : s.available = s.unread := by
  rw [available, h, if_neg Bool.false_ne_true]

/-- One read of a source that does not fail: it gives nothing only if nothing was wanted or
nothing is left, and a source that gives something is open. -/
theorem read_of_reliable {s : Source} (h : s.Reliable) (n : Nat) :
    ∃ got s', s.read n = (.ok got, s') ∧ s'.device = s.device ∧
      (got = [] → n = 0 ∨ s.available = []) ∧ (got ≠ [] → s.closed = false) := by
  by_cases hclosed : s.closed = true
  · exact ⟨[], s, by simp [read, hclosed], rfl, fun _ => Or.inr (available_of_closed hclosed),
      fun hne => absurd rfl hne⟩
  · have hopen : s.closed = false := by simpa using hclosed
    by_cases hn : n = 0
    · exact ⟨[], s, by simp [read, hn], rfl, fun _ => Or.inl hn, fun _ => hopen⟩
    · have hwanted : (s.closed || n == 0) = false := by simp [hopen, hn]
      rw [available_of_open hopen]
      cases hdevice : s.device with
      | memory chunk =>
        have hread : s.read n =
            (.ok (s.unread.take (if chunk = 0 then n else min n chunk)),
              ({ s with readCalls := s.readCalls + 1 }.handOut
                (if chunk = 0 then n else min n chunk)).2) := by
          simp [read, hwanted, hdevice, handOut]
        refine ⟨_, _, hread, hdevice, ?_, fun _ => hopen⟩
        intro hnil
        rw [List.take_eq_nil_iff] at hnil
        by_cases hchunk : chunk = 0
        · rw [if_pos hchunk] at hnil
          exact hnil
        · rw [if_neg hchunk] at hnil
          exact Or.inr (hnil.resolve_left (by omega))
      | stream breaks =>
        have hsound : breaks = false := by
          by_contra hbreaks
          apply h
          rw [hdevice]
          simpa using hbreaks
        have hread : s.read n = (.ok (s.unread.take n), (s.handOut n).2) := by
          simp [read, hwanted, hdevice, hsound, handOut]
        refine ⟨_, _, hread, hdevice, ?_, fun _ => hopen⟩
        intro hnil
        rw [List.take_eq_nil_iff] at hnil
        exact hnil

/-- Reading on until enough came gives the front of what the source holds. -/
theorem readFully_of_reliable {s : Source} (h : s.Reliable) (n : Nat) :
    ∃ s', s.readFully n = (.ok (s.available.take n), s') ∧ s'.device = s.device := by
  induction n using Nat.strongRecOn generalizing s with
  | ind n ih =>
    by_cases hn : n = 0
    · refine ⟨s, ?_, rfl⟩
      rw [readFully, if_pos hn, hn, List.take_zero]
    · obtain ⟨got, s', hread, hdevice, hnone, hsome⟩ := read_of_reliable h n
      cases got with
      | nil =>
        have hnothing : s.available = [] := (hnone rfl).resolve_left hn
        refine ⟨s', ?_, hdevice⟩
        rw [readFully, if_neg hn, hread, hnothing, List.take_nil]
      | cons b got =>
        have hopen : s.closed = false := hsome (by simp)
        have hgave := gave_of_read hread
        have hle : (b :: got).length ≤ n := length_of_read hread
        have hless : n - (b :: got).length < n := by
          rw [List.length_cons] at hle ⊢
          omega
        obtain ⟨s'', hmore, hdevice'⟩ := ih _ hless (h.of_device hdevice)
        -- The first piece and what comes after it are the front of what was there.
        have hfront : s.available.take n =
            (b :: got) ++ s'.available.take (n - (b :: got).length) := by
          rw [available_of_open hopen, available_of_open (hgave.closed.trans hopen), hgave.unread,
            List.take_append, List.take_of_length_le hle]
        refine ⟨s'', ?_, hdevice'.trans hdevice⟩
        rw [readFully, if_neg hn, hread]
        simp only [hmore, Except.map, hfront]

/-- A read of one byte gives the first byte that is left, if there is one. -/
theorem read_one_of_reliable {s : Source} (h : s.Reliable) :
    ∃ s', s.read 1 = (.ok (s.available.take 1), s') ∧ s'.device = s.device := by
  obtain ⟨got, s', hread, hdevice, hnone, hsome⟩ := read_of_reliable h 1
  refine ⟨s', ?_, hdevice⟩
  rw [hread]
  congr 2
  cases got with
  | nil =>
    have hnothing : s.available = [] := (hnone rfl).resolve_left Nat.one_ne_zero
    rw [hnothing, List.take_nil]
  | cons b got =>
    have hgave := gave_of_read_one hread
    have hle := length_of_read hread
    have hnil : got = [] := List.length_eq_zero_iff.1 (by simpa using hle)
    rw [available_of_open (hsome (by simp)), hgave.unread, hnil]
    rfl

/-! ## Spent sources -/

/-- A source that has nothing to hand out, and whose device does not break for want of it. -/
structure Spent (s : Source) : Prop where
  available : s.available = []
  sound : s.closed = true ∨ s.Reliable

theorem Spent.read {s : Source} (h : s.Spent) :
    ∃ s', s.read 1 = (.ok [], s') ∧ s'.device = s.device ∧ s.Gave [] s' ∧ s'.Spent := by
  rcases h.sound with hclosed | hreliable
  · have hread : s.read 1 = (.ok [], s) := by simp [Source.read, hclosed]
    exact ⟨s, hread, rfl, s.gave_nil, h⟩
  · obtain ⟨s', hread, hdevice⟩ := read_one_of_reliable hreliable
    rw [h.available, List.take_nil] at hread
    have hgave := gave_of_read hread
    refine ⟨s', hread, hdevice, hgave, ?_, Or.inr (hreliable.of_device hdevice)⟩
    rw [← h.available, Source.available, Source.available, hgave.closed, hgave.unread,
      List.nil_append]

/-- A read of one byte gives none only if the source is spent. -/
theorem spent_of_read {s s' : Source} (h : s.read 1 = (.ok [], s')) : s.Spent := by
  by_cases hclosed : s.closed = true
  · exact ⟨available_of_closed hclosed, Or.inl hclosed⟩
  · have hopen : s.closed = false := by simpa using hclosed
    have hunread : s.unread = [] := by
      cases hunread : s.unread with
      | nil => rfl
      | cons b rest =>
        obtain ⟨s₁, hread, -⟩ := read_one hopen hunread
        rw [hread] at h
        cases h
    refine ⟨(available_of_open hopen).trans hunread, Or.inr fun hbreaks => ?_⟩
    simp [Source.read, hopen, hbreaks, hunread] at h

end Source

namespace Archive.Reader

/-! ## Readers of spent sources -/

theorem nextLength_of_spent {r : Reader} (h : r.source.Spent) :
    ∃ r', r.nextLength = (.ok none, r') ∧ r'.source.device = r.source.device ∧
      r.Passed [] r' ∧ r'.source.Spent := by
  obtain ⟨source, hread, hdevice, hgave, hspent⟩ := h.read
  refine ⟨{ r with source }, ?_, hdevice, ⟨hgave, rfl, rfl⟩, hspent⟩
  rw [nextLength, readLength, hread]
  rfl

theorem spent_of_nextLength_none {r r' : Reader} (h : r.nextLength = (.ok none, r')) :
    r.source.Spent := by
  unfold nextLength readLength at h
  split at h
  · cases h
  · next hread => exact Source.spent_of_read hread
  · next b _ _ _ =>
    dsimp only at h
    split at h
    · cases h
    · cases h
    · next hneed =>
      -- A length that was begun does not end in nothing.
      have hroom := Varint.Accumulator.push_length hneed
      have hfresh := (passed_of_readLength_none h).1
      have hlength : (({} : Varint.Accumulator).push b).length = 0 := by
        simpa [Varint.Accumulator.started] using hfresh
      rw [hlength] at hroom
      exact absurd hroom (Nat.not_lt.2 (Nat.le_refl _))

/-- The end of an archive is where its source is spent, or behind a marker. -/
theorem end_of_nextSection {r r' : Reader} (h : r.nextSection = (.ok none, r')) :
    r.source.Spent ∧ r.Passed [] r' ∧ r'.source.Spent ∨
      ∃ marker, r.Passed marker r' ∧ r.options.emptyEndsArchive = true ∧
        Varint.read? marker = some (0, []) := by
  have hreads := r.readsOn_nextSection
  rw [h] at hreads
  cases hreads with
  | spent r₁ hlength =>
    have hspent := spent_of_nextLength_none hlength
    obtain ⟨r₂, hsame, -, hpassed, hspent'⟩ := nextLength_of_spent hspent
    obtain rfl : r₂ = r' := (Prod.mk.inj (hsame.symm.trans hlength)).2
    exact Or.inl ⟨hspent, hpassed, hspent'⟩
  | marker lengthBytes r₁ hlength hends =>
    obtain ⟨hread, hpassed⟩ := passed_of_nextLength hlength
    exact Or.inr ⟨lengthBytes, hpassed, hpassed.options ▸ hends, hread⟩

/-- Behind the header, a call finds the end of a spent source and takes nothing. -/
theorem next_of_spent {r : Reader} (hheader : r.header.isSome = true) (hspent : r.source.Spent) :
    ∃ r', r.next = (.ok none, r') ∧ r'.source.device = r.source.device ∧ r.Passed [] r' ∧
      r'.source.Spent := by
  obtain ⟨r', hlength, hkept⟩ := nextLength_of_spent hspent
  refine ⟨r', ?_, hkept⟩
  rw [next_eq_nextSection hheader, nextSection, hlength]

end Archive.Reader

end CarSlice
