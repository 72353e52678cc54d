import CarSlice.Error

/-!
# Sources of bytes

A source hands out bytes from the front, never the same byte twice. It stands
for memory, which may hand out at most `chunk` bytes at a time, or for a stream,
whose device may break once its bytes are used up. A closed source hands out
nothing.

`read` is one read, `readFully` repeats it until enough bytes came or the source
is at its end.
-/

namespace CarSlice

/-- What is under a source. -/
inductive Device where
  /-- Memory that hands out at most `chunk` bytes at a time; zero is no limit. -/
  | memory (chunk : Nat)
  /-- A stream. If it breaks, then on the first read that wants more bytes than
  there are, and for good. -/
  | stream (breaks : Bool)
  deriving Repr, DecidableEq

/-- A source of bytes. -/
structure Source where
  device : Device
  unread : Bytes
  /-- How many bytes were handed out. -/
  position : Nat := 0
  /-- How often memory was asked for bytes. -/
  readCalls : Nat := 0
  closed : Bool := false
  deriving Repr, DecidableEq

namespace Source

/-- Memory with a limit on what one read hands out. -/
def ofMemory (bytes : Bytes) (chunk : Nat) : Source :=
  { device := .memory chunk, unread := bytes }

/-- A stream that ends after its bytes. -/
def ofStream (bytes : Bytes) : Source :=
  { device := .stream false, unread := bytes }

/-- A stream whose device breaks after its bytes. -/
def ofBrokenStream (bytes : Bytes) : Source :=
  { device := .stream true, unread := bytes }

/-- Nothing is handed out any more. -/
def close (s : Source) : Source :=
  { s with closed := true }

/-- Hands out the first `n` bytes that are left, or fewer at the end. -/
def handOut (s : Source) (n : Nat) : Bytes × Source :=
  let got := s.unread.take n
  (got, { s with unread := s.unread.drop n, position := s.position + got.length })

/-- One read of at most `n` bytes. No bytes are the end of the source. -/
def read (s : Source) (n : Nat) : Except Error Bytes × Source :=
  if s.closed || n == 0 then (.ok [], s)
  else
    match s.device with
    | .memory chunk =>
      let s := { s with readCalls := s.readCalls + 1 }
      let (got, s) := s.handOut (if chunk = 0 then n else min n chunk)
      (.ok got, s)
    | .stream breaks =>
      if breaks && (s.unread.take n).length < n then
        (.error .sourceFailed, { s with unread := [] })
      else
        let (got, s) := s.handOut n
        (.ok got, s)

/-! ## What a read leaves -/

theorem read_length {s s' : Source} {n : Nat} {got : Bytes} (h : s.read n = (.ok got, s')) :
    got.length + s'.unread.length = s.unread.length := by
  unfold read at h
  split at h
  · cases h
    simp
  · split at h
    · simp only [handOut, Prod.mk.injEq, Except.ok.injEq] at h
      simp only [← h.1, ← h.2, List.length_take, List.length_drop]
      omega
    · split at h
      · cases h
      · simp only [handOut, Prod.mk.injEq, Except.ok.injEq] at h
        simp only [← h.1, ← h.2, List.length_take, List.length_drop]
        omega

theorem read_length_le (s : Source) (n : Nat) : (s.read n).2.unread.length ≤ s.unread.length := by
  unfold read
  split
  · simp
  · split
    · simp [handOut]
    · split <;> simp [handOut]

/-- A read hands out no more than it was asked for. -/
theorem length_of_read {s s' : Source} {n : Nat} {got : Bytes} (h : s.read n = (.ok got, s')) :
    got.length ≤ n := by
  unfold read at h
  split at h
  · cases h
    simp
  · split at h
    · simp only [handOut, Prod.mk.injEq, Except.ok.injEq] at h
      simp only [← h.1, List.length_take]
      split <;> omega
    · split at h
      · cases h
      · simp only [handOut, Prod.mk.injEq, Except.ok.injEq] at h
        simp only [← h.1, List.length_take]
        omega

/-! ## Reading until enough came -/

/-- Reads until `n` bytes came or the source is at its end. If a read fails, the
bytes that came before it are lost. -/
def readFully (s : Source) (n : Nat) : Except Error Bytes × Source :=
  if n = 0 then (.ok [], s)
  else
    match s.read n with
    | (.error e, s) => (.error e, s)
    | (.ok [], s) => (.ok [], s)
    | (.ok (b :: got), s) =>
      let (more, s) := s.readFully (n - (b :: got).length)
      (more.map ((b :: got) ++ ·), s)
termination_by n
decreasing_by
  simp only [List.length_cons]
  omega

theorem readFully_length_le (s : Source) (n : Nat) :
    (s.readFully n).2.unread.length ≤ s.unread.length := by
  induction n using Nat.strongRecOn generalizing s with
  | ind n ih =>
    unfold readFully
    split
    · simp
    · next hn =>
      have hle := read_length_le s n
      split
      · next h => simpa [h] using hle
      · next h => simpa [h] using hle
      · next b got s' h =>
        have := ih (n - (b :: got).length) (by simp only [List.length_cons]; omega) s'
        rw [h] at hle
        exact Nat.le_trans this hle

end Source

end CarSlice
