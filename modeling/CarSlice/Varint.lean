import CarSlice.Bytes

/-!
# Variable-length numbers

Unsigned LEB128 as multiformats use it: seven bits to a byte, least significant
first, the high bit set on every byte but the last, and at most nine bytes, so a
decoded value is below `2 ^ 63`.

`encode` writes a number, `decode` reads one from the front of a byte string,
and `Accumulator` reads one a byte at a time for length prefixes that come
straight off a stream. Encodings that are longer than needed are accepted.
-/

namespace CarSlice.Varint

/-- The most bytes a number may take. -/
def maxLength : Nat := 9

/-- The low seven bits of a byte. -/
def lowBits (b : UInt8) : Nat :=
  b.toNat % 128

/-! ## Writing -/

/-- The shortest encoding of a number. -/
def encode (n : Nat) : Bytes :=
  if n < 128 then [UInt8.ofNat n] else UInt8.ofNat (n % 128 + 128) :: encode (n / 128)
termination_by n
decreasing_by omega

/-- How many bytes `encode` takes. -/
def size (n : Nat) : Nat :=
  if n < 128 then 1 else size (n / 128) + 1
termination_by n
decreasing_by omega

/-! ## Reading from the front of a byte string -/

/-- Why no number could be read. -/
inductive Fault where
  /-- The bytes ended inside a number. -/
  | truncated
  /-- Nine bytes went by and none of them was a last byte. -/
  | overlong
  deriving Repr, DecidableEq

/-- A number that was read, how many bytes it took, and what follows it. -/
structure Reading where
  value : Nat
  length : Nat
  rest : Bytes
  deriving Repr, DecidableEq

/-- Puts a byte with more to come before a number that was read after it. -/
def Reading.after (b : UInt8) (r : Reading) : Reading :=
  { value := lowBits b + 128 * r.value, length := r.length + 1, rest := r.rest }

/-- Reads a number that may take at most `room` bytes. -/
def decodeWithin : Nat → Bytes → Except Fault Reading
  | 0, _ => .error .overlong
  | _ + 1, [] => .error .truncated
  | room + 1, b :: rest =>
    if b < 128 then .ok { value := lowBits b, length := 1, rest := rest }
    else (decodeWithin room rest).map (Reading.after b)

/-- Reads a number from the front of a byte string. -/
def decode (src : Bytes) : Except Fault Reading :=
  decodeWithin maxLength src

/-- The number at the front of a byte string and what follows it. -/
def read? (src : Bytes) : Option (Nat × Bytes) :=
  match decode src with
  | .ok r => some (r.value, r.rest)
  | .error _ => none

/-! ## Reading a byte at a time -/

/-- What an accumulator makes of the bytes it has seen. -/
inductive Status where
  | needMore
  | complete
  | overlong
  deriving Repr, DecidableEq

/-- A number that is being read. Once it is complete or overlong, further bytes
are ignored. -/
structure Accumulator where
  value : Nat := 0
  length : Nat := 0
  status : Status := .needMore
  deriving Repr, DecidableEq

/-- Takes the next byte. -/
def Accumulator.push (acc : Accumulator) (b : UInt8) : Accumulator :=
  match acc.status with
  | .complete | .overlong => acc
  | .needMore =>
    if maxLength ≤ acc.length then { acc with status := .overlong }
    else
      { value := acc.value + lowBits b <<< (7 * acc.length)
        length := acc.length + 1
        status :=
          if b < 128 then .complete
          else if maxLength ≤ acc.length + 1 then .overlong
          else .needMore }

/-- Forgets what was taken, for the next number. -/
def Accumulator.reset (_acc : Accumulator) : Accumulator :=
  {}

/-- Whether a byte was taken since the beginning. -/
def Accumulator.started (acc : Accumulator) : Bool :=
  acc.length != 0

/-! ## Lengths -/

theorem decodeWithin_length {room : Nat} {src : Bytes} {r : Reading}
    (h : decodeWithin room src = .ok r) : r.rest.length < src.length := by
  induction room generalizing src r with
  | zero => simp [decodeWithin] at h
  | succ room ih =>
    cases src with
    | nil => simp [decodeWithin] at h
    | cons b rest =>
      by_cases hb : b < 128
      · simp only [decodeWithin, hb, if_true, Except.ok.injEq] at h
        simp [← h]
      · simp only [decodeWithin, hb, if_false] at h
        cases hr : decodeWithin room rest with
        | error e => simp [hr, Except.map] at h
        | ok r' =>
          simp only [hr, Except.map, Except.ok.injEq] at h
          have := ih hr
          simp only [← h, Reading.after, List.length_cons]
          omega

/-- Reading a number uses up at least one byte. -/
theorem decode_length {src : Bytes} {r : Reading} (h : decode src = .ok r) :
    r.rest.length < src.length :=
  decodeWithin_length h

/-- Reading a number uses up at least one byte. -/
theorem read?_length {src rest : Bytes} {value : Nat} (h : read? src = some (value, rest)) :
    rest.length < src.length := by
  unfold read? at h
  split at h
  · next r hr =>
    cases h
    exact decode_length hr
  · cases h

/-- An accumulator that wants more has taken the byte and has room left. -/
theorem Accumulator.push_length {acc : Accumulator} {b : UInt8}
    (h : (acc.push b).status = .needMore) :
    maxLength - (acc.push b).length < maxLength - acc.length := by
  have hmax : maxLength = 9 := rfl
  cases hs : acc.status with
  | complete => simp [push, hs] at h
  | overlong => simp [push, hs] at h
  | needMore =>
    by_cases hfull : maxLength ≤ acc.length
    · simp [push, hs, hfull] at h
    · simp only [push, hs, hfull, if_false]
      omega

end CarSlice.Varint
