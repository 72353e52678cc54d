import CarSlice.Varint
import Mathlib.Algebra.Ring.Nat
import Mathlib.Tactic.ByContra
import Mathlib.Tactic.SplitIfs

/-!
# Numbers that were read

A number has at most nine bytes of seven bits each, so what `decode` reads is below
`2 ^ 63` and fits a word.  An accumulator that takes the same bytes one at a time adds up
the same number: `push_last` and `push_more` are its two steps.  What `encode` wrote is read
back (`read?_encode`).

Whether a number is read, and which, is said by the first byte below 128 alone: its place decides
between a number and the two faults, and the bytes up to it are `spelled` out
(`decodeWithin_eq_ok_iff`, `decodeWithin_eq_truncated_iff`, `decodeWithin_eq_overlong_iff`).
`Spells` says which bytes are a number, without a reader (`read?_eq_some_iff`).
-/

namespace CarSlice.Varint

theorem lowBits_lt (b : UInt8) : lowBits b < 128 :=
  Nat.mod_lt _ (by decide)

/-- Every byte that a number may take adds seven bits. -/
theorem decodeWithin_value_lt {room : Nat} {src : Bytes} {r : Reading}
    (h : decodeWithin room src = .ok r) : r.value < 128 ^ room := by
  induction room generalizing src r with
  | zero => simp [decodeWithin] at h
  | succ room ih =>
    cases src with
    | nil => simp [decodeWithin] at h
    | cons b rest =>
      have hlow := lowBits_lt b
      rw [Nat.pow_succ]
      by_cases hb : b < 128
      · simp only [decodeWithin, hb, if_true, Except.ok.injEq] at h
        have hpos : 0 < 128 ^ room := Nat.pow_pos (by decide)
        rw [← h]
        show lowBits b < 128 ^ room * 128
        omega
      · simp only [decodeWithin, hb, if_false] at h
        cases hr : decodeWithin room rest with
        | error e => simp [hr, Except.map] at h
        | ok r' =>
          simp only [hr, Except.map, Except.ok.injEq] at h
          have hvalue := ih hr
          rw [← h]
          show lowBits b + 128 * r'.value < 128 ^ room * 128
          omega

/-- A number that was read fits a word, with a bit to spare. -/
theorem value_lt_of_read? {src rest : Bytes} {value : Nat} (h : read? src = some (value, rest)) :
    value < 2 ^ 63 := by
  unfold read? at h
  split at h
  · next r hr =>
    cases h
    exact decodeWithin_value_lt hr
  · cases h

/-! ## A byte at a time -/

namespace Accumulator

theorem push_last {acc : Accumulator} {b : UInt8} (hstatus : acc.status = .needMore)
    (hroom : acc.length < maxLength) (hb : b < 128) :
    (acc.push b).status = .complete ∧
      (acc.push b).value = acc.value + lowBits b <<< (7 * acc.length) := by
  have hfull : ¬maxLength ≤ acc.length := by omega
  simp [push, hstatus, hfull, hb]

theorem push_more {acc : Accumulator} {b : UInt8} (hstatus : acc.status = .needMore)
    (hroom : acc.length + 1 < maxLength) (hb : ¬b < 128) :
    (acc.push b).status = .needMore ∧ (acc.push b).length = acc.length + 1 ∧
      (acc.push b).value = acc.value + lowBits b <<< (7 * acc.length) := by
  have hfull : ¬maxLength ≤ acc.length := by omega
  have hfull' : ¬maxLength ≤ acc.length + 1 := by omega
  simp [push, hstatus, hfull, hfull', hb]

theorem push_overlong {acc : Accumulator} {b : UInt8} (hstatus : acc.status = .needMore)
    (hroom : acc.length + 1 = maxLength) (hb : ¬b < 128) : (acc.push b).status = .overlong := by
  have hfull : ¬maxLength ≤ acc.length := by omega
  have hfull' : maxLength ≤ acc.length + 1 := by omega
  simp [push, hstatus, hfull, hfull', hb]

theorem lt_of_push_complete {acc : Accumulator} {b : UInt8} (hstatus : acc.status = .needMore)
    (h : (acc.push b).status = .complete) : b < 128 := by
  by_contra hb
  simp only [push, hstatus, hb, if_false] at h
  split_ifs at h

/-- A number that is not complete goes on behind a byte that says so, and has room left. -/
theorem of_push_needMore {acc : Accumulator} {b : UInt8} (hstatus : acc.status = .needMore)
    (h : (acc.push b).status = .needMore) : ¬b < 128 ∧ acc.length + 1 < maxLength := by
  simp only [push, hstatus] at h
  split_ifs at h with hfull hb hfull'
  exact ⟨hb, by omega⟩

/-- What a byte and the bytes behind it add up to, seven bits further on. -/
theorem shift_after (b : UInt8) (r : Reading) (k : Nat) :
    lowBits b <<< (7 * k) + r.value <<< (7 * (k + 1)) = (r.after b).value <<< (7 * k) := by
  have hpow : 2 ^ (7 * (k + 1)) = 128 * 2 ^ (7 * k) := by
    rw [Nat.mul_add, Nat.pow_add]
    show 2 ^ (7 * k) * 128 = 128 * 2 ^ (7 * k)
    rw [Nat.mul_comm]
  show _ = (lowBits b + 128 * r.value) <<< (7 * k)
  rw [Nat.shiftLeft_eq, Nat.shiftLeft_eq, Nat.shiftLeft_eq, hpow, Nat.add_mul,
    ← Nat.mul_assoc, Nat.mul_comm r.value 128]

end Accumulator

/-! ## Writing and reading back -/

theorem lowBits_ofNat {n : Nat} (h : n < 256) : lowBits (UInt8.ofNat n) = n % 128 := by
  rw [lowBits, UInt8.toNat_ofNat_of_lt' h]

theorem ofNat_lt_iff {n : Nat} (h : n < 256) : UInt8.ofNat n < 128 ↔ n < 128 := by
  rw [UInt8.lt_iff_toNat_lt, UInt8.toNat_ofNat_of_lt' h]
  rfl

/-- What was written is read back if there is room for it, and what follows is left. -/
theorem decodeWithin_encode {room n : Nat} (h : n < 128 ^ (room + 1)) (rest : Bytes) :
    decodeWithin (room + 1) (encode n ++ rest) =
      .ok { value := n, length := size n, rest := rest } := by
  induction n using Nat.strongRecOn generalizing room with
  | ind n ih =>
    by_cases hlast : n < 128
    · have hbyte : UInt8.ofNat n < 128 := (ofNat_lt_iff (by omega)).2 hlast
      have hlow : lowBits (UInt8.ofNat n) = n := by
        rw [lowBits_ofNat (by omega)]
        omega
      rw [encode, size, if_pos hlast, if_pos hlast]
      simp [decodeWithin, hbyte, hlow]
    · have hmod : n % 128 < 128 := Nat.mod_lt _ (by decide)
      have hbyte : ¬UInt8.ofNat (n % 128 + 128) < 128 := by
        rw [ofNat_lt_iff (by omega)]
        omega
      have hlow : lowBits (UInt8.ofNat (n % 128 + 128)) = n % 128 := by
        rw [lowBits_ofNat (by omega)]
        omega
      cases room with
      | zero => omega
      | succ room =>
        have hless : n / 128 < 128 ^ (room + 1) := by
          rw [Nat.pow_succ] at h
          omega
        have hrest := ih (n / 128) (by omega) hless
        rw [encode, size, if_neg hlast, if_neg hlast, List.cons_append, decodeWithin,
          if_neg hbyte, hrest]
        simp only [Except.map, Reading.after, hlow, Except.ok.injEq, Reading.mk.injEq, and_true]
        omega

/-- A number below `2 ^ 63` is read back, and takes as many bytes as `size` says. -/
theorem decode_encode {n : Nat} (h : n < 2 ^ 63) (rest : Bytes) :
    decode (encode n ++ rest) = .ok { value := n, length := size n, rest := rest } :=
  have hroom : n < 128 ^ (8 + 1) := h
  decodeWithin_encode hroom rest

theorem read?_encode {n : Nat} (h : n < 2 ^ 63) (rest : Bytes) :
    read? (encode n ++ rest) = some (n, rest) := by
  rw [read?, decode_encode h]

/-! ## Numbers by their bytes -/

/-- The number that bytes spell, seven bits each, least significant first. -/
def spelled (bytes : Bytes) : Nat :=
  bytes.foldr (fun b value => lowBits b + 128 * value) 0

/-- A number is read up to the first byte that says that it is the last, if there is room for
it. -/
theorem decodeWithin_eq_ok_iff {room : Nat} {src : Bytes} {r : Reading} :
    decodeWithin room src = .ok r ↔
      ∃ more last, (∀ b ∈ more, 128 ≤ b) ∧ last < 128 ∧ more.length < room ∧
        src = more ++ last :: r.rest ∧ r.length = more.length + 1 ∧
        r.value = spelled (more ++ [last]) := by
  constructor
  · intro h
    induction room generalizing src r with
    | zero => cases h
    | succ room ih =>
      cases src with
      | nil => cases h
      | cons b rest =>
        by_cases hb : b < 128
        · simp only [decodeWithin, hb, if_true, Except.ok.injEq] at h
          subst h
          exact ⟨[], b, by simp, hb, Nat.succ_pos _, rfl, rfl, rfl⟩
        · simp only [decodeWithin, hb, if_false] at h
          cases hr : decodeWithin room rest with
          | error e => simp [hr, Except.map] at h
          | ok r' =>
            simp only [hr, Except.map, Except.ok.injEq] at h
            obtain ⟨more, last, hmore, hlast, hroom, hrest, hlength, hvalue⟩ := ih hr
            subst h
            refine ⟨b :: more, last, List.forall_mem_cons.2 ⟨UInt8.not_lt.1 hb, hmore⟩, hlast,
              Nat.succ_lt_succ hroom, congrArg (b :: ·) hrest, congrArg (· + 1) hlength, ?_⟩
            show lowBits b + 128 * r'.value = lowBits b + 128 * spelled (more ++ [last])
            rw [hvalue]
  · rintro ⟨more, last, hmore, hlast, hroom, hsrc, hlength, hvalue⟩
    obtain ⟨value, length, rest⟩ := r
    dsimp only at hsrc hlength hvalue
    subst hsrc hlength hvalue
    induction more generalizing room with
    | nil =>
      obtain ⟨room, rfl⟩ := Nat.exists_eq_succ_of_ne_zero (Nat.ne_of_gt hroom)
      simp [decodeWithin, hlast, spelled]
    | cons b more ih =>
      rw [List.forall_mem_cons] at hmore
      obtain ⟨room, rfl⟩ := Nat.exists_eq_succ_of_ne_zero (Nat.ne_of_gt (Nat.zero_lt_of_lt hroom))
      have hb : ¬b < 128 := UInt8.not_lt.2 hmore.1
      rw [List.cons_append, decodeWithin, if_neg hb, ih hmore.2 (Nat.lt_of_succ_lt_succ hroom)]
      rfl

/-- Bytes end inside a number if all of them say that more is to come. -/
theorem decodeWithin_eq_truncated_iff {room : Nat} {src : Bytes} :
    decodeWithin room src = .error .truncated ↔ src.length < room ∧ ∀ b ∈ src, 128 ≤ b := by
  induction room generalizing src with
  | zero => simp [decodeWithin]
  | succ room ih =>
    cases src with
    | nil => simp [decodeWithin]
    | cons b rest =>
      rw [List.forall_mem_cons, List.length_cons, Nat.succ_lt_succ_iff]
      by_cases hb : b < 128
      · simp [decodeWithin, hb, UInt8.not_le.2 hb]
      · have hmore : decodeWithin room rest = .error .truncated ↔ _ := ih
        simp only [decodeWithin, hb, if_false]
        cases hr : decodeWithin room rest with
        | error e => simp_all [Except.map]
        | ok r' => simp_all [Except.map]

/-- A number has no end in the room that it may take if all bytes there say that more is to
come. -/
theorem decodeWithin_eq_overlong_iff {room : Nat} {src : Bytes} :
    decodeWithin room src = .error .overlong ↔
      room ≤ src.length ∧ ∀ b ∈ src.take room, 128 ≤ b := by
  induction room generalizing src with
  | zero => simp [decodeWithin]
  | succ room ih =>
    cases src with
    | nil => simp [decodeWithin]
    | cons b rest =>
      rw [List.take_succ_cons, List.forall_mem_cons, List.length_cons, Nat.succ_le_succ_iff]
      by_cases hb : b < 128
      · simp [decodeWithin, hb, UInt8.not_le.2 hb]
      · have hmore : decodeWithin room rest = .error .overlong ↔ _ := ih
        simp only [decodeWithin, hb, if_false]
        cases hr : decodeWithin room rest with
        | error e => simp_all [Except.map]
        | ok r' => simp_all [Except.map]

/-- Bytes that neither end inside a number nor go on for too long have a last byte of a number in
the room for it. -/
theorem exists_last {src : Bytes}
    (hended : ¬(src.length < maxLength ∧ ∀ b ∈ src, 128 ≤ b))
    (hwent : ¬(maxLength ≤ src.length ∧ ∀ b ∈ src.take maxLength, 128 ≤ b)) :
    ∃ more last rest, src = more ++ last :: rest ∧ (∀ b ∈ more, 128 ≤ b) ∧ last < 128 ∧
      more.length < maxLength := by
  cases hdecode : decode src with
  | error fault =>
    cases fault with
    | truncated => exact absurd (decodeWithin_eq_truncated_iff.1 hdecode) hended
    | overlong => exact absurd (decodeWithin_eq_overlong_iff.1 hdecode) hwent
  | ok r =>
    obtain ⟨more, last, hmore, hlast, hroom, hsrc, -⟩ := decodeWithin_eq_ok_iff.1 hdecode
    exact ⟨more, last, r.rest, hsrc, hmore, hlast, hroom⟩

/-- Bytes that go on for too long do so at the last byte that there is room for. -/
theorem exists_ninth {src : Bytes} (hroom : maxLength ≤ src.length)
    (hmore : ∀ b ∈ src.take maxLength, 128 ≤ b) :
    ∃ more b rest, src = more ++ b :: rest ∧ (∀ b ∈ more, 128 ≤ b) ∧ 128 ≤ b ∧
      more.length + 1 = maxLength := by
  have hlength : (src.take maxLength).length = maxLength := List.length_take_of_le hroom
  have hsplit := List.take_append_drop maxLength src
  rcases List.eq_nil_or_concat (src.take maxLength) with hnil | ⟨more, b, hfront⟩
  · rw [hnil] at hlength
    cases hlength
  · rw [List.concat_eq_append] at hfront
    rw [hfront, List.forall_mem_append, List.forall_mem_singleton] at hmore
    rw [hfront, List.append_assoc, List.singleton_append] at hsplit
    rw [hfront, List.length_append, List.length_singleton] at hlength
    exact ⟨more, b, src.drop maxLength, hsplit.symm, hmore.1, hmore.2, hlength⟩

/-- The last byte of a number is the first one below 128. -/
theorem findIdx_last {more rest : Bytes} {last : UInt8} (hmore : ∀ b ∈ more, 128 ≤ b)
    (hlast : last < 128) : (more ++ last :: rest).findIdx (· < 128) = more.length := by
  induction more with
  | nil => simp [List.findIdx_cons, hlast]
  | cons b more ih =>
    rw [List.forall_mem_cons] at hmore
    have hb : ¬b < 128 := UInt8.not_lt.2 hmore.1
    simp [List.findIdx_cons, hb, ih hmore.2]

/-! ## Bytes that follow -/

/-- The bytes of a number: all but the last say that more is to come, and there are at most nine.
The shortest form is not asked for. -/
inductive Spells : Nat → Bytes → Prop where
  | mk {more : Bytes} {last : UInt8} (hmore : ∀ b ∈ more, 128 ≤ b) (hlast : last < 128)
      (hroom : more.length < maxLength) : Spells (spelled (more ++ [last])) (more ++ [last])

theorem Spells.ne_nil {n : Nat} {bytes : Bytes} (h : Spells n bytes) : bytes ≠ [] := by
  cases h
  simp

/-- A number is read exactly if its bytes stand in front, and what follows them is left. -/
theorem read?_eq_some_iff {src rest : Bytes} {value : Nat} :
    read? src = some (value, rest) ↔ ∃ front, src = front ++ rest ∧ Spells value front := by
  constructor
  · intro h
    unfold read? at h
    split at h
    · next r hr =>
      cases h
      obtain ⟨more, last, hmore, hlast, hroom, hsrc, -, hvalue⟩ := decodeWithin_eq_ok_iff.1 hr
      rw [hvalue]
      exact ⟨more ++ [last], by rw [hsrc, List.append_cons], .mk hmore hlast hroom⟩
    · cases h
  · rintro ⟨front, rfl, hspells⟩
    obtain ⟨hmore, hlast, hroom⟩ := hspells
    next more last =>
      have hdecode : decode (more ++ [last] ++ rest) =
          .ok { value := spelled (more ++ [last]), length := more.length + 1, rest := rest } :=
        decodeWithin_eq_ok_iff.2
          ⟨more, last, hmore, hlast, hroom, (List.append_cons ..).symm, rfl, rfl⟩
      rw [read?, hdecode]

theorem Spells.read? {value : Nat} {front : Bytes} (h : Spells value front) (rest : Bytes) :
    Varint.read? (front ++ rest) = some (value, rest) :=
  read?_eq_some_iff.2 ⟨front, rfl, h⟩

/-- Bytes are those of a number if they are read as such and nothing is left. -/
theorem read?_eq_some_nil_iff {bytes : Bytes} {value : Nat} :
    read? bytes = some (value, []) ↔ Spells value bytes := by
  simp [read?_eq_some_iff]

/-- What was written spells the number. -/
theorem spells_encode {n : Nat} (h : n < 2 ^ 63) : Spells n (encode n) := by
  rw [← read?_eq_some_nil_iff, ← List.append_nil (encode n)]
  exact read?_encode h []

end CarSlice.Varint
