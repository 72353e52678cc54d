import CarSlice.Proofs.Varint
import Mathlib.Data.Nat.Digits.Lemmas

/-!
# One format for four functions

`encode`, `size`, `decode` and `Accumulator` agree on what a number is, for every number and every
byte string (`readers_agree_with_writer`).

* `decodeWithin_encode_overlong`: what was written is refused from `2 ^ 63` on; below, it is read
  back by `decode_encode`.
* `size_spelled_le`: no bytes spell a number in less room than `encode` takes.
* `spelled_eq_sum`: the number that bytes spell, as a sum over their places.
* `verdict` is what an accumulator has to say.  `verdict_foldl_push` is the induction over the bytes
  that it takes, from any place in a number on, and `foldl_push_of_done` says that it takes none
  once it is done.
* `Fits` is what every accumulator keeps.  `push_value_eq_or`: the seven bits that a byte adds lie
  above those that are there.
-/

namespace CarSlice.Varint

/-! ## Numbers that were written -/

/-- A number that needs more bytes than there is room for has no end in them. -/
theorem decodeWithin_encode_overlong {room n : Nat} (h : 128 ^ room ≤ n) (rest : Bytes) :
    decodeWithin room (encode n ++ rest) = .error .overlong := by
  induction room generalizing n with
  | zero => rfl
  | succ room ih =>
    rw [Nat.pow_succ] at h
    have hpos : 0 < 128 ^ room := Nat.pow_pos (by decide)
    have hmore : ¬n < 128 := by omega
    have hbyte : ¬UInt8.ofNat (n % 128 + 128) < 128 := by
      rw [ofNat_lt_iff (by omega)]
      omega
    have hrest := ih (n := n / 128) (by omega)
    rw [encode, if_neg hmore, List.cons_append, decodeWithin, if_neg hbyte, hrest]
    rfl

/-! ## Numbers by their bytes -/

/-- What bytes spell is not written with more bytes than these. -/
theorem size_spelled_le {bytes : Bytes} (hne : bytes ≠ []) :
    size (spelled bytes) ≤ bytes.length := by
  induction bytes with
  | nil => exact absurd rfl hne
  | cons b bytes ih =>
    have hlow := lowBits_lt b
    have hcons : spelled (b :: bytes) = lowBits b + 128 * spelled bytes := rfl
    rw [size, List.length_cons]
    split_ifs with hlast
    · omega
    · have hdiv : spelled (b :: bytes) / 128 = spelled bytes := by omega
      have hbytes : bytes ≠ [] := by
        rintro rfl
        have hnil : spelled [] = 0 := rfl
        omega
      rw [hdiv]
      exact Nat.succ_le_succ (ih hbytes)

/-- No shorter bytes are read as a number than those that are written for it. -/
theorem size_le_of_decode {src : Bytes} {r : Reading} (h : decode src = .ok r) :
    size r.value ≤ src.length := by
  obtain ⟨more, last, -, -, -, hsrc, -, hvalue⟩ := decodeWithin_eq_ok_iff.1 h
  calc size r.value ≤ (more ++ [last]).length := by
        rw [hvalue]
        exact size_spelled_le (by simp)
    _ ≤ src.length := by
        rw [hsrc.trans (List.append_cons ..)]
        exact (List.sublist_append_left ..).length_le

/-- The number that bytes spell is the sum of their low bits, each at its place. -/
theorem spelled_eq_sum (bytes : Bytes) :
    spelled bytes = (bytes.mapIdx fun i b => b.toNat % 128 * 128 ^ i).sum := by
  have hdigits : spelled bytes = Nat.ofDigits 128 (bytes.map lowBits) := by
    rw [Nat.ofDigits_eq_foldr, List.foldr_map]
    rfl
  rw [hdigits, Nat.ofDigits_eq_sum_mapIdx]
  exact congrArg List.sum (List.ext_getElem (by simp) (by simp [lowBits]))

/-- A number that was read has its last byte where the first byte below 128 is. -/
theorem reading_of_decode {src : Bytes} {r : Reading} (h : decode src = .ok r) :
    r.length = src.findIdx (· < 128) + 1 ∧ r.rest = src.drop r.length ∧
      r.value = ((src.take r.length).mapIdx fun i b => b.toNat % 128 * 128 ^ i).sum := by
  obtain ⟨more, last, hmore, hlast, -, hsrc, hlength, hvalue⟩ := decodeWithin_eq_ok_iff.1 h
  have hsplit : src = (more ++ [last]) ++ r.rest := hsrc.trans (List.append_cons ..)
  have hfront : r.length = (more ++ [last]).length := by rw [hlength, List.length_append]; rfl
  have hindex : src.findIdx (· < 128) = more.length := by rw [hsrc]; exact findIdx_last hmore hlast
  refine ⟨by rw [hindex, hlength], ?_, ?_⟩
  · rw [hsplit, hfront, List.drop_left]
  · rw [← spelled_eq_sum, hvalue, hfront, hsplit, List.take_left]

/-- A number is read exactly if a byte below 128 stands where there is room for it. -/
theorem exists_decode_iff {src : Bytes} :
    (∃ r, decode src = .ok r) ↔ ∃ b ∈ src.take maxLength, b < 128 := by
  constructor
  · rintro ⟨r, h⟩
    obtain ⟨more, last, -, hlast, hroom, hsrc, -⟩ := decodeWithin_eq_ok_iff.1 h
    refine ⟨last, ?_, hlast⟩
    rw [hsrc, List.take_append, List.take_of_length_le (Nat.le_of_lt hroom), List.mem_append]
    refine Or.inr ?_
    obtain ⟨room, hroom⟩ := Nat.exists_eq_succ_of_ne_zero (Nat.sub_ne_zero_of_lt hroom)
    rw [hroom]
    exact List.mem_cons_self
  · rintro ⟨b, hmem, hb⟩
    cases hdecode : decode src with
    | ok r => exact ⟨r, rfl⟩
    | error fault =>
      have hmore : ∀ b ∈ src.take maxLength, 128 ≤ b := by
        cases fault with
        | truncated =>
          exact fun b hb => (decodeWithin_eq_truncated_iff.1 hdecode).2 b (List.mem_of_mem_take hb)
        | overlong => exact (decodeWithin_eq_overlong_iff.1 hdecode).2
      exact absurd hb (UInt8.not_lt.2 (hmore b hmem))

/-! ## A byte at a time -/

namespace Accumulator

/-- What an accumulator has to say of the bytes that it took, if there are no more: the value and
the length of a number, or why there is none. -/
def verdict (acc : Accumulator) : Except Fault (Nat × Nat) :=
  match acc.status with
  | .complete => .ok (acc.value, acc.length)
  | .overlong => .error .overlong
  | .needMore => .error .truncated

/-- Once a number is complete or overlong, further bytes are ignored. -/
theorem foldl_push_of_done {acc : Accumulator} (h : acc.status ≠ .needMore) (bytes : Bytes) :
    bytes.foldl push acc = acc := by
  have hdeaf (b : UInt8) : acc.push b = acc := by
    unfold push
    split
    · rfl
    · rfl
    · next hstatus => exact absurd hstatus h
  induction bytes with
  | nil => rfl
  | cons b bytes ih => rw [List.foldl_cons, hdeaf, ih]

theorem length_push {acc : Accumulator} {b : UInt8} (hstatus : acc.status = .needMore)
    (hroom : acc.length < maxLength) : (acc.push b).length = acc.length + 1 := by
  have hfull : ¬maxLength ≤ acc.length := Nat.not_le.2 hroom
  simp [push, hstatus, hfull]

/-- An accumulator that stands anywhere in a number says of the bytes to come what is read from them
in the room that is left, put behind what it has. -/
theorem verdict_foldl_push {room : Nat} {acc : Accumulator} (hstatus : acc.status = .needMore)
    (hroom : acc.length + (room + 1) = maxLength) (src : Bytes) :
    (src.foldl push acc).verdict = (decodeWithin (room + 1) src).map fun r =>
      (acc.value + r.value <<< (7 * acc.length), acc.length + r.length) := by
  induction src generalizing room acc with
  | nil => simp [verdict, hstatus, decodeWithin, Except.map]
  | cons b src ih =>
    rw [List.foldl_cons]
    by_cases hb : b < 128
    · obtain ⟨hcomplete, hvalue⟩ := push_last hstatus (by omega) hb
      have hlength := length_push (b := b) hstatus (by omega)
      rw [foldl_push_of_done (by rw [hcomplete]; decide), decodeWithin, if_pos hb]
      simp only [verdict, hcomplete, hvalue, hlength, Except.map]
    · rw [decodeWithin, if_neg hb]
      -- This byte says that more is to come.  In the last place both sides give up on it.
      cases room with
      | zero =>
        have hoverlong := push_overlong hstatus hroom hb
        rw [foldl_push_of_done (by rw [hoverlong]; decide)]
        simp only [verdict, hoverlong, decodeWithin, Except.map]
      | succ room =>
        obtain ⟨hneed, hlength, hvalue⟩ := push_more hstatus (by omega) hb
        rw [ih hneed (by omega : (acc.push b).length + (room + 1) = maxLength), hlength, hvalue]
        cases decodeWithin (room + 1) src with
        | error fault => rfl
        | ok r =>
          simp only [Except.map, Except.ok.injEq, Prod.mk.injEq]
          refine ⟨by rw [Nat.add_assoc, shift_after], ?_⟩
          rw [Reading.after, Nat.add_assoc, Nat.add_comm 1]

/-- From the beginning on, an accumulator says what is read from the whole. -/
theorem verdict_foldl_push_reset (acc : Accumulator) (src : Bytes) :
    (src.foldl push acc.reset).verdict = (decode src).map fun r => (r.value, r.length) := by
  have hfresh : acc.reset.length + (8 + 1) = maxLength := rfl
  rw [verdict_foldl_push rfl hfresh]
  refine congrArg (fun f => (decode src).map f) (funext fun r => ?_)
  simp [reset]

/-- An accumulator has taken no more bytes than a number may have, and one less if it wants more.
Their bits fill the low places of the value only, seven for each byte. -/
structure Fits (acc : Accumulator) : Prop where
  value : acc.value < 2 ^ (7 * acc.length)
  length : acc.length ≤ maxLength
  room : acc.status = .needMore → acc.length < maxLength

theorem fits_push {acc : Accumulator} (h : acc.Fits) (b : UInt8) : (acc.push b).Fits := by
  cases hstatus : acc.status with
  | complete => simpa [push, hstatus] using h
  | overlong => simpa [push, hstatus] using h
  | needMore =>
    have hroom := h.room hstatus
    have hfull : ¬maxLength ≤ acc.length := Nat.not_le.2 hroom
    have hlow := lowBits_lt b
    have hvalue : acc.value + lowBits b <<< (7 * acc.length) < 2 ^ (7 * (acc.length + 1)) := by
      calc acc.value + lowBits b <<< (7 * acc.length)
          < 2 ^ (7 * acc.length) + lowBits b * 2 ^ (7 * acc.length) := by
            rw [Nat.shiftLeft_eq]
            exact Nat.add_lt_add_right h.value _
        _ = (lowBits b + 1) * 2 ^ (7 * acc.length) := by rw [Nat.add_mul, Nat.one_mul, Nat.add_comm]
        _ ≤ 128 * 2 ^ (7 * acc.length) := Nat.mul_le_mul_right _ hlow
        _ = 2 ^ (7 * (acc.length + 1)) := by rw [Nat.mul_add, Nat.pow_add, Nat.mul_comm]
    simp only [push, hstatus, hfull, if_false]
    refine ⟨hvalue, hroom, fun hneed => ?_⟩
    dsimp only at hneed ⊢
    split_ifs at hneed with hb hlast
    omega

theorem fits_foldl_push {acc : Accumulator} (h : acc.Fits) (bytes : Bytes) :
    (bytes.foldl push acc).Fits := by
  induction bytes generalizing acc with
  | nil => exact h
  | cons b bytes ih => exact ih (fits_push h b)

theorem fits_reset (acc : Accumulator) : acc.reset.Fits :=
  show Fits {} from ⟨by decide, by decide, fun _ => by decide⟩

/-- The value of an accumulator fits a word, with a bit to spare. -/
theorem Fits.value_lt {acc : Accumulator} (h : acc.Fits) : acc.value < 2 ^ 63 := by
  refine Nat.lt_of_lt_of_le h.value (Nat.pow_le_pow_right (by decide) ?_)
  have hlength := h.length
  have hmax : maxLength = 9 := rfl
  omega

/-- The bits of a byte meet none of those that are there, so that adding them is joining them. -/
theorem push_value_eq_or {acc : Accumulator} (h : acc.Fits) (hstatus : acc.status = .needMore)
    (b : UInt8) : (acc.push b).value = acc.value ||| lowBits b <<< (7 * acc.length) := by
  have hfull : ¬maxLength ≤ acc.length := Nat.not_le.2 (h.room hstatus)
  rw [Nat.or_comm, ← Nat.shiftLeft_add_eq_or_of_lt h.value, Nat.add_comm]
  simp [push, hstatus, hfull]

end Accumulator

/-! ## Agreement -/

/-- The functions agree on the whole format.  A number below `2 ^ 63` is read back from what was
written, whatever follows, and no shorter bytes are read as it; any other number that was written is
overlong.  Whether bytes are a number is said by the first of them below 128: it stands among the
first nine, or nine go by without one, or fewer end without one.  The value is the sum over the
bytes up to it, and fits a word.  An accumulator that was reset comes to the same a byte at a time,
and the bits that it adds meet none that are there and stay in the word.  Once it is done it takes
no more. -/
theorem readers_agree_with_writer :
    (∀ n < 2 ^ 63,
      (∀ rest, decode (encode n ++ rest) = .ok { value := n, length := size n, rest := rest }) ∧
        ∀ src r, decode src = .ok r → r.value = n → size n ≤ src.length) ∧
    (∀ n, 2 ^ 63 ≤ n → ∀ rest, decode (encode n ++ rest) = .error .overlong) ∧
    (∀ src : Bytes,
      ((∃ r, decode src = .ok r) ↔ ∃ b ∈ src.take 9, b < 128) ∧
        (∀ r, decode src = .ok r →
          r.length = src.findIdx (· < 128) + 1 ∧ r.rest = src.drop r.length ∧
            r.value = ((src.take r.length).mapIdx fun i b => b.toNat % 128 * 128 ^ i).sum ∧
            r.value < 2 ^ 63) ∧
        (decode src = .error .overlong ↔ 9 ≤ src.length ∧ ∀ b ∈ src.take 9, 128 ≤ b) ∧
        (decode src = .error .truncated ↔ src.length ≤ 8 ∧ ∀ b ∈ src, 128 ≤ b)) ∧
    (∀ (acc : Accumulator) (src : Bytes),
      let fed := src.foldl Accumulator.push acc.reset
      fed.verdict = (decode src).map (fun r => (r.value, r.length)) ∧
        ∀ b, fed.status = .needMore →
          (fed.push b).value = fed.value ||| lowBits b <<< (7 * fed.length) ∧
            (fed.push b).value < 2 ^ 63) ∧
    ∀ (acc : Accumulator) (src : Bytes), acc.status ≠ .needMore →
      src.foldl Accumulator.push acc = acc := by
  refine ⟨fun n hn => ⟨decode_encode hn, ?_⟩, fun n hn rest => ?_, fun src => ⟨?_, ?_, ?_, ?_⟩,
    fun acc src => ⟨?_, ?_⟩, fun acc src hdone => Accumulator.foldl_push_of_done hdone src⟩
  · rintro src r hr rfl
    exact size_le_of_decode hr
  · have hroom : 128 ^ maxLength ≤ n := hn
    exact decodeWithin_encode_overlong hroom rest
  · exact exists_decode_iff
  · intro r hr
    obtain ⟨hlength, hrest, hvalue⟩ := reading_of_decode hr
    exact ⟨hlength, hrest, hvalue, decodeWithin_value_lt hr⟩
  · exact decodeWithin_eq_overlong_iff
  · rw [← Nat.lt_succ_iff]
    exact decodeWithin_eq_truncated_iff
  · exact Accumulator.verdict_foldl_push_reset acc src
  · intro b hstatus
    have hfits := Accumulator.fits_foldl_push (Accumulator.fits_reset acc) src
    exact ⟨Accumulator.push_value_eq_or hfits hstatus b, (Accumulator.fits_push hfits b).value_lt⟩

end CarSlice.Varint
