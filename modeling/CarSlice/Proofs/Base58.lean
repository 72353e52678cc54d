import CarSlice.Base58
import Mathlib.Data.List.DropRight
import Mathlib.Data.Nat.Digits.Lemmas

/-!
# Base 58 is exact

The row of digits that `encode` sets aside is long enough for every input, so that no carry is lost,
and a digit times 256 and a carry fit a word of 32 bits.  The text of a byte string is therefore
the letter for zero, once for each zero byte in front, and behind it the base 58 digits of the
number that the other bytes spell (`encode_eq`).

* `value` is the number of a row of digits, and `IsRow` says what every row is: a multiplication
  may stop where it does because there are only zeros behind.  `multiplyAdd_value` says what a
  multiplication does to the number, up to the carry that is lost, and `push_value` that none is
  lost while there is room.  `ofBytes_value` is the induction over the bytes.
* `turns` lists what the turns of a multiplication start from, and `multiplyAdd_eq` says that it
  lists all of them.  `turns_small` is what keeps their sums in the word.
* `pow_lt_pow_places`: the row has places enough.
* `encode_exact` puts text, carries and words together.
* `encode_injective`: no two byte strings have one text.  `head?_spell` is the first letter of a
  number between two multiples of a power of 58.
-/

namespace CarSlice

/-! ## Big-endian numbers -/

theorem foldl_eq_ofDigits (bytes : Bytes) (value : Nat) :
    bytes.foldl (fun value b => 256 * value + b.toNat) value =
      Nat.ofDigits 256 (bytes.reverse.map UInt8.toNat) + 256 ^ bytes.length * value := by
  induction bytes generalizing value with
  | nil => simp
  | cons b bytes ih =>
    rw [List.foldl_cons, ih, List.reverse_cons, List.map_append, Nat.ofDigits_append,
      List.length_map, List.length_reverse, List.length_cons, Nat.pow_succ]
    simp only [List.map_cons, List.map_nil, Nat.ofDigits_singleton]
    ring

theorem bigEndianValue_eq_ofDigits (bytes : Bytes) :
    bigEndianValue bytes = Nat.ofDigits 256 (bytes.reverse.map UInt8.toNat) :=
  foldl_eq_ofDigits bytes 0

theorem bigEndianValue_append (front rest : Bytes) :
    bigEndianValue (front ++ rest) =
      bigEndianValue rest + 256 ^ rest.length * bigEndianValue front := by
  rw [bigEndianValue, List.foldl_append, foldl_eq_ofDigits, ← bigEndianValue_eq_ofDigits]
  rfl

theorem bigEndianValue_concat (bytes : Bytes) (b : UInt8) :
    bigEndianValue (bytes ++ [b]) = 256 * bigEndianValue bytes + b.toNat := by
  rw [bigEndianValue, List.foldl_append]
  rfl

theorem bigEndianValue_lt (bytes : Bytes) : bigEndianValue bytes < 256 ^ bytes.length := by
  have hlt : ∀ digit ∈ bytes.reverse.map UInt8.toNat, digit < 256 := by
    intro digit hdigit
    obtain ⟨b, _, rfl⟩ := List.mem_map.1 hdigit
    exact b.toNat_lt
  have hvalue := Nat.ofDigits_lt_base_pow_length (by decide) hlt
  rwa [List.length_map, List.length_reverse, ← bigEndianValue_eq_ofDigits] at hvalue

namespace Base58

/-! ## Rows of digits -/

/-- The number of a row of digits, least significant first. -/
def value (digits : List UInt8) : Nat :=
  Nat.ofDigits 58 (digits.map UInt8.toNat)

/-- A row of digits in a number of places, with zeros behind those that are in use. -/
structure IsRow (places used : Nat) (digits : List UInt8) : Prop where
  length : digits.length = places
  digit : ∀ digit ∈ digits, digit.toNat < 58
  zeros : ∀ digit ∈ digits.drop used, digit = 0

@[simp] theorem value_cons (digit : UInt8) (digits : List UInt8) :
    value (digit :: digits) = digit.toNat + 58 * value digits := by
  rw [value, List.map_cons, Nat.ofDigits_cons]
  rfl

theorem value_eq_zero {digits : List UInt8} (h : ∀ digit ∈ digits, digit = 0) :
    value digits = 0 := by
  rw [List.eq_replicate_of_mem h, value, List.map_replicate]
  exact Nat.ofDigits_replicate_zero ..

/-- The places behind the first are in use as far as they were with it. -/
theorem drop_pred_eq_zero {used : Nat} {digit : UInt8} {digits : List UInt8}
    (h : ∀ d ∈ (digit :: digits).drop used, d = 0) : ∀ d ∈ digits.drop (used - 1), d = 0 := by
  cases used with
  | zero => exact (List.forall_mem_cons.1 h).2
  | succ used => exact h

/-- A digit times 256 and a carry fit a word. -/
theorem toNat_total {carry : UInt32} {digit : UInt8} (hcarry : carry.toNat < 256)
    (hdigit : digit.toNat < 58) :
    (carry + 256 * digit.toUInt32).toNat = carry.toNat + 256 * digit.toNat := by
  have hmul : (256 * digit.toUInt32).toNat = 256 * digit.toNat := by
    rw [UInt32.toNat_mul, UInt8.toNat_toUInt32]
    exact Nat.mod_eq_of_lt (by show 256 * digit.toNat < _; omega)
  rw [UInt32.toNat_add, hmul]
  exact Nat.mod_eq_of_lt (by omega)

/-- The carry stays below 256. -/
theorem toNat_carry_lt {carry : UInt32} {digit : UInt8} (hcarry : carry.toNat < 256)
    (hdigit : digit.toNat < 58) : ((carry + 256 * digit.toUInt32) / 58).toNat < 256 := by
  rw [UInt32.toNat_div, toNat_total hcarry hdigit]
  show (carry.toNat + 256 * digit.toNat) / 58 < 256
  omega

/-- The digits are multiplied by 256 and a byte is added, up to the carry that is lost. -/
theorem multiplyAdd_value {places used : Nat} {digits : List UInt8} {carry : UInt32}
    (hrow : IsRow places used digits) (hcarry : carry.toNat < 256) :
    IsRow places (multiplyAdd carry used digits).used (multiplyAdd carry used digits).digits ∧
      value (multiplyAdd carry used digits).digits +
          58 ^ places * (multiplyAdd carry used digits).carry.toNat =
        carry.toNat + 256 * value digits := by
  induction digits generalizing places used carry with
  | nil =>
    obtain ⟨rfl⟩ := hrow.length
    exact ⟨⟨rfl, by simp [multiplyAdd], by simp [multiplyAdd]⟩, by simp [multiplyAdd, value]⟩
  | cons digit digits ih =>
    by_cases hstop : carry = 0 ∧ used = 0
    · -- Nothing is in use and nothing is carried: the row holds zero, and stays as it is.
      obtain ⟨rfl, rfl⟩ := hstop
      have hzero : value (digit :: digits) = 0 := value_eq_zero hrow.zeros
      rw [multiplyAdd, if_pos ⟨rfl, rfl⟩]
      exact ⟨hrow, by simp [hzero]⟩
    · obtain ⟨hdigit, hdigits⟩ := List.forall_mem_cons.1 hrow.digit
      obtain ⟨rfl⟩ := hrow.length
      have htotal := toNat_total hcarry hdigit
      have hless := toNat_carry_lt hcarry hdigit
      rw [multiplyAdd, if_neg hstop]
      generalize carry + 256 * digit.toUInt32 = total at htotal hless
      have hlow : (total % 58).toUInt8.toNat = total.toNat % 58 := by
        rw [UInt32.toNat_toUInt8, UInt32.toNat_mod]
        exact Nat.mod_eq_of_lt (Nat.lt_trans (Nat.mod_lt _ (by decide)) (by decide))
      have hhigh : (total / 58).toNat = total.toNat / 58 := UInt32.toNat_div ..
      obtain ⟨hrow', hvalue⟩ := ih ⟨rfl, hdigits, drop_pred_eq_zero hrow.zeros⟩ hless
      dsimp only
      generalize multiplyAdd (total / 58) (used - 1) digits = row at hrow' hvalue
      refine ⟨⟨?_, ?_, hrow'.zeros⟩, ?_⟩
      · rw [List.length_cons, List.length_cons, hrow'.length]
      · exact List.forall_mem_cons.2 ⟨by rw [hlow]; exact Nat.mod_lt _ (by decide), hrow'.digit⟩
      · rw [value_cons, value_cons, hlow, List.length_cons, Nat.pow_succ]
        rw [hhigh] at hvalue
        have hmod := Nat.mod_add_div total.toNat 58
        calc total.toNat % 58 + 58 * value row.digits + 58 ^ digits.length * 58 * row.carry.toNat
            = total.toNat % 58 + 58 * (value row.digits +
                58 ^ digits.length * row.carry.toNat) := by ring
          _ = total.toNat % 58 + 58 * (total.toNat / 58) + 58 * (256 * value digits) := by
              rw [hvalue]
              ring
          _ = carry.toNat + 256 * (digit.toNat + 58 * value digits) := by
              rw [hmod, htotal]
              ring

/-- As long as the number has places enough, nothing is lost. -/
theorem push_value {places : Nat} {row : Row} {b : UInt8} (hrow : IsRow places row.used row.digits)
    (hroom : 256 * value row.digits + b.toNat < 58 ^ places) :
    IsRow places (row.push b).used (row.push b).digits ∧ (row.push b).carry = 0 ∧
      value (row.push b).digits = 256 * value row.digits + b.toNat := by
  have hbyte : b.toUInt32.toNat = b.toNat := UInt8.toNat_toUInt32 b
  obtain ⟨hrow', hvalue⟩ := multiplyAdd_value hrow
    (by rw [hbyte]; exact b.toNat_lt : b.toUInt32.toNat < 256)
  rw [← Row.push, hbyte, Nat.add_comm b.toNat] at hvalue
  -- A carry out of the row would stand for more than all its places hold.
  have hnone : (row.push b).carry.toNat = 0 := by
    by_contra hlost
    have hle := Nat.le_mul_of_pos_right (58 ^ places) (Nat.pos_of_ne_zero hlost)
    omega
  rw [hnone, Nat.mul_zero, Nat.add_zero] at hvalue
  exact ⟨hrow', UInt32.toNat_inj.1 hnone, hvalue⟩

theorem Row.ofBytes_concat (places : Nat) (bytes : Bytes) (b : UInt8) :
    Row.ofBytes places (bytes ++ [b]) = (Row.ofBytes places bytes).push b := by
  rw [Row.ofBytes, List.foldl_append]
  rfl

/-- A row holds the number of the bytes that it took, as long as there are places enough. -/
theorem ofBytes_value {places : Nat} {bytes : Bytes} (hroom : bigEndianValue bytes < 58 ^ places) :
    IsRow places (Row.ofBytes places bytes).used (Row.ofBytes places bytes).digits ∧
      value (Row.ofBytes places bytes).digits = bigEndianValue bytes := by
  induction bytes using List.reverseRecOn with
  | nil =>
    have hzeros : ∀ digit ∈ List.replicate places (0 : UInt8), digit = 0 :=
      fun digit hdigit => List.eq_of_mem_replicate hdigit
    refine ⟨⟨List.length_replicate, fun digit hdigit => ?_, fun digit hdigit => ?_⟩, ?_⟩
    · rw [hzeros digit hdigit]
      decide
    · exact hzeros digit (List.mem_of_mem_drop hdigit)
    · exact value_eq_zero hzeros
  | append_singleton bytes b ih =>
    rw [bigEndianValue_concat] at hroom ⊢
    rw [Row.ofBytes_concat]
    obtain ⟨hrow, hvalue⟩ := ih (by omega)
    rw [← hvalue] at hroom ⊢
    obtain ⟨hrow', -, hvalue'⟩ := push_value hrow hroom
    exact ⟨hrow', hvalue'⟩

/-! ## Turns -/

/-- The carry and the digit that each turn of a multiplication starts from. -/
def turns (carry : UInt32) (used : Nat) : List UInt8 → List (UInt32 × UInt8)
  | [] => []
  | digit :: digits =>
    if carry = 0 ∧ used = 0 then []
    else (carry, digit) :: turns ((carry + 256 * digit.toUInt32) / 58) (used - 1) digits

/-- A multiplication writes a digit in each turn and leaves the digits behind them. -/
theorem multiplyAdd_eq (carry : UInt32) (used : Nat) (digits : List UInt8) :
    (multiplyAdd carry used digits).used = (turns carry used digits).length ∧
      (multiplyAdd carry used digits).digits =
        (turns carry used digits).map
            (fun turn => ((turn.1 + 256 * turn.2.toUInt32) % 58).toUInt8) ++
          digits.drop (turns carry used digits).length := by
  induction digits generalizing carry used with
  | nil => exact ⟨rfl, rfl⟩
  | cons digit digits ih =>
    rw [multiplyAdd, turns]
    split_ifs with hstop
    · exact ⟨rfl, rfl⟩
    · obtain ⟨hused, hdigits⟩ := ih ((carry + 256 * digit.toUInt32) / 58) (used - 1)
      exact ⟨congrArg (· + 1) hused, congrArg (_ :: ·) hdigits⟩

theorem turns_small {carry : UInt32} {used : Nat} {digits : List UInt8}
    (hcarry : carry.toNat < 256) (hdigits : ∀ digit ∈ digits, digit.toNat < 58) :
    ∀ turn ∈ turns carry used digits, turn.1.toNat < 256 ∧ turn.2.toNat < 58 := by
  induction digits generalizing carry used with
  | nil => simp [turns]
  | cons digit digits ih =>
    obtain ⟨hdigit, hdigits⟩ := List.forall_mem_cons.1 hdigits
    rw [turns]
    split_ifs with hstop
    · simp
    · exact List.forall_mem_cons.2
        ⟨⟨hcarry, hdigit⟩, ih (toNat_carry_lt hcarry hdigit) hdigits⟩

/-! ## Places -/

/-- There are places enough for the digits of any number of bytes. -/
theorem pow_lt_pow_places (n : Nat) : 256 ^ n < 58 ^ places n := by
  have hsmall : ∀ r < 100, 256 ^ r < 58 ^ (r * 138 / 100 + 1) := by decide +kernel
  have hhundred : 256 ^ 100 ≤ 58 ^ 138 := by decide +kernel
  have hplaces : places n = 138 * (n / 100) + (n % 100 * 138 / 100 + 1) := by
    rw [places]
    omega
  calc 256 ^ n = (256 ^ 100) ^ (n / 100) * 256 ^ (n % 100) := by
        rw [← Nat.pow_mul, ← Nat.pow_add, Nat.div_add_mod]
    _ ≤ (58 ^ 138) ^ (n / 100) * 256 ^ (n % 100) :=
        Nat.mul_le_mul_right _ (Nat.pow_le_pow_left hhundred _)
    _ < (58 ^ 138) ^ (n / 100) * 58 ^ (n % 100 * 138 / 100 + 1) :=
        Nat.mul_lt_mul_of_pos_left (hsmall _ (Nat.mod_lt _ (by decide)))
          (Nat.pow_pos (Nat.pow_pos (by decide)))
    _ = 58 ^ places n := by rw [← Nat.pow_mul, ← Nat.pow_add, hplaces]

/-- There are places enough for the number of a byte string, and for that of each of its front
parts. -/
theorem bigEndianValue_front_lt {bytes front rest : Bytes} (h : bytes = front ++ rest) :
    bigEndianValue front < 58 ^ places bytes.length := by
  have hfront := Nat.lt_trans (bigEndianValue_lt front) (pow_lt_pow_places front.length)
  refine Nat.lt_of_lt_of_le hfront (Nat.pow_le_pow_right (by decide) ?_)
  have hlength : front.length ≤ bytes.length := by
    rw [h, List.length_append]
    omega
  rw [places, places]
  omega

/-! ## Letters -/

/-- The letters for a number, most significant digit first and without leading zeros. -/
def spell (n : Nat) : Text :=
  (Nat.digits 58 n).reverse.map fun digit => letter (UInt8.ofNat digit)

/-- The zeros in front are as many as there are, and the others follow. -/
theorem zeros_append_dropWhile (row : List UInt8) :
    List.replicate (row.takeWhile (· == 0)).length 0 ++ row.dropWhile (· == 0) = row := by
  have hzeros : ∀ digit ∈ row.takeWhile (· == 0), digit = 0 := fun digit hmem =>
    by simpa using List.mem_takeWhile_imp hmem
  rw [← List.eq_replicate_of_mem hzeros, List.takeWhile_append_dropWhile]

/-- The digits of a number without the zeros at their end are those that a row of them has without
the zeros in front, when it is read from its end. -/
theorem map_dropWhile_zero {base : Nat} (hbase : 1 < base) {row : List UInt8}
    (hdigit : ∀ digit ∈ row, digit.toNat < base) :
    (row.dropWhile (· == 0)).map UInt8.toNat =
      (Nat.digits base (Nat.ofDigits base (row.reverse.map UInt8.toNat))).reverse := by
  have hsplit := zeros_append_dropWhile row
  have hhead := List.head?_dropWhile_not (· == 0) row
  generalize row.dropWhile (· == 0) = top at hsplit hhead
  have hvalue : Nat.ofDigits base (row.reverse.map UInt8.toNat) =
      Nat.ofDigits base (top.map UInt8.toNat).reverse := by
    rw [← hsplit, List.reverse_append, List.map_append, List.reverse_replicate, List.map_replicate,
      List.map_reverse]
    exact Nat.ofDigits_append_replicate_zero _
  have hlast : ∀ h : (top.map UInt8.toNat).reverse ≠ [],
      (top.map UInt8.toNat).reverse.getLast h ≠ 0 := by
    intro h
    cases top with
    | nil => exact absurd rfl h
    | cons digit top =>
      have hdigit : (digit == 0) = false := hhead
      simp only [List.map_cons, List.reverse_cons, List.getLast_concat]
      intro hzero
      rw [show digit = 0 from UInt8.toNat_inj.1 hzero] at hdigit
      cases hdigit
  have hlt : ∀ digit ∈ (top.map UInt8.toNat).reverse, digit < base := by
    intro digit hmem
    obtain ⟨b, hb, rfl⟩ := List.mem_map.1 (List.mem_reverse.1 hmem)
    refine hdigit b ?_
    rw [← hsplit]
    exact List.mem_append_right _ hb
  rw [hvalue, Nat.digits_ofDigits base hbase _ hlt hlast, List.reverse_reverse]

/-- The text of a byte string. -/
theorem encode_eq (bytes : Bytes) :
    encode bytes = List.replicate (bytes.takeWhile (· == 0)).length (letter 0) ++
      spell (bigEndianValue (bytes.dropWhile (· == 0))) := by
  obtain ⟨hrow, hvalue⟩ := ofBytes_value
    (bigEndianValue_front_lt (List.append_nil (bytes.dropWhile (· == 0))).symm)
  have htop := map_dropWhile_zero (by decide : 1 < 58) fun digit hmem =>
    hrow.digit digit (List.mem_reverse.1 hmem)
  rw [List.reverse_reverse, ← value, hvalue] at htop
  rw [encode, spell, ← htop, List.map_map]
  refine congrArg (_ ++ ·) (List.map_congr_left fun digit _ => ?_)
  rw [Function.comp_apply, UInt8.ofNat_toNat]

/-- Base 58 is exact.  The text is the letter for zero, once for each zero byte in front, and then
the digits of the number that the other bytes spell.  No byte that is taken in carries anything out
of the row, and no sum in the turns that this takes leaves its word. -/
theorem encode_exact (bytes : Bytes) :
    let zeros := bytes.takeWhile (· == 0)
    let rest := bytes.dropWhile (· == 0)
    encode bytes =
        List.replicate zeros.length (ascii '1') ++
          (Nat.digits 58 (bigEndianValue rest)).reverse.map
            (fun digit => letter (UInt8.ofNat digit)) ∧
      ∀ front b back, rest = front ++ b :: back →
        let row := Row.ofBytes (places rest.length) front
        let steps := turns b.toUInt32 row.used row.digits
        (row.push b).carry = 0 ∧ (row.push b).used = steps.length ∧
          ∀ turn ∈ steps, turn.1.toNat + 256 * turn.2.toNat < 2 ^ 32 := by
  refine ⟨encode_eq bytes, fun front b back hsplit => ?_⟩
  have hnext := bigEndianValue_front_lt (hsplit.trans (List.append_cons ..))
  obtain ⟨hrow, hvalue⟩ := ofBytes_value (bigEndianValue_front_lt hsplit)
  rw [bigEndianValue_concat, ← hvalue] at hnext
  have hbyte : b.toUInt32.toNat < 256 := by
    rw [UInt8.toNat_toUInt32]
    exact b.toNat_lt
  refine ⟨(push_value hrow hnext).2.1, (multiplyAdd_eq ..).1, fun turn hturn => ?_⟩
  obtain ⟨hcarry, hdigit⟩ := turns_small hbyte hrow.digit turn hturn
  omega

/-- Two zero bytes in front, and 255 as four times 58 and 23. -/
example : encode [0, 0, 0xFF] = utf8 "115Q" := by decide

/-! ## No two byte strings have one text -/

theorem idxOf_letter {digit : Nat} (h : digit < 58) :
    alphabet.idxOf (letter (UInt8.ofNat digit)) = digit := by
  have hall : ∀ digit < 58, alphabet.idxOf (letter (UInt8.ofNat digit)) = digit := by
    decide +kernel
  exact hall digit h

theorem map_idxOf_spell (n : Nat) :
    (spell n).map (fun c => alphabet.idxOf c) = (Nat.digits 58 n).reverse := by
  rw [spell, List.map_map]
  refine (List.map_congr_left fun digit hmem => ?_).trans (List.map_id _)
  exact idxOf_letter (Nat.digits_lt_base (by decide) (List.mem_reverse.1 hmem))

theorem spell_injective : Function.Injective spell := by
  intro m n h
  have hdigits := map_idxOf_spell m
  rw [h, map_idxOf_spell] at hdigits
  exact (Nat.digits_inj_iff.1 (List.reverse_injective hdigits)).symm

/-- The first letter of a number is not that for zero. -/
theorem head?_spell_ne (n : Nat) : (spell n).head? ≠ some (letter 0) := by
  intro h
  have hfirst : (Nat.digits 58 n).reverse.head? = some 0 := by
    rw [← map_idxOf_spell, List.head?_map, h]
    exact congrArg some (idxOf_letter (by decide))
  rw [List.head?_reverse, List.getLast?_eq_some_iff] at hfirst
  obtain ⟨front, hfront⟩ := hfirst
  have hne : n ≠ 0 := by
    rintro rfl
    simp at hfront
  refine Nat.getLast_digit_ne_zero 58 hne ?_
  simp only [hfront, List.getLast_concat]

/-- The first letter of a number that lies between two multiples of a power of 58. -/
theorem head?_spell {digit k n : Nat} (hpos : 0 < digit) (hdigit : digit < 58)
    (hle : digit * 58 ^ k ≤ n) (hlt : n < (digit + 1) * 58 ^ k) :
    (spell n).head? = some (letter (UInt8.ofNat digit)) := by
  obtain ⟨low, rfl⟩ := Nat.exists_eq_add_of_le' hle
  have hlow : low < 58 ^ k := by
    rw [Nat.add_mul, Nat.one_mul] at hlt
    omega
  have hvalue : Nat.ofDigits 58 (Nat.digitsAppend 58 k low ++ [digit]) =
      low + digit * 58 ^ k := by
    rw [Nat.ofDigits_append, Nat.length_digitsAppend (by decide) k hlow, Nat.ofDigits_singleton,
      Nat.digitsAppend, Nat.ofDigits_append_replicate_zero, Nat.ofDigits_digits, Nat.mul_comm]
  have hdigits : Nat.digits 58 (low + digit * 58 ^ k) =
      Nat.digitsAppend 58 k low ++ [digit] := by
    rw [← hvalue]
    refine Nat.digits_ofDigits 58 (by decide) _ (fun d hmem => ?_) fun _ => ?_
    · rcases List.mem_append.1 hmem with hmem | hmem
      · exact Nat.lt_of_mem_digitsAppend (by decide) k d hmem
      · rwa [List.mem_singleton.1 hmem]
    · rw [List.getLast_concat]
      exact Nat.ne_of_gt hpos
  rw [spell, hdigits, List.reverse_append]
  rfl

theorem replicate_append_inj {c : UInt8} {m n : Nat} {s t : Text} (hs : s.head? ≠ some c)
    (ht : t.head? ≠ some c) (h : List.replicate m c ++ s = List.replicate n c ++ t) :
    m = n ∧ s = t := by
  induction m generalizing n with
  | zero =>
    cases n with
    | zero => exact ⟨rfl, h⟩
    | succ n =>
      rw [show s = _ from h] at hs
      exact absurd rfl hs
  | succ m ih =>
    cases n with
    | zero =>
      rw [show t = _ from h.symm] at ht
      exact absurd rfl ht
    | succ n =>
      obtain ⟨rfl, rfl⟩ := ih (List.cons.inj h).2
      exact ⟨rfl, rfl⟩

/-- The bytes behind the zeros are told by their number. -/
theorem dropWhile_eq_of_bigEndianValue_eq {a b : Bytes}
    (h : bigEndianValue (a.dropWhile (· == 0)) = bigEndianValue (b.dropWhile (· == 0))) :
    a.dropWhile (· == 0) = b.dropWhile (· == 0) := by
  have hbytes (bytes : Bytes) : (bytes.dropWhile (· == 0)).map UInt8.toNat =
      (Nat.digits 256 (bigEndianValue (bytes.dropWhile (· == 0)))).reverse := by
    rw [bigEndianValue_eq_ofDigits, ← map_dropWhile_zero (by decide) fun b _ => b.toNat_lt,
      List.dropWhile_idempotent]
  have hmap := hbytes a
  rw [h, ← hbytes b] at hmap
  exact List.map_injective_iff.2 (fun _ _ => UInt8.toNat_inj.1) hmap

/-- No two byte strings have one text. -/
theorem encode_injective : Function.Injective encode := by
  intro a b h
  rw [encode_eq, encode_eq] at h
  obtain ⟨hzeros, hspell⟩ := replicate_append_inj (head?_spell_ne _) (head?_spell_ne _) h
  have hrest := dropWhile_eq_of_bigEndianValue_eq (spell_injective hspell)
  rw [← zeros_append_dropWhile a, hzeros, hrest, zeros_append_dropWhile]

end Base58

end CarSlice
