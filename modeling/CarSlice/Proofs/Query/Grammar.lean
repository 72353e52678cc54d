import CarSlice.Proofs.Numerals
import CarSlice.Proofs.Query

/-!
# The grammar of range queries

What a query asks for is said here without a reader: how it comes apart into parameters, which of
them decides, and what the text of a range looks like behind any percent-encoding.

* `Cut` is a text up to the first separator with what follows it, and is used for the key of a
  parameter and for the start of a range.
* `Encodes` relates a text to its encodings, and `percentDecode?_eq_some_iff` says that these and no
  others are decoded.
* `SpellsRange` is the form `start:end`.  `Names`, `ParameterNames` and `Asks` say what a value, a
  range parameter and a row of parameters come to, errors included.  Each has its reader beside it
  (`rangeOfValue_eq_iff`, `rangeOfParameter_eq_iff`, `parseRange_eq_iff`).
* `parseRange_follows_grammar` is the whole.
-/

namespace CarSlice.Query

/-! ## The first separator -/

/-- A text up to its first separator, and what follows that, if there is one. -/
inductive Cut (separator : UInt8) : Text → Text → Option Text → Prop where
  | whole {s : Text} (h : separator ∉ s) : Cut separator s s none
  | parted {front : Text} (h : separator ∉ front) (back : Text) :
      Cut separator (front ++ separator :: back) front (some back)

section

variable {separator : UInt8} {s front : Text} {back : Option Text}

theorem exists_cut (separator : UInt8) (s : Text) : ∃ front back, Cut separator s front back := by
  by_cases hmem : separator ∈ s
  · obtain ⟨front, back, rfl, hfront⟩ := List.eq_append_cons_of_mem hmem
    exact ⟨front, some back, .parted hfront back⟩
  · exact ⟨s, none, .whole hmem⟩

theorem takeWhile_dropWhile_append (h : separator ∉ s) (rest : Text) :
    (s ++ rest).takeWhile (· != separator) = s ++ rest.takeWhile (· != separator) ∧
      (s ++ rest).dropWhile (· != separator) = rest.dropWhile (· != separator) := by
  have hall : ∀ c ∈ s, (c != separator) = true := fun c hc =>
    bne_iff_ne.2 fun heq => h (heq ▸ hc)
  exact ⟨List.takeWhile_append_of_pos hall, List.dropWhile_append_of_pos hall⟩

theorem Cut.takeWhile_eq (h : Cut separator s front back) :
    s.takeWhile (· != separator) = front := by
  cases h with
  | whole hmem => simpa using (takeWhile_dropWhile_append hmem []).1
  | parted hmem back => simpa using (takeWhile_dropWhile_append hmem (separator :: back)).1

theorem Cut.dropWhile_eq (h : Cut separator s front back) :
    s.dropWhile (· != separator) = (back.map (separator :: ·)).getD [] := by
  cases h with
  | whole hmem => simpa using (takeWhile_dropWhile_append hmem []).2
  | parted hmem back => simpa using (takeWhile_dropWhile_append hmem (separator :: back)).2

end

/-! ## Percent-encoding -/

/-- A hexadecimal digit of either case. -/
def IsHex (c : UInt8) (n : Nat) : Prop :=
  (utf8 "0123456789abcdef")[n]? = some c ∨ (utf8 "0123456789ABCDEF")[n]? = some c

instance (c : UInt8) (n : Nat) : Decidable (IsHex c n) :=
  inferInstanceAs (Decidable (_ ∨ _))

/-- A text and one of its encodings: any byte may stand as a percent sign and two hexadecimal
digits, and a percent sign must. -/
inductive Encodes : Text → Text → Prop where
  | nil : Encodes [] []
  | plain {b : UInt8} {s encoded : Text} (hb : b ≠ ascii '%') (h : Encodes s encoded) :
      Encodes (b :: s) (b :: encoded)
  | escaped {high low : UInt8} {m n : Nat} {s encoded : Text} (hhigh : IsHex high m)
      (hlow : IsHex low n) (h : Encodes s encoded) :
      Encodes (UInt8.ofNat (16 * m + n) :: s) (ascii '%' :: high :: low :: encoded)

theorem hexValue?_eq_some_iff {c : UInt8} {n : Nat} : hexValue? c = some n ↔ IsHex c n := by
  constructor
  · intro h
    have hall : ∀ k < 256, ∀ n ∈ hexValue? (UInt8.ofNat k), IsHex (UInt8.ofNat k) n := by
      decide +kernel
    have hc := hall c.toNat c.toNat_lt n
    rw [UInt8.ofNat_toNat] at hc
    exact hc h
  · intro h
    have hlt : n < 16 := by
      rcases h with h | h <;> exact (List.getElem?_eq_some_iff.1 h).1
    have hall : ∀ n < 16, (∀ c ∈ (utf8 "0123456789abcdef")[n]?, hexValue? c = some n) ∧
        ∀ c ∈ (utf8 "0123456789ABCDEF")[n]?, hexValue? c = some n := by
      decide +kernel
    rcases h with h | h
    · exact (hall n hlt).1 c h
    · exact (hall n hlt).2 c h

/-- A text is decoded exactly to what it is an encoding of. -/
theorem percentDecode?_eq_some_iff {s encoded : Text} :
    percentDecode? encoded = some s ↔ Encodes s encoded := by
  constructor
  · intro h
    fun_induction percentDecode? encoded generalizing s with
    | case1 =>
      cases h
      exact .nil
    | case2 high low rest m n hlow hhigh ih =>
      obtain ⟨s, hs, rfl⟩ := Option.map_eq_some_iff.1 h
      exact .escaped (hexValue?_eq_some_iff.1 hhigh) (hexValue?_eq_some_iff.1 hlow) (ih hs)
    | case3 => cases h
    | case4 => cases h
    | case5 b rest hb ih =>
      obtain ⟨s, hs, rfl⟩ := Option.map_eq_some_iff.1 h
      exact .plain hb (ih hs)
  · intro h
    induction h with
    | nil => rw [percentDecode?]
    | plain hb h ih => rw [percentDecode?.eq_def]; simp [hb, ih]
    | escaped hhigh hlow h ih =>
      rw [percentDecode?.eq_def]
      simp [hexValue?_eq_some_iff.2 hhigh, hexValue?_eq_some_iff.2 hlow, ih]

/-! ## Ranges -/

/-- Digits of a number that fits a word. -/
def IsOffset (n : Nat) (s : Text) : Prop :=
  IsNumeral n s ∧ n < 2 ^ 64

theorem number?_eq_some_iff_isOffset {n : Nat} {s : Text} : number? s = some n ↔ IsOffset n s :=
  number?_eq_some_iff

/-- The text of a range: two offsets with a colon between them, or one with a colon and a star. -/
inductive SpellsRange (value : Text) : Nat → Option Nat → Prop where
  | openEnded {start : Nat} {first : Text}
      (h : Cut (ascii ':') value first (some [ascii '*'])) (hstart : IsOffset start first) :
      SpellsRange value start none
  | bounded {start stop : Nat} {first last : Text} (h : Cut (ascii ':') value first (some last))
      (hstart : IsOffset start first) (hstop : IsOffset stop last) :
      SpellsRange value start (some stop)

/-- What a value comes to. -/
inductive Names (value : Text) : Except Error ByteRange → Prop where
  | range (range : ByteRange) (h : SpellsRange value range.start range.stop) :
      Names value (.ok range)
  | reversed {start stop : Nat} (h : SpellsRange value start (some stop)) (hlt : stop < start) :
      Names value (.error (.startAfterEnd start stop))
  | malformed (h : ∀ start stop, ¬SpellsRange value start stop) :
      Names value (.error (.rangeForm value))

theorem rangeOfValue_of_cut {value first last : Text}
    (h : Cut (ascii ':') value first (some last)) :
    rangeOfValue value =
      match number? first with
      | none => .error (.rangeForm value)
      | some start =>
        if last = [ascii '*'] then .ok (.openEnded start)
        else
          match number? last with
          | none => .error (.rangeForm value)
          | some stop => ByteRange.between start stop := by
  rw [rangeOfValue, h.dropWhile_eq, h.takeWhile_eq]
  rfl

/-- A star is no number. -/
theorem ne_star_of_isOffset {n : Nat} {s : Text} (h : IsOffset n s) : s ≠ [ascii '*'] := by
  rintro rfl
  exact h.1.not_mem (by decide) List.mem_cons_self

theorem rangeOfValue_of_spellsRange {value : Text} {start : Nat} {stop : Option Nat}
    (h : SpellsRange value start stop) :
    rangeOfValue value =
      match stop with
      | none => .ok (.openEnded start)
      | some stop => ByteRange.between start stop := by
  cases h with
  | openEnded h hstart =>
    rw [rangeOfValue_of_cut h, number?_eq_some_iff_isOffset.2 hstart]
    rfl
  | bounded h hstart hstop =>
    rw [rangeOfValue_of_cut h, number?_eq_some_iff_isOffset.2 hstart,
      number?_eq_some_iff_isOffset.2 hstop]
    exact if_neg (ne_star_of_isOffset hstop)

/-- A value that has not the form of a range is refused as a whole. -/
theorem rangeOfValue_of_not_spellsRange {value : Text}
    (h : ∀ start stop, ¬SpellsRange value start stop) :
    rangeOfValue value = .error (.rangeForm value) := by
  obtain ⟨first, last, hcut⟩ := exists_cut (ascii ':') value
  cases last with
  | none =>
    rw [rangeOfValue, hcut.dropWhile_eq]
    rfl
  | some last =>
    rw [rangeOfValue_of_cut hcut]
    cases hstart : number? first with
    | none => rfl
    | some start =>
      have hstart := number?_eq_some_iff_isOffset.1 hstart
      dsimp only
      -- Both ways on would give the form, so that a fault is left.
      split_ifs with hstar
      · rw [hstar] at hcut
        exact absurd (.openEnded hcut hstart) (h start none)
      · cases hstop : number? last with
        | none => rfl
        | some stop =>
          have hstop := number?_eq_some_iff_isOffset.1 hstop
          exact absurd (.bounded hcut hstart hstop) (h start (some stop))

theorem rangeOfValue_eq_iff {value : Text} {result : Except Error ByteRange} :
    rangeOfValue value = result ↔ Names value result := by
  constructor
  · rintro rfl
    by_cases h : ∃ start stop, SpellsRange value start stop
    · obtain ⟨start, stop, h⟩ := h
      rw [rangeOfValue_of_spellsRange h]
      cases stop with
      | none => exact .range (.openEnded start) h
      | some stop =>
        dsimp only
        rw [ByteRange.between]
        split_ifs with hle
        · exact .range ⟨start, some stop, _⟩ h
        · exact .reversed h (Nat.not_le.1 hle)
    · simp only [not_exists] at h
      rw [rangeOfValue_of_not_spellsRange h]
      exact .malformed h
  · intro h
    cases h with
    | range range h =>
      obtain ⟨start, stop, hordered⟩ := range
      rw [rangeOfValue_of_spellsRange h]
      cases stop with
      | none => rfl
      | some stop => exact dif_pos (hordered stop rfl)
    | reversed h hlt =>
      rw [rangeOfValue_of_spellsRange h]
      exact dif_neg (Nat.not_le.2 hlt)
    | malformed h => exact rangeOfValue_of_not_spellsRange h

/-! ## Parameters -/

/-- The keys of range parameters. -/
def IsRangeKey (key : Text) : Prop :=
  key = utf8 "bytes" ∨ key = utf8 "entity-bytes"

/-- A parameter asks for a range if its key, which ends at the first equals sign, is one of these.
What follows the sign is the value. -/
def AsksRange (parameter : Text) (value : Option Text) : Prop :=
  ∃ key, IsRangeKey key ∧ Cut (ascii '=') parameter key value

theorem isRange_iff {parameter : Text} :
    isRange parameter = true ↔ ∃ value, AsksRange parameter value := by
  obtain ⟨front, back, hcut⟩ := exists_cut (ascii '=') parameter
  have hkey : key parameter = front := hcut.takeWhile_eq
  simp only [isRange, hkey, Bool.or_eq_true, beq_iff_eq, ← IsRangeKey.eq_def]
  constructor
  · exact fun h => ⟨back, front, h, hcut⟩
  · rintro ⟨value, key, h, hcut'⟩
    rwa [← hcut.takeWhile_eq, hcut'.takeWhile_eq]

/-- What a range parameter comes to, with its value. -/
inductive ParameterNames (parameter : Text) : Option Text → Except Error ByteRange → Prop where
  | bare : ParameterNames parameter none (.error (.rangeForm parameter))
  | undecodable {encoded : Text} (h : ∀ value, ¬Encodes value encoded) :
      ParameterNames parameter (some encoded) (.error (.rangeForm parameter))
  | decoded {value encoded : Text} {result : Except Error ByteRange} (h : Encodes value encoded)
      (hresult : Names value result) : ParameterNames parameter (some encoded) result

theorem rangeOfParameter_eq_iff {parameter : Text} {value : Option Text}
    {result : Except Error ByteRange} (h : AsksRange parameter value) :
    rangeOfParameter parameter = result ↔ ParameterNames parameter value result := by
  obtain ⟨key, -, hcut⟩ := h
  rw [rangeOfParameter, hcut.dropWhile_eq]
  cases value with
  | none =>
    constructor
    · rintro rfl
      exact .bare
    · rintro ⟨⟩
      rfl
  | some encoded =>
    dsimp only [Option.map_some, Option.getD_some]
    cases hdecode : percentDecode? encoded with
    | none =>
      have hnone : ∀ value, ¬Encodes value encoded := fun value hvalue => by
        rw [percentDecode?_eq_some_iff.2 hvalue] at hdecode
        cases hdecode
      constructor
      · rintro rfl
        exact .undecodable hnone
      · rintro (_ | _ | ⟨hvalue, -⟩)
        · rfl
        · exact absurd hvalue (hnone _)
    | some value =>
      have hvalue := percentDecode?_eq_some_iff.1 hdecode
      dsimp only
      rw [rangeOfValue_eq_iff]
      constructor
      · exact fun h => .decoded hvalue h
      · rintro (_ | hnone | ⟨hvalue', hnames⟩)
        · exact absurd hvalue (hnone value)
        · rw [← percentDecode?_eq_some_iff, hdecode, Option.some.injEq] at hvalue'
          rwa [hvalue']

/-! ## Queries -/

/-- A query is put together from its parameters, of which none holds an ampersand.  One question
mark in front of it is left out of account. -/
structure HasParameters (query : Text) (parameters : List Text) : Prop where
  ne_nil : parameters ≠ []
  not_mem : ∀ p ∈ parameters, ascii '&' ∉ p
  query_eq : (if query.head? = some (ascii '?') then query.tail else query) = joined parameters

theorem hasParameters_iff {query : Text} {ps : List Text} :
    HasParameters query ps ↔ parameters query = ps := by
  have hbody : parameters query =
      splitOn (ascii '&') (if query.head? = some (ascii '?') then query.tail else query) := by
    simp only [parameters, hasMark, beq_iff_eq]
  rw [hbody]
  constructor
  · rintro ⟨hne, hclean, hquery⟩
    rw [hquery, splitOn_joined hne hclean]
  · rintro rfl
    refine ⟨?_, fun p hp => not_mem_of_mem_splitOn hp, ?_⟩
    · rw [splitOn_eq]
      exact List.splitOn_ne_nil _ _
    · rw [splitOn_eq]
      exact (List.intercalate_splitOn _).symm

/-- What a row of parameters asks for: the first range parameter alone decides. -/
inductive Asks : List Text → Except Error (Option ByteRange) → Prop where
  | nothing {parameters : List Text} (h : ∀ p ∈ parameters, ∀ value, ¬AsksRange p value) :
      Asks parameters (.ok none)
  | first {front back : List Text} {parameter : Text} {value : Option Text}
      {result : Except Error ByteRange} (hfront : ∀ p ∈ front, ∀ value, ¬AsksRange p value)
      (hasks : AsksRange parameter value) (hnames : ParameterNames parameter value result) :
      Asks (front ++ parameter :: back) (result.map some)

theorem isRange_eq_false_iff {parameter : Text} :
    isRange parameter = false ↔ ∀ value, ¬AsksRange parameter value := by
  rw [← Bool.not_eq_true, isRange_iff, not_exists]

theorem parseRange_of_nothing {query : Text} {ps : List Text} (hps : HasParameters query ps)
    (h : ∀ p ∈ ps, ∀ value, ¬AsksRange p value) : parseRange query = .ok none := by
  rw [parseRange_eq_none_iff, hasParameters_iff.1 hps]
  exact fun p hp => isRange_eq_false_iff.2 (h p hp)

theorem parseRange_of_first {query : Text} {front back : List Text} {parameter : Text}
    {value : Option Text} (hps : HasParameters query (front ++ parameter :: back))
    (hfront : ∀ p ∈ front, ∀ value, ¬AsksRange p value) (hasks : AsksRange parameter value) :
    parseRange query = (rangeOfParameter parameter).map some := by
  have hfind : (front ++ parameter :: back).find? isRange = some parameter := by
    refine List.find?_eq_some_iff_append.2 ⟨isRange_iff.2 ⟨value, hasks⟩, front, back, rfl, ?_⟩
    exact fun p hp => by simpa using isRange_eq_false_iff.2 (hfront p hp)
  rw [parseRange, hasParameters_iff.1 hps, hfind]

theorem parseRange_eq_iff {query : Text} {ps : List Text}
    {result : Except Error (Option ByteRange)} (hps : HasParameters query ps) :
    parseRange query = result ↔ Asks ps result := by
  constructor
  · rintro rfl
    cases hfind : ps.find? isRange with
    | none =>
      have hnone : ∀ p ∈ ps, ∀ value, ¬AsksRange p value := fun p hp =>
        isRange_eq_false_iff.1 (by simpa using List.find?_eq_none.1 hfind p hp)
      rw [parseRange_of_nothing hps hnone]
      exact .nothing hnone
    | some parameter =>
      obtain ⟨hrange, front, back, rfl, hfront⟩ := List.find?_eq_some_iff_append.1 hfind
      have hfront : ∀ p ∈ front, ∀ value, ¬AsksRange p value := fun p hp =>
        isRange_eq_false_iff.1 (by simpa using hfront p hp)
      obtain ⟨value, hasks⟩ := isRange_iff.1 hrange
      rw [parseRange_of_first hps hfront hasks]
      exact .first hfront hasks ((rangeOfParameter_eq_iff hasks).1 rfl)
  · intro h
    cases h with
    | nothing h => exact parseRange_of_nothing hps h
    | first hfront hasks hnames =>
      rw [parseRange_of_first hps hfront hasks, (rangeOfParameter_eq_iff hasks).2 hnames]

/-- Only two faults are found in a query. -/
theorem fault_of_asks {ps : List Text} {fault : Error} (h : Asks ps (.error fault)) :
    (∃ text, fault = .rangeForm text) ∨
      ∃ start stop, stop < start ∧ fault = .startAfterEnd start stop := by
  generalize hresult : (Except.error fault : Except Error (Option ByteRange)) = result at h
  cases h with
  | nothing => cases hresult
  | @first _ _ parameter _ result _ _ hnames =>
    cases hnames with
    | bare =>
      cases hresult
      exact .inl ⟨parameter, rfl⟩
    | undecodable =>
      cases hresult
      exact .inl ⟨parameter, rfl⟩
    | @decoded value _ _ _ hnames =>
      cases hnames with
      | range => cases hresult
      | reversed h hlt =>
        cases hresult
        exact .inr ⟨_, _, hlt, rfl⟩
      | malformed =>
        cases hresult
        exact .inl ⟨value, rfl⟩

theorem code_rangeForm (text : Text) : (Error.rangeForm text).code = 0x0203 := by
  have hcode : Domain.validation.base + 0x03 = 0x0203 := by decide
  exact hcode

theorem code_startAfterEnd (start stop : Nat) : (Error.startAfterEnd start stop).code = 0x0201 := by
  have hcode : Domain.validation.base + 0x01 = 0x0201 := by decide
  exact hcode

/-- What a query asks for follows the grammar, for every query and every outcome.  A refusal is one
of an invalid query or, for two offsets in the wrong order, of an invalid range. -/
theorem parseRange_follows_grammar (query : Text) :
    (∀ result, parseRange query = result ↔
      ∃ parameters, HasParameters query parameters ∧ Asks parameters result) ∧
    ∀ fault, parseRange query = .error fault → fault.domain = .validation ∧
      ((fault.code = 0x0203 ∧ ∃ text, fault = .rangeForm text) ∨
        fault.code = 0x0201 ∧ ∃ start stop, stop < start ∧ fault = .startAfterEnd start stop) := by
  have hparameters : HasParameters query (parameters query) := hasParameters_iff.2 rfl
  refine ⟨fun result => ⟨fun h => ⟨_, hparameters, (parseRange_eq_iff hparameters).1 h⟩, ?_⟩,
    fun fault h => ?_⟩
  · rintro ⟨ps, hps, hasks⟩
    exact (parseRange_eq_iff hps).2 hasks
  · obtain ⟨text, rfl⟩ | ⟨start, stop, hlt, rfl⟩ :=
      fault_of_asks ((parseRange_eq_iff hparameters).1 h)
    · exact ⟨rfl, .inl ⟨code_rangeForm text, text, rfl⟩⟩
    · exact ⟨rfl, .inr ⟨code_startAfterEnd start stop, start, stop, hlt, rfl⟩⟩

end CarSlice.Query
