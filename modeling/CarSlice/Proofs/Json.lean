import CarSlice.Event.Json
import Mathlib.Tactic.SplitIfs

/-!
# Reading JSON

A reader of JSON texts, as a second side for what is written.  It takes every text of the standard:
values of every kind, nested as deep as may be, with blanks between them, every escape in strings,
and surrogate pairs.  Strings are read as the bytes that they stand for, and bytes from 128 on stand
for themselves.

* `isNumber` and the literals are the bare words (`isBare`).
* `Piece` is what stands in a string one at a time, and `text?` what pieces stand for.
* `Lexer` cuts a text into tokens, byte by byte.
* `value?` and `behind?` put a value together from tokens, with the arrays and objects that are not
  closed yet on a stack.  `read?` is both.
* `exists_piece` and `run?_quote` say that a written string is read as what it was, and
  `exists_run?_written` says so of a scalar.  `read?_objectText` is the whole object.
* `le_of_mem_objectText` says that no control byte is written.
-/

namespace CarSlice.Json

/-! ## Values -/

/-- A value without parts. -/
inductive Scalar where
  | string (s : Text)
  /-- A number or a literal, as it is written. -/
  | bare (word : Text)
  deriving Repr, DecidableEq

/-- A value.  The members of an object are in the order in which they stand. -/
inductive Value where
  | scalar (s : Scalar)
  | array (elements : List Value)
  | object (members : List (Text × Value))

/-! ## Numbers and literals -/

/-- A decimal digit. -/
def isDigit (b : UInt8) : Bool :=
  48 ≤ b && b ≤ 57

/-- The mark in front of an exponent. -/
def isExponentMark (b : UInt8) : Bool :=
  b == ascii 'e' || b == ascii 'E'

/-- What the bytes of a number so far are. -/
inductive Numeral where
  | empty
  | minus
  | zero
  | whole
  | point
  | fraction
  | exponentMark
  | exponentSign
  | exponent
  deriving Repr, DecidableEq

namespace Numeral

/-- One more byte of a number. -/
def next? (n : Numeral) (b : UInt8) : Option Numeral :=
  match n with
  | empty =>
    if b = ascii '-' then some minus
    else if b = ascii '0' then some zero
    else if isDigit b then some whole else none
  | minus => if b = ascii '0' then some zero else if isDigit b then some whole else none
  | zero =>
    if b = ascii '.' then some point else if isExponentMark b then some exponentMark else none
  | whole =>
    if isDigit b then some whole
    else if b = ascii '.' then some point
    else if isExponentMark b then some exponentMark else none
  | point => if isDigit b then some fraction else none
  | fraction =>
    if isDigit b then some fraction else if isExponentMark b then some exponentMark else none
  | exponentMark =>
    if b = ascii '+' ∨ b = ascii '-' then some exponentSign
    else if isDigit b then some exponent else none
  | exponentSign | exponent => if isDigit b then some exponent else none

/-- Whether a number may end here. -/
def isComplete : Numeral → Bool
  | zero | whole | fraction | exponent => true
  | empty | minus | point | exponentMark | exponentSign => false

end Numeral

/-- A number of the standard: a minus sign if need be, a whole number without leading zeros, a
fraction and an exponent. -/
def isNumber (word : Text) : Bool :=
  (word.foldlM Numeral.next? .empty).any Numeral.isComplete

/-- The literals. -/
def literals : List Text :=
  [utf8 "true", utf8 "false", utf8 "null"]

/-- A value that is written without quotation marks or brackets. -/
def isBare (word : Text) : Bool :=
  isNumber word || literals.contains word

/-- A byte that may stand in a number or in a literal. -/
def isWordByte (b : UInt8) : Bool :=
  isDigit b || 97 ≤ b && b ≤ 122 || 65 ≤ b && b ≤ 90 ||
    b == ascii '+' || b == ascii '-' || b == ascii '.'

/-! ## Strings -/

/-- What stands in a string, one at a time: a byte, also one that a short escape stands for, or a
UTF-16 unit in hexadecimal. -/
inductive Piece where
  | byte (b : UInt8)
  | unit (n : Nat)
  deriving Repr, DecidableEq

/-- The first half of a surrogate pair. -/
def isHighHalf (n : Nat) : Bool :=
  0xD800 ≤ n && n < 0xDC00

/-- The second half of a surrogate pair. -/
def isLowHalf (n : Nat) : Bool :=
  0xDC00 ≤ n && n < 0xE000

/-- The UTF-8 bytes of the character with a number. -/
def character (n : Nat) : Bytes :=
  String.utf8EncodeChar (Char.ofNat n)

/-- The bytes that pieces stand for.  Both halves of a surrogate pair must be there. -/
def text? : List Piece → Option Text
  | [] => some []
  | .byte b :: rest => (text? rest).map (b :: ·)
  | .unit n :: rest =>
    if isLowHalf n then none
    else if isHighHalf n then
      match rest with
      | .unit low :: rest =>
        if isLowHalf low then
          (text? rest).map (character (0x10000 + 0x400 * (n - 0xD800) + (low - 0xDC00)) ++ ·)
        else none
      | _ => none
    else (text? rest).map (character n ++ ·)

/-- The byte that a byte behind a backslash stands for. -/
def short? (b : UInt8) : Option UInt8 :=
  if b = ascii '"' ∨ b = ascii '\\' ∨ b = ascii '/' then some b
  else if b = ascii 'b' then some 0x08
  else if b = ascii 'f' then some 0x0C
  else if b = ascii 'n' then some 0x0A
  else if b = ascii 'r' then some 0x0D
  else if b = ascii 't' then some 0x09
  else none

/-! ## Tokens -/

/-- A token of a text. -/
inductive Token where
  | scalar (s : Scalar)
  | openArray
  | closeArray
  | openObject
  | closeObject
  | comma
  | colon
  deriving Repr, DecidableEq

/-- The token that is a single byte. -/
def Token.ofMark? (b : UInt8) : Option Token :=
  if b = ascii '[' then some .openArray
  else if b = ascii ']' then some .closeArray
  else if b = ascii '\x7b' then some .openObject
  else if b = ascii '\x7d' then some .closeObject
  else if b = ascii ',' then some .comma
  else if b = ascii ':' then some .colon
  else none

/-- A byte that may stand between tokens. -/
def isBlank (b : UInt8) : Bool :=
  b == 0x20 || b == 0x0A || b == 0x0D || b == 0x09

/-- The token of which a part is read, with what was read of it, the last first. -/
inductive Reading where
  | between
  | word (front : Text)
  | string (front : List Piece)
  /-- Behind a backslash. -/
  | escape (front : List Piece)
  /-- Behind some of four hexadecimal digits. -/
  | unit (digits value : Nat) (front : List Piece)
  deriving Repr, DecidableEq

/-- The tokens of the text so far, the last first, and what is read of the next one. -/
structure Lexer where
  tokens : List Token := []
  reading : Reading := .between
  deriving Repr, DecidableEq

namespace Lexer

/-- Ends a word, if one is being read. -/
def endWord? (l : Lexer) : Option Lexer :=
  match l.reading with
  | .word front =>
    if isBare front.reverse then
      some { tokens := .scalar (.bare front.reverse) :: l.tokens, reading := .between }
    else none
  | .between => some l
  | .string _ | .escape _ | .unit _ _ _ => none

/-- Takes a byte that belongs to no token so far. -/
def begin? (l : Lexer) (b : UInt8) : Option Lexer :=
  if isBlank b then some l
  else if b = ascii '"' then some { l with reading := .string [] }
  else if isWordByte b then some { l with reading := .word [b] }
  else (Token.ofMark? b).map fun mark => { l with tokens := mark :: l.tokens }

/-- Takes a byte. -/
def step? (l : Lexer) (b : UInt8) : Option Lexer :=
  match l.reading with
  | .between => l.begin? b
  | .word front =>
    if isWordByte b then some { l with reading := .word (b :: front) }
    else l.endWord?.bind (·.begin? b)
  | .string front =>
    if b = ascii '"' then
      (text? front.reverse).map fun s =>
        { tokens := .scalar (.string s) :: l.tokens, reading := .between }
    else if b = ascii '\\' then some { l with reading := .escape front }
    else if b < 0x20 then none
    else some { l with reading := .string (.byte b :: front) }
  | .escape front =>
    if b = ascii 'u' then some { l with reading := .unit 0 0 front }
    else (short? b).map fun c => { l with reading := .string (.byte c :: front) }
  | .unit digits value front =>
    (hexValue? b).map fun digit =>
      if digits < 3 then { l with reading := .unit (digits + 1) (16 * value + digit) front }
      else { l with reading := .string (.unit (16 * value + digit) :: front) }

/-- Takes bytes. -/
def run? (l : Lexer) (s : Text) : Option Lexer :=
  s.foldlM step? l

end Lexer

/-- The tokens of a text. -/
def tokens? (s : Text) : Option (List Token) :=
  ((Lexer.run? {} s).bind Lexer.endWord?).map fun l => l.tokens.reverse

/-! ## Values from tokens -/

/-- An array or object that is not closed yet: what it holds so far, the last first, and in an
object the key of the value that comes next. -/
inductive Frame where
  | array (before : List Value)
  | object (before : List (Text × Value)) (key : Text)

mutual

/-- Goes on where a value must stand. -/
def value? : List Frame → List Token → Option Value
  | frames, .scalar s :: rest => behind? frames (.scalar s) rest
  | frames, .openArray :: .closeArray :: rest => behind? frames (.array []) rest
  | frames, .openArray :: rest => value? (.array [] :: frames) rest
  | frames, .openObject :: .closeObject :: rest => behind? frames (.object []) rest
  | frames, .openObject :: .scalar (.string key) :: .colon :: rest =>
    value? (.object [] key :: frames) rest
  | _, _ => none

/-- Goes on behind a value. -/
def behind? : List Frame → Value → List Token → Option Value
  | [], v, [] => some v
  | .array before :: frames, v, .comma :: rest => value? (.array (v :: before) :: frames) rest
  | .array before :: frames, v, .closeArray :: rest =>
    behind? frames (.array (v :: before).reverse) rest
  | .object before key :: frames, v, .comma :: .scalar (.string next) :: .colon :: rest =>
    value? (.object ((key, v) :: before) next :: frames) rest
  | .object before key :: frames, v, .closeObject :: rest =>
    behind? frames (.object ((key, v) :: before).reverse) rest
  | _, _, _ => none

end

/-- The value that a text is. -/
def read? (s : Text) : Option Value :=
  (tokens? s).bind (value? [])

/-! ## What is written reads back -/

theorem forall_byte {P : UInt8 → Prop} (h : ∀ n < 256, P (UInt8.ofNat n)) (b : UInt8) : P b := by
  have hb := h b.toNat b.toNat_lt
  rwa [UInt8.ofNat_toNat] at hb

namespace Lexer

theorem run?_append (l : Lexer) (s t : Text) : l.run? (s ++ t) = (l.run? s).bind (·.run? t) :=
  List.foldlM_append

theorem run?_cons (l : Lexer) (b : UInt8) (s : Text) :
    l.run? (b :: s) = (l.step? b).bind (·.run? s) :=
  rfl

end Lexer

theorem hexValue?_hexDigit {n : Nat} (h : n < 16) : hexValue? (hexDigit n) = some n := by
  have hall : ∀ n < 16, hexValue? (hexDigit n) = some n := by decide
  exact hall n h

/-- How a byte is written inside a string. -/
theorem escapeByte_cases (b : UInt8) :
    (∃ c, escapeByte b = [ascii '\\', c] ∧ 0x20 ≤ c ∧ c ≠ ascii 'u' ∧ short? c = some b) ∨
      (escapeByte b = utf8 "\\u00" ++ hex [b] ∧ b < 0x20) ∨
      (escapeByte b = [b] ∧ 0x20 ≤ b ∧ b ≠ ascii '"' ∧ b ≠ ascii '\\') := by
  generalize hwritten : escapeByte b = written
  unfold escapeByte at hwritten
  split_ifs at hwritten with hbackslash hquote hb hf hn hr ht hcontrol <;> subst hwritten
  · exact .inl ⟨ascii '\\', rfl, by decide, by decide, by subst hbackslash; rfl⟩
  · exact .inl ⟨ascii '"', rfl, by decide, by decide, by subst hquote; rfl⟩
  · exact .inl ⟨ascii 'b', rfl, by decide, by decide, by subst hb; rfl⟩
  · exact .inl ⟨ascii 'f', rfl, by decide, by decide, by subst hf; rfl⟩
  · exact .inl ⟨ascii 'n', rfl, by decide, by decide, by subst hn; rfl⟩
  · exact .inl ⟨ascii 'r', rfl, by decide, by decide, by subst hr; rfl⟩
  · exact .inl ⟨ascii 't', rfl, by decide, by decide, by subst ht; rfl⟩
  · exact .inr (.inl ⟨rfl, hcontrol⟩)
  · exact .inr (.inr ⟨rfl, UInt8.not_lt.1 hcontrol, hquote, hbackslash⟩)

section

variable {tokens : List Token} {front : List Piece} {b : UInt8}

theorem run?_short {c : UInt8} (hc : c ≠ ascii 'u') (hb : short? c = some b) :
    Lexer.run? { tokens, reading := .string front } [ascii '\\', c] =
      some { tokens, reading := .string (.byte b :: front) } := by
  have hfirst : Lexer.step? { tokens, reading := .string front } (ascii '\\') =
      some { tokens, reading := .escape front } := rfl
  rw [Lexer.run?_cons, hfirst, Option.bind_some, Lexer.run?_cons, Lexer.step?]
  simp [hc, hb, Lexer.run?]

theorem run?_control (hb : b < 0x20) :
    Lexer.run? { tokens, reading := .string front } (utf8 "\\u00" ++ hex [b]) =
      some { tokens, reading := .string (.unit b.toNat :: front) } := by
  have hlt : b.toNat < 32 := UInt8.lt_iff_toNat_lt.1 hb
  have hfirst : Lexer.run? { tokens, reading := .string front } (utf8 "\\u00") =
      some { tokens, reading := .unit 2 0 front } := rfl
  have hdigits : hex [b] = [hexDigit (b.toNat / 16), hexDigit (b.toNat % 16)] := rfl
  have hhigh := hexValue?_hexDigit (n := b.toNat / 16) (by omega)
  have hlow := hexValue?_hexDigit (n := b.toNat % 16) (by omega)
  have hvalue : 16 * (b.toNat / 16) + b.toNat % 16 = b.toNat := Nat.div_add_mod _ _
  rw [Lexer.run?_append, hfirst, hdigits, Option.bind_some]
  simp [Lexer.run?, Lexer.step?, hhigh, hlow, hvalue]

theorem run?_plain (hcontrol : 0x20 ≤ b) (hquote : b ≠ ascii '"') (hbackslash : b ≠ ascii '\\') :
    Lexer.run? { tokens, reading := .string front } [b] =
      some { tokens, reading := .string (.byte b :: front) } := by
  rw [Lexer.run?_cons, Lexer.step?]
  simp [hquote, hbackslash, UInt8.not_lt.2 hcontrol, Lexer.run?]

/-- The number of a control byte stands for that byte. -/
theorem text?_control (hb : b < 0x20) (rest : List Piece) :
    text? (.unit b.toNat :: rest) = (text? rest).map (b :: ·) := by
  have hall : ∀ n < 32, isLowHalf n = false ∧ isHighHalf n = false ∧
      character n = [UInt8.ofNat n] := by decide
  obtain ⟨hlow, hhigh, hcharacter⟩ := hall b.toNat (UInt8.lt_iff_toNat_lt.1 hb)
  rw [text?.eq_def]
  simp only [hlow, hhigh, hcharacter, UInt8.ofNat_toNat]
  rfl

end

/-- A byte is written as one piece that stands for it. -/
theorem exists_piece (b : UInt8) : ∃ p : Piece,
    (∀ tokens front, Lexer.run? { tokens, reading := .string front } (escapeByte b) =
      some { tokens, reading := .string (p :: front) }) ∧
      ∀ rest, text? (p :: rest) = (text? rest).map (b :: ·) := by
  rcases escapeByte_cases b with ⟨c, hwritten, -, hc, hb⟩ | ⟨hwritten, hb⟩ |
    ⟨hwritten, hcontrol, hquote, hbackslash⟩
  · exact ⟨.byte b, fun _ _ => hwritten ▸ run?_short hc hb, fun _ => rfl⟩
  · exact ⟨.unit b.toNat, fun _ _ => hwritten ▸ run?_control hb, text?_control hb⟩
  · exact ⟨.byte b, fun _ _ => hwritten ▸ run?_plain hcontrol hquote hbackslash, fun _ => rfl⟩

theorem exists_pieces (s : Text) : ∃ pieces, text? pieces = some s ∧
    ∀ tokens front, Lexer.run? { tokens, reading := .string front } (escape s) =
      some { tokens, reading := .string (pieces.reverse ++ front) } := by
  induction s with
  | nil => exact ⟨[], rfl, fun _ _ => rfl⟩
  | cons b s ih =>
    obtain ⟨p, hrunPiece, htextPiece⟩ := exists_piece b
    obtain ⟨pieces, htext, hrun⟩ := ih
    refine ⟨p :: pieces, by rw [htextPiece, htext]; rfl, fun tokens front => ?_⟩
    rw [escape, List.flatMap_cons, Lexer.run?_append, hrunPiece, Option.bind_some]
    rw [List.reverse_cons, List.append_assoc]
    exact hrun tokens (p :: front)

/-- A text in quotation marks is read as the text. -/
theorem run?_quote (tokens : List Token) (s : Text) :
    Lexer.run? { tokens } (quote s) = some { tokens := .scalar (.string s) :: tokens } := by
  obtain ⟨pieces, htext, hrun⟩ := exists_pieces s
  have hopen : Lexer.step? { tokens } (ascii '"') = some { tokens, reading := .string [] } := rfl
  rw [quote, List.cons_append, Lexer.run?_cons, hopen, Option.bind_some, Lexer.run?_append, hrun,
    Option.bind_some, Lexer.run?_cons, Lexer.step?]
  simp [htext, Lexer.run?]

/-! ### Bare words -/

theorem isWordByte_of_isDigit {b : UInt8} (h : isDigit b = true) : isWordByte b = true := by
  simp [isWordByte, h]

theorem isWordByte_of_isExponentMark {b : UInt8} (h : isExponentMark b = true) :
    isWordByte b = true := by
  rcases Bool.or_eq_true_iff.1 h with hmark | hmark
  · rw [eq_of_beq hmark]
    rfl
  · rw [eq_of_beq hmark]
    rfl

theorem isWordByte_of_next? {n n' : Numeral} {b : UInt8} (h : n.next? b = some n') :
    isWordByte b = true := by
  cases hb : isWordByte b with
  | true => rfl
  | false =>
    have hdigit : isDigit b = false :=
      Bool.eq_false_iff.2 fun h => by simp [isWordByte_of_isDigit h] at hb
    have hexponent : isExponentMark b = false :=
      Bool.eq_false_iff.2 fun h => by simp [isWordByte_of_isExponentMark h] at hb
    have hmark : ∀ c, isWordByte c = true → b ≠ c := fun c hc hbc => by simp [hbc, hc] at hb
    have hminus := hmark (ascii '-') rfl
    have hplus := hmark (ascii '+') rfl
    have hpoint := hmark (ascii '.') rfl
    have hzero := hmark (ascii '0') rfl
    cases n <;> simp [Numeral.next?, hdigit, hexponent, hminus, hplus, hpoint, hzero] at h

theorem isWordByte_of_mem_number {n n' : Numeral} {word : Text}
    (h : word.foldlM Numeral.next? n = some n') : ∀ b ∈ word, isWordByte b = true := by
  induction word generalizing n with
  | nil => exact fun _ hb => (List.not_mem_nil hb).elim
  | cons b word ih =>
    rw [List.foldlM_cons] at h
    obtain ⟨behind, hnext, hrest⟩ := Option.bind_eq_some_iff.1 h
    exact List.forall_mem_cons.2 ⟨isWordByte_of_next? hnext, ih hrest⟩

theorem isWordByte_of_isBare {word : Text} (h : isBare word = true) :
    word ≠ [] ∧ ∀ b ∈ word, isWordByte b = true := by
  rw [isBare, Bool.or_eq_true] at h
  rcases h with hnumber | hliteral
  · obtain ⟨n, hread, hcomplete⟩ := (Option.any_eq_true _ _).1 hnumber
    refine ⟨?_, isWordByte_of_mem_number hread⟩
    rintro rfl
    cases hread
    cases hcomplete
  · have hall : ∀ word ∈ literals, word ≠ [] ∧ ∀ b ∈ word, isWordByte b = true := by
      decide +kernel
    exact hall word (List.contains_iff_mem.1 hliteral)

theorem begin?_word {tokens : List Token} {b : UInt8} (hb : isWordByte b = true) :
    Lexer.begin? { tokens } b = some { tokens, reading := .word [b] } := by
  have hall : ∀ b, isWordByte b = true → isBlank b = false ∧ b ≠ ascii '"' :=
    forall_byte (by decide +kernel)
  obtain ⟨hblank, hquote⟩ := hall b hb
  simp [Lexer.begin?, hblank, hquote, hb]

theorem run?_word {tokens : List Token} {front word : Text}
    (h : ∀ b ∈ word, isWordByte b = true) :
    Lexer.run? { tokens, reading := .word front } word =
      some { tokens, reading := .word (word.reverse ++ front) } := by
  induction word generalizing front with
  | nil => rfl
  | cons b word ih =>
    obtain ⟨hb, hword⟩ := List.forall_mem_cons.1 h
    have hstep : Lexer.step? { tokens, reading := .word front } b =
        some { tokens, reading := .word (b :: front) } := if_pos hb
    rw [Lexer.run?_cons, hstep, Option.bind_some, ih hword, List.reverse_cons, List.append_assoc]
    rfl

/-! ### Scalars and objects -/

/-- How a scalar is written. -/
def Scalar.written : Scalar → Text
  | .string s => quote s
  | .bare word => word

/-- A scalar that can be written: a bare word must be a number or a literal. -/
def Scalar.IsProper : Scalar → Prop
  | .string _ => True
  | .bare word => isBare word = true

/-- Behind a written scalar its token is there, once a byte comes that is not part of a word. -/
theorem exists_run?_written {s : Scalar} (hs : s.IsProper) (tokens : List Token) :
    ∃ l : Lexer, Lexer.run? { tokens } s.written = some l ∧ ∀ b, isWordByte b = false →
      l.step? b = Lexer.begin? { tokens := .scalar s :: tokens } b := by
  cases s with
  | string s => exact ⟨_, run?_quote tokens s, fun _ _ => rfl⟩
  | bare word =>
    obtain ⟨hne, hword⟩ := isWordByte_of_isBare hs
    obtain ⟨first, rest, rfl⟩ := List.exists_cons_of_ne_nil hne
    obtain ⟨hfirst, hrest⟩ := List.forall_mem_cons.1 hword
    have hbegin : Lexer.step? { tokens } first = some { tokens, reading := .word [first] } :=
      begin?_word hfirst
    refine ⟨{ tokens, reading := .word (rest.reverse ++ [first]) }, ?_, fun b hb => ?_⟩
    · rw [Scalar.written, Lexer.run?_cons, hbegin, Option.bind_some, run?_word hrest]
    · have hreverse : (rest.reverse ++ [first]).reverse = first :: rest := by simp
      have hbare : isBare (first :: rest) = true := hs
      simp [Lexer.step?, Lexer.endWord?, hb, hreverse, hbare]

/-- A member of an object whose value is a scalar, as it is written. -/
def memberText (m : Text × Scalar) : Text :=
  member m.1 m.2.written

/-- The tokens of such a member. -/
def memberTokens (m : Text × Scalar) : List Token :=
  [.scalar (.string m.1), .colon, .scalar m.2]

theorem exists_run?_member {m : Text × Scalar} (hm : m.2.IsProper) (tokens : List Token) :
    ∃ l : Lexer, Lexer.run? { tokens } (memberText m) = some l ∧ ∀ b, isWordByte b = false →
      l.step? b = Lexer.begin? { tokens := (memberTokens m).reverse ++ tokens } b := by
  obtain ⟨l, hrun, hstep⟩ :=
    exists_run?_written hm (.colon :: .scalar (.string m.1) :: tokens)
  have hcolon : Lexer.step? { tokens := .scalar (.string m.1) :: tokens } (ascii ':') =
      some { tokens := .colon :: .scalar (.string m.1) :: tokens } := rfl
  refine ⟨l, ?_, hstep⟩
  rw [memberText, member, Lexer.run?_append, run?_quote, Option.bind_some, Lexer.run?_cons, hcolon,
    Option.bind_some, hrun]

/-- Members up to the closing bracket. -/
theorem run?_members {l : Lexer} {tokens : List Token} {members : List (Text × Scalar)}
    (hl : ∀ b, isWordByte b = false → l.step? b = Lexer.begin? { tokens } b)
    (h : ∀ m ∈ members, m.2.IsProper) :
    l.run? (members.flatMap (fun m => ascii ',' :: memberText m) ++ [ascii '\x7d']) =
      some { tokens := .closeObject ::
        (members.flatMap fun m => .comma :: memberTokens m).reverse ++ tokens } := by
  induction members generalizing l tokens with
  | nil =>
    rw [List.flatMap_nil, List.nil_append, Lexer.run?_cons, hl _ (by decide)]
    rfl
  | cons m members ih =>
    obtain ⟨hm, hmembers⟩ := List.forall_mem_cons.1 h
    obtain ⟨l', hrun, hstep⟩ := exists_run?_member hm (.comma :: tokens)
    have hcomma : Lexer.begin? { tokens } (ascii ',') = some { tokens := .comma :: tokens } := rfl
    rw [List.flatMap_cons, List.cons_append, List.cons_append, Lexer.run?_cons, hl _ (by decide),
      hcomma, Option.bind_some, List.append_assoc, Lexer.run?_append, hrun, Option.bind_some,
      ih hstep hmembers]
    simp

/-- Tokens of further members are read up to the closing bracket. -/
theorem behind?_members (before : List (Text × Value)) (key : Text) (v : Value)
    (members : List (Text × Scalar)) :
    behind? [.object before key] v
      ((members.flatMap fun m => .comma :: memberTokens m) ++ [.closeObject]) =
      some (.object
        (before.reverse ++ (key, v) :: members.map fun m => (m.1, .scalar m.2))) := by
  induction members generalizing before key v with
  | nil => simp [behind?]
  | cons m members ih =>
    have hnext := ih ((key, v) :: before) m.1 (.scalar m.2)
    simpa [memberTokens, behind?, value?] using hnext

theorem intercalate_cons (separator : UInt8) (first : Text) (rest : List Text) :
    [separator].intercalate (first :: rest) = first ++ rest.flatMap (separator :: ·) := by
  induction rest generalizing first with
  | nil => simp
  | cons next rest ih => simp [List.intercalate_cons_cons, ih]

theorem mem_intercalate {separator b : UInt8} {parts : List Text}
    (h : b ∈ [separator].intercalate parts) : b = separator ∨ ∃ part ∈ parts, b ∈ part := by
  cases parts with
  | nil => cases h
  | cons first rest =>
    rw [intercalate_cons, List.mem_append, List.mem_flatMap] at h
    rcases h with hfirst | ⟨part, hpart, hb⟩
    · exact .inr ⟨first, List.mem_cons_self, hfirst⟩
    · exact (List.mem_cons.1 hb).imp_right fun hb => ⟨part, List.mem_cons_of_mem _ hpart, hb⟩

/-- An object of scalars, as it is written. -/
def objectText (members : List (Text × Scalar)) : Text :=
  ascii '\x7b' :: [ascii ','].intercalate (members.map memberText) ++ [ascii '\x7d']

/-- An object of scalars reads back. -/
theorem read?_objectText {first : Text × Scalar} {rest : List (Text × Scalar)}
    (h : ∀ m ∈ first :: rest, m.2.IsProper) :
    read? (objectText (first :: rest)) =
      some (.object ((first :: rest).map fun m => (m.1, .scalar m.2))) := by
  obtain ⟨hfirst, hrest⟩ := List.forall_mem_cons.1 h
  obtain ⟨l, hrun, hstep⟩ := exists_run?_member hfirst [.openObject]
  have hopen : Lexer.step? {} (ascii '\x7b') = some { tokens := [.openObject] } := rfl
  have htokens : tokens? (objectText (first :: rest)) = some (.openObject :: memberTokens first ++
      (rest.flatMap fun m => .comma :: memberTokens m) ++ [.closeObject]) := by
    rw [tokens?, objectText, List.map_cons, intercalate_cons, List.flatMap_map, List.cons_append,
      List.append_assoc, Lexer.run?_cons, hopen, Option.bind_some, Lexer.run?_append, hrun,
      Option.bind_some, run?_members hstep hrest]
    simp [Lexer.endWord?]
  rw [read?, htokens, Option.bind_some]
  have hmembers := behind?_members [] first.1 (.scalar first.2) rest
  simpa [memberTokens, value?] using hmembers

/-- Blanks, nesting, an escaped letter and a surrogate pair. -/
example : read? (utf8 "[ -1.5e3 ,\x7b\"a\\u00e9\\ud83d\\ude00\":[null]\x7d]") =
    some (.array [.scalar (.bare (utf8 "-1.5e3")),
      .object [(utf8 "a\u00e9" ++ [0xF0, 0x9F, 0x98, 0x80],
        .array [.scalar (.bare (utf8 "null"))])]]) := by
  rfl

/-! ## No control bytes are written -/

theorem le_of_mem_hex {bytes : Bytes} {b : UInt8} (h : b ∈ hex bytes) : 0x20 ≤ b := by
  have hall : ∀ n < 16, 0x20 ≤ hexDigit n := by decide
  obtain ⟨c, -, hc⟩ := List.mem_flatMap.1 h
  have hlt := c.toNat_lt
  have hdigit : b = hexDigit (c.toNat / 16) ∨ b = hexDigit (c.toNat % 16) := by simpa using hc
  rcases hdigit with rfl | rfl
  · exact hall _ (by omega)
  · exact hall _ (by omega)

theorem le_of_mem_quote {s : Text} {b : UInt8} (h : b ∈ quote s) : 0x20 ≤ b := by
  have hmark : 0x20 ≤ ascii '"' := by decide
  simp only [quote, List.cons_append, List.mem_cons, List.mem_append, List.not_mem_nil,
    or_false] at h
  rcases h with rfl | hescape | rfl
  · exact hmark
  · obtain ⟨c, -, hb⟩ := List.mem_flatMap.1 hescape
    rcases escapeByte_cases c with ⟨d, hwritten, hd, -⟩ | ⟨hwritten, -⟩ | ⟨hwritten, hc, -⟩
    · have hpair : b = ascii '\\' ∨ b = d := by simpa [hwritten] using hb
      rcases hpair with rfl | rfl
      · decide
      · exact hd
    · rw [hwritten] at hb
      have hfront : ∀ b ∈ utf8 "\\u00", 0x20 ≤ b := by decide +kernel
      exact (List.mem_append.1 hb).elim (hfront b) le_of_mem_hex
    · rw [hwritten] at hb
      exact List.mem_singleton.1 hb ▸ hc
  · exact hmark

theorem le_of_isWordByte {b : UInt8} (h : isWordByte b = true) : 0x20 ≤ b := by
  have hall : ∀ b, isWordByte b = true → 0x20 ≤ b := forall_byte (by decide +kernel)
  exact hall b h

theorem le_of_mem_memberText {m : Text × Scalar} (hm : m.2.IsProper) {b : UInt8}
    (h : b ∈ memberText m) : 0x20 ≤ b := by
  rcases List.mem_append.1 h with hkey | hvalue
  · exact le_of_mem_quote hkey
  · rcases List.mem_cons.1 hvalue with rfl | hscalar
    · decide
    · obtain ⟨key, s | word⟩ := m
      · exact le_of_mem_quote hscalar
      · exact le_of_isWordByte ((isWordByte_of_isBare hm).2 b hscalar)

/-- A written object holds no control byte, so it stands on one line. -/
theorem le_of_mem_objectText {members : List (Text × Scalar)}
    (h : ∀ m ∈ members, m.2.IsProper) {b : UInt8} (hb : b ∈ objectText members) : 0x20 ≤ b := by
  have hmark : 0x20 ≤ ascii '\x7b' ∧ 0x20 ≤ ascii '\x7d' ∧ 0x20 ≤ ascii ',' := by decide
  simp only [objectText, List.cons_append, List.mem_cons, List.mem_append, List.not_mem_nil,
    or_false] at hb
  rcases hb with rfl | hmembers | rfl
  · exact hmark.1
  · rcases mem_intercalate hmembers with rfl | ⟨part, hpart, hmem⟩
    · exact hmark.2.2
    · obtain ⟨m, hm, rfl⟩ := List.mem_map.1 hpart
      exact le_of_mem_memberText (h m hm) hmem
  · exact hmark.2.1

end CarSlice.Json
