import CarSlice.Bytes

/-!
# SHA-2

SHA-256 and SHA-512 are one compression over words of two widths. `Variant`
holds what tells them apart, `digest` is the hash of a byte string, and
`sha256` and `sha512` are the two members that archives use.

The tables of SHA-256 are the high halves of the first entries of the tables of
SHA-512, since both take leading bits of the same irrational numbers.
-/

namespace CarSlice.Sha2

/-- What the compression does with a word. -/
class Word (W : Type) extends Add W, XorOp W, AndOp W, Complement W where
  /-- Bits in a word. -/
  width : Nat
  ofNat : Nat → W
  toNat : W → Nat
  rotateRight : W → Nat → W
  shiftRight : W → Nat → W

instance : Word UInt32 where
  width := 32
  ofNat := UInt32.ofNat
  toNat := UInt32.toNat
  rotateRight x n := x >>> UInt32.ofNat n ||| x <<< UInt32.ofNat (32 - n)
  shiftRight x n := x >>> UInt32.ofNat n

instance : Word UInt64 where
  width := 64
  ofNat := UInt64.ofNat
  toNat := UInt64.toNat
  rotateRight x n := x >>> UInt64.ofNat n ||| x <<< UInt64.ofNat (64 - n)
  shiftRight x n := x >>> UInt64.ofNat n

/-- Three amounts by which a word is rotated or shifted before the results are
combined. -/
structure Amounts where
  first : Nat
  second : Nat
  third : Nat

/-- A member of the family. -/
structure Variant (W : Type) where
  /-- Chaining value before the first block. -/
  initial : List W
  /-- Additive constants, one for each round. -/
  constants : List W
  /-- Rotations of the working variable `a`. -/
  sumA : Amounts
  /-- Rotations of the working variable `e`. -/
  sumE : Amounts
  /-- Two rotations and a shift of the schedule word fifteen places back. -/
  mixFifteen : Amounts
  /-- Two rotations and a shift of the schedule word two places back. -/
  mixTwo : Amounts

section

variable {W : Type} [Word W]

/-! ## Compression -/

/-- The exclusive or of three rotations. -/
@[specialize] def rotations (x : W) (n : Amounts) : W :=
  Word.rotateRight x n.first ^^^ Word.rotateRight x n.second ^^^ Word.rotateRight x n.third

/-- The exclusive or of two rotations and a shift. -/
@[specialize] def rotationsAndShift (x : W) (n : Amounts) : W :=
  Word.rotateRight x n.first ^^^ Word.rotateRight x n.second ^^^ Word.shiftRight x n.third

/-- The eight working variables. -/
structure Registers (W : Type) where
  a : W
  b : W
  c : W
  d : W
  e : W
  f : W
  g : W
  h : W

/-- A word of a list, zero behind its end. -/
@[specialize] def wordAt (words : List W) (i : Nat) : W :=
  words.getD i (Word.ofNat 0)

/-- The working variables that hold a chaining value. -/
@[specialize] def Registers.ofList (words : List W) : Registers W :=
  { a := wordAt words 0, b := wordAt words 1, c := wordAt words 2, d := wordAt words 3
    e := wordAt words 4, f := wordAt words 5, g := wordAt words 6, h := wordAt words 7 }

/-- The words of the working variables in order. -/
def Registers.toList (r : Registers W) : List W :=
  [r.a, r.b, r.c, r.d, r.e, r.f, r.g, r.h]

/-- One round with a schedule word and an additive constant. -/
@[specialize] def Registers.round (v : Variant W) (r : Registers W) (word constant : W) :
    Registers W :=
  let choice := (r.e &&& r.f) ^^^ (~~~r.e &&& r.g)
  let majority := (r.a &&& r.b) ^^^ (r.a &&& r.c) ^^^ (r.b &&& r.c)
  let t1 := r.h + rotations r.e v.sumE + choice + constant + word
  let t2 := rotations r.a v.sumA + majority
  { a := t1 + t2, b := r.a, c := r.b, d := r.c, e := r.d + t1, f := r.e, g := r.f, h := r.g }

/-- The last sixteen schedule words after one more was added and the oldest
dropped. -/
@[specialize] def nextWindow (v : Variant W) (window : List W) : List W :=
  let word := rotationsAndShift (wordAt window 14) v.mixTwo + wordAt window 9 +
    rotationsAndShift (wordAt window 1) v.mixFifteen + wordAt window 0
  window.tail ++ [word]

/-- All rounds over one block of sixteen words. -/
@[specialize] def rounds (v : Variant W) : List W → List W → Registers W → Registers W
  | [], _, r => r
  | constant :: constants, window, r =>
    rounds v constants (nextWindow v window) (r.round v (wordAt window 0) constant)

/-- Adds a block to a chaining value. -/
@[specialize] def compress (v : Variant W) (chain block : List W) : List W :=
  List.zipWith (· + ·) chain (rounds v v.constants block (.ofList chain)).toList

/-! ## Padding and words -/

/-- Pieces of `size` elements; the last one may be shorter. -/
def pieces {α : Type} (size : Nat) (s : List α) : List (List α) :=
  if s.isEmpty ∨ size = 0 then [] else s.take size :: pieces size (s.drop size)
termination_by s.length
decreasing_by
  next h =>
  simp only [List.isEmpty_iff, not_or] at h
  have := List.length_pos_iff.2 h.1
  simp only [List.length_drop]
  omega

/-- A message followed by a one bit, zero bits, and its length in bits, so that
it fills whole blocks of words of `width` bits. -/
def pad (width : Nat) (message : Bytes) : Bytes :=
  let block := 2 * width
  let lengthField := width / 4
  let used := message.length + 1 + lengthField
  message ++ 0x80 :: List.replicate ((block - used % block) % block) 0 ++
    bigEndian lengthField (8 * message.length)

/-- The hash of a message. -/
@[specialize] def digest (v : Variant W) (message : Bytes) : Bytes :=
  let size := Word.width W / 8
  let words : List W :=
    (pieces size (pad (Word.width W) message)).map fun s => Word.ofNat (bigEndianValue s)
  ((pieces 16 words).foldl (compress v) v.initial).flatMap fun word =>
    bigEndian size (Word.toNat word)

end

/-! ## The two members -/

/-- The first sixty-four bits of the fractional parts of the square roots of the
first eight primes. -/
def squareRoots : List UInt64 :=
  [0x6a09e667f3bcc908, 0xbb67ae8584caa73b, 0x3c6ef372fe94f82b, 0xa54ff53a5f1d36f1,
    0x510e527fade682d1, 0x9b05688c2b3e6c1f, 0x1f83d9abfb41bd6b, 0x5be0cd19137e2179]

/-- The first sixty-four bits of the fractional parts of the cube roots of the
first eighty primes. -/
def cubeRoots : List UInt64 :=
  [0x428a2f98d728ae22, 0x7137449123ef65cd, 0xb5c0fbcfec4d3b2f, 0xe9b5dba58189dbbc,
    0x3956c25bf348b538, 0x59f111f1b605d019, 0x923f82a4af194f9b, 0xab1c5ed5da6d8118,
    0xd807aa98a3030242, 0x12835b0145706fbe, 0x243185be4ee4b28c, 0x550c7dc3d5ffb4e2,
    0x72be5d74f27b896f, 0x80deb1fe3b1696b1, 0x9bdc06a725c71235, 0xc19bf174cf692694,
    0xe49b69c19ef14ad2, 0xefbe4786384f25e3, 0x0fc19dc68b8cd5b5, 0x240ca1cc77ac9c65,
    0x2de92c6f592b0275, 0x4a7484aa6ea6e483, 0x5cb0a9dcbd41fbd4, 0x76f988da831153b5,
    0x983e5152ee66dfab, 0xa831c66d2db43210, 0xb00327c898fb213f, 0xbf597fc7beef0ee4,
    0xc6e00bf33da88fc2, 0xd5a79147930aa725, 0x06ca6351e003826f, 0x142929670a0e6e70,
    0x27b70a8546d22ffc, 0x2e1b21385c26c926, 0x4d2c6dfc5ac42aed, 0x53380d139d95b3df,
    0x650a73548baf63de, 0x766a0abb3c77b2a8, 0x81c2c92e47edaee6, 0x92722c851482353b,
    0xa2bfe8a14cf10364, 0xa81a664bbc423001, 0xc24b8b70d0f89791, 0xc76c51a30654be30,
    0xd192e819d6ef5218, 0xd69906245565a910, 0xf40e35855771202a, 0x106aa07032bbd1b8,
    0x19a4c116b8d2d0c8, 0x1e376c085141ab53, 0x2748774cdf8eeb99, 0x34b0bcb5e19b48a8,
    0x391c0cb3c5c95a63, 0x4ed8aa4ae3418acb, 0x5b9cca4f7763e373, 0x682e6ff3d6b2b8a3,
    0x748f82ee5defb2fc, 0x78a5636f43172f60, 0x84c87814a1f0ab72, 0x8cc702081a6439ec,
    0x90befffa23631e28, 0xa4506cebde82bde9, 0xbef9a3f7b2c67915, 0xc67178f2e372532b,
    0xca273eceea26619c, 0xd186b8c721c0c207, 0xeada7dd6cde0eb1e, 0xf57d4f7fee6ed178,
    0x06f067aa72176fba, 0x0a637dc5a2c898a6, 0x113f9804bef90dae, 0x1b710b35131c471b,
    0x28db77f523047d84, 0x32caab7b40c72493, 0x3c9ebe0a15c9bebc, 0x431d67c49c100d4c,
    0x4cc5d4becb3e42b6, 0x597f299cfc657e2a, 0x5fcb6fab3ad6faec, 0x6c44198c4a475817]

/-- The high half of a double word. -/
def highHalf (word : UInt64) : UInt32 :=
  (word >>> 32).toUInt32

/-- SHA-256: words of thirty-two bits and sixty-four rounds. -/
def short : Variant UInt32 where
  initial := squareRoots.map highHalf
  constants := (cubeRoots.take 64).map highHalf
  sumA := ⟨2, 13, 22⟩
  sumE := ⟨6, 11, 25⟩
  mixFifteen := ⟨7, 18, 3⟩
  mixTwo := ⟨17, 19, 10⟩

/-- SHA-512: words of sixty-four bits and eighty rounds. -/
def long : Variant UInt64 where
  initial := squareRoots
  constants := cubeRoots
  sumA := ⟨28, 34, 39⟩
  sumE := ⟨14, 18, 41⟩
  mixFifteen := ⟨1, 8, 7⟩
  mixTwo := ⟨19, 61, 6⟩

/-- The SHA-256 digest, thirty-two bytes. -/
def sha256 (message : Bytes) : Bytes :=
  digest short message

/-- The SHA-512 digest, sixty-four bytes. -/
def sha512 (message : Bytes) : Bytes :=
  digest long message

end CarSlice.Sha2
