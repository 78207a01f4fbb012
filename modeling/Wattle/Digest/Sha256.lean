/-!
# SHA-256

The digest of a text in its UTF-8 form, as hexadecimal digits.  The message is followed by a byte
`0x80`, zeros, and its length in bits, up to a whole number of blocks of 64 bytes; every block is
mixed into eight words.
-/

namespace Wattle.Sha256

-- powers of numbers are those of the core library, whatever else is imported
attribute [instance (20000), default_instance 20000] instPowNat

/-! ### the padded message -/

/-- the number of blocks of a padded message -/
def blockCount (size : Nat) : Nat := (size + 8) / 64 + 1

/-- a byte of the padded message -/
def byteAt (message : ByteArray) (i : Nat) : UInt8 :=
  if h : i < message.size then message[i]
  else if i = message.size then 0x80
  else
    let behind := 64 * blockCount message.size - 1 - i
    if behind < 8 then UInt8.ofNat (8 * message.size / 256 ^ behind) else 0

/-- a word of the padded message, the first byte being the highest -/
def wordAt (message : ByteArray) (i : Nat) : UInt32 :=
  (byteAt message (4 * i)).toUInt32 <<< 24 ||| (byteAt message (4 * i + 1)).toUInt32 <<< 16 |||
    (byteAt message (4 * i + 2)).toUInt32 <<< 8 ||| (byteAt message (4 * i + 3)).toUInt32

/-! ### mixing -/

/-- the fractions of the cube roots of the first 64 primes -/
def roundConstants : List UInt32 := [
  0x428a2f98, 0x71374491, 0xb5c0fbcf, 0xe9b5dba5, 0x3956c25b, 0x59f111f1, 0x923f82a4, 0xab1c5ed5,
  0xd807aa98, 0x12835b01, 0x243185be, 0x550c7dc3, 0x72be5d74, 0x80deb1fe, 0x9bdc06a7, 0xc19bf174,
  0xe49b69c1, 0xefbe4786, 0x0fc19dc6, 0x240ca1cc, 0x2de92c6f, 0x4a7484aa, 0x5cb0a9dc, 0x76f988da,
  0x983e5152, 0xa831c66d, 0xb00327c8, 0xbf597fc7, 0xc6e00bf3, 0xd5a79147, 0x06ca6351, 0x14292967,
  0x27b70a85, 0x2e1b2138, 0x4d2c6dfc, 0x53380d13, 0x650a7354, 0x766a0abb, 0x81c2c92e, 0x92722c85,
  0xa2bfe8a1, 0xa81a664b, 0xc24b8b70, 0xc76c51a3, 0xd192e819, 0xd6990624, 0xf40e3585, 0x106aa070,
  0x19a4c116, 0x1e376c08, 0x2748774c, 0x34b0bcb5, 0x391c0cb3, 0x4ed8aa4a, 0x5b9cca4f, 0x682e6ff3,
  0x748f82ee, 0x78a5636f, 0x84c87814, 0x8cc70208, 0x90befffa, 0xa4506ceb, 0xbef9a3f7, 0xc67178f2]

def rotateRight (x : UInt32) (n : UInt32) : UInt32 := x >>> n ||| x <<< (32 - n)

structure State where
  a : UInt32
  b : UInt32
  c : UInt32
  d : UInt32
  e : UInt32
  f : UInt32
  g : UInt32
  h : UInt32

namespace State

/-- the fractions of the square roots of the first eight primes -/
def initial : State :=
  ⟨0x6a09e667, 0xbb67ae85, 0x3c6ef372, 0xa54ff53a, 0x510e527f, 0x9b05688c, 0x1f83d9ab, 0x5be0cd19⟩

def add (s t : State) : State :=
  ⟨s.a + t.a, s.b + t.b, s.c + t.c, s.d + t.d, s.e + t.e, s.f + t.f, s.g + t.g, s.h + t.h⟩

/-- one round, with the sum of a constant and a word of the schedule -/
def round (s : State) (k : UInt32) : State :=
  let s1 := rotateRight s.e 6 ^^^ rotateRight s.e 11 ^^^ rotateRight s.e 25
  let choice := (s.e &&& s.f) ^^^ ((~~~ s.e) &&& s.g)
  let t1 := s.h + s1 + choice + k
  let s0 := rotateRight s.a 2 ^^^ rotateRight s.a 13 ^^^ rotateRight s.a 22
  let majority := (s.a &&& s.b) ^^^ (s.a &&& s.c) ^^^ (s.b &&& s.c)
  ⟨t1 + (s0 + majority), s.a, s.b, s.c, s.d + t1, s.e, s.f, s.g⟩

def words (s : State) : List UInt32 := [s.a, s.b, s.c, s.d, s.e, s.f, s.g, s.h]

end State

/-- the word that follows `w` in the schedule -/
def nextWord (w : Array UInt32) : UInt32 :=
  let ago (back : Nat) : UInt32 := w.getD (w.size - back) 0
  let s0 := rotateRight (ago 15) 7 ^^^ rotateRight (ago 15) 18 ^^^ ago 15 >>> 3
  let s1 := rotateRight (ago 2) 17 ^^^ rotateRight (ago 2) 19 ^^^ ago 2 >>> 10
  ago 16 + s0 + ago 7 + s1

/-- a schedule with `n` more words -/
def extend : Nat → Array UInt32 → Array UInt32
  | 0, w => w
  | n + 1, w => extend n (w.push (nextWord w))

/-- the words of a block, and the words made of them, one for each round -/
def schedule (message : ByteArray) (block : Nat) : Array UInt32 :=
  extend 48 (Array.ofFn fun i : Fin 16 => wordAt message (16 * block + i.val))

def compress (message : ByteArray) (s : State) (block : Nat) : State :=
  s.add ((List.zipWith (· + ·) roundConstants (schedule message block).toList).foldl State.round s)

/-! ### the digest -/

def digest (message : ByteArray) : List UInt32 :=
  ((List.range (blockCount message.size)).foldl (compress message) .initial).words

/-- eight hexadecimal digits, the highest first -/
def hexWord (w : UInt32) : List Char :=
  [28, 24, 20, 16, 12, 8, 4, 0].map fun n => Nat.digitChar (w.toNat / 2 ^ n % 16)

/-- the digest of a text as hexadecimal digits -/
def hex (s : String) : String := String.ofList ((digest s.toUTF8).flatMap hexWord)

end Wattle.Sha256
