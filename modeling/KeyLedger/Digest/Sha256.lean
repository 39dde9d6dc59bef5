/-!
# SHA-256

The digest as a function on byte lists. The message is padded to whole blocks of sixteen 32-bit
words, each block is expanded into sixty-four words, and the words are fed one after another, with
their round constants, into eight working registers. All arithmetic is modulo `2 ^ 32`.

## Main definitions

* `pad` — the message with its padding
* `schedule` — the sixty-four words of a block
* `compress` — one block fed into the chaining value
* `digest` — the thirty-two bytes of the hash
-/

namespace KeyLedger.Digest.Sha256

/-- The eight 32-bit words of a chaining value, which are also the working registers. -/
structure Registers where
  /-- First register. -/
  a : UInt32
  /-- Second register. -/
  b : UInt32
  /-- Third register. -/
  c : UInt32
  /-- Fourth register. -/
  d : UInt32
  /-- Fifth register. -/
  e : UInt32
  /-- Sixth register. -/
  f : UInt32
  /-- Seventh register. -/
  g : UInt32
  /-- Eighth register. -/
  h : UInt32
deriving DecidableEq, Repr

/-- The fractional parts of the square roots of the first eight primes. -/
def initial : Registers :=
  ⟨0x6a09e667, 0xbb67ae85, 0x3c6ef372, 0xa54ff53a, 0x510e527f, 0x9b05688c, 0x1f83d9ab, 0x5be0cd19⟩

/-- The fractional parts of the cube roots of the first sixty-four primes. -/
def roundConstants : List UInt32 :=
  [0x428a2f98, 0x71374491, 0xb5c0fbcf, 0xe9b5dba5, 0x3956c25b, 0x59f111f1, 0x923f82a4, 0xab1c5ed5,
   0xd807aa98, 0x12835b01, 0x243185be, 0x550c7dc3, 0x72be5d74, 0x80deb1fe, 0x9bdc06a7, 0xc19bf174,
   0xe49b69c1, 0xefbe4786, 0x0fc19dc6, 0x240ca1cc, 0x2de92c6f, 0x4a7484aa, 0x5cb0a9dc, 0x76f988da,
   0x983e5152, 0xa831c66d, 0xb00327c8, 0xbf597fc7, 0xc6e00bf3, 0xd5a79147, 0x06ca6351, 0x14292967,
   0x27b70a85, 0x2e1b2138, 0x4d2c6dfc, 0x53380d13, 0x650a7354, 0x766a0abb, 0x81c2c92e, 0x92722c85,
   0xa2bfe8a1, 0xa81a664b, 0xc24b8b70, 0xc76c51a3, 0xd192e819, 0xd6990624, 0xf40e3585, 0x106aa070,
   0x19a4c116, 0x1e376c08, 0x2748774c, 0x34b0bcb5, 0x391c0cb3, 0x4ed8aa4a, 0x5b9cca4f, 0x682e6ff3,
   0x748f82ee, 0x78a5636f, 0x84c87814, 0x8cc70208, 0x90befffa, 0xa4506ceb, 0xbef9a3f7, 0xc67178f2]

/-! ### Words and blocks -/

/-- The `count` low bytes of `n`, most significant first. -/
def bigEndian (count n : Nat) : List UInt8 :=
  (List.range count).reverse.map fun i => UInt8.ofNat (n >>> (8 * i))

/-- The message, a one bit, zeros up to eight bytes short of a block, and the length in bits. -/
def pad (message : List UInt8) : List UInt8 :=
  let zeros := (119 - message.length % 64) % 64
  message ++ 0x80 :: List.replicate zeros 0 ++ bigEndian 8 (8 * message.length)

/-- Groups of four bytes as words, most significant byte first. -/
def words : List UInt8 → List UInt32
  | w :: x :: y :: z :: rest =>
    (w.toUInt32 <<< 24 ||| x.toUInt32 <<< 16 ||| y.toUInt32 <<< 8 ||| z.toUInt32) :: words rest
  | _ => []

/-- The first `count` groups of sixteen words. -/
def blocks : Nat → List UInt32 → List (List UInt32)
  | 0, _ => []
  | count + 1, ws => ws.take 16 :: blocks count (ws.drop 16)

/-! ### Compression -/

/-- Rotation towards the low end. -/
def rotateRight (x : UInt32) (n : UInt32) : UInt32 :=
  x >>> n ||| x <<< (32 - n)

/-- The word that follows a window of sixteen. -/
def nextWord (window : List UInt32) : UInt32 :=
  let x := window.getD 1 0
  let y := window.getD 14 0
  let s0 := rotateRight x 7 ^^^ rotateRight x 18 ^^^ x >>> 3
  let s1 := rotateRight y 17 ^^^ rotateRight y 19 ^^^ y >>> 10
  window.getD 0 0 + s0 + window.getD 9 0 + s1

/-- `count` words, sliding the window along by one each time. -/
def expand : Nat → List UInt32 → List UInt32
  | 0, _ => []
  | count + 1, window => window.headD 0 :: expand count (window.tail ++ [nextWord window])

/-- The sixty-four words of a block. -/
def schedule (block : List UInt32) : List UInt32 :=
  expand 64 block

/-- One round, for a word and its constant. -/
def round (r : Registers) (constant word : UInt32) : Registers :=
  let s1 := rotateRight r.e 6 ^^^ rotateRight r.e 11 ^^^ rotateRight r.e 25
  let choice := (r.e &&& r.f) ^^^ ((~~~ r.e) &&& r.g)
  let t1 := r.h + s1 + choice + constant + word
  let s0 := rotateRight r.a 2 ^^^ rotateRight r.a 13 ^^^ rotateRight r.a 22
  let majority := (r.a &&& r.b) ^^^ (r.a &&& r.c) ^^^ (r.b &&& r.c)
  ⟨t1 + (s0 + majority), r.a, r.b, r.c, r.d + t1, r.e, r.f, r.g⟩

/-- The sum of two chaining values, word by word. -/
def Registers.add (r s : Registers) : Registers :=
  ⟨r.a + s.a, r.b + s.b, r.c + s.c, r.d + s.d, r.e + s.e, r.f + s.f, r.g + s.g, r.h + s.h⟩

/-- One block fed into the chaining value. -/
def compress (r : Registers) (block : List UInt32) : Registers :=
  r.add ((roundConstants.zip (schedule block)).foldl (fun s kw => round s kw.1 kw.2) r)

/-- The words of a chaining value, first register first. -/
def Registers.toList (r : Registers) : List UInt32 :=
  [r.a, r.b, r.c, r.d, r.e, r.f, r.g, r.h]

/-- The thirty-two bytes of the hash of a message. -/
def digest (message : List UInt8) : List UInt8 :=
  let padded := pad message
  let final := (blocks (padded.length / 64) (words padded)).foldl compress initial
  final.toList.flatMap fun w => bigEndian 4 w.toNat

end KeyLedger.Digest.Sha256
