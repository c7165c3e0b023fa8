import Cpos.ByteString

/-!
# SHA-256

The hash function of FIPS 180-4 on byte strings, executable. A message is
padded to whole 64-byte blocks, each block is expanded to a schedule of
64 words, and the eight-word state absorbs one block after another.

Two facts are all that programs above need: the digest always has 32
bytes (`sha256_length`), and `sha256` is a function. Nothing here says
that collisions are hard to find; a theorem that needs this takes it as
a hypothesis on the strings it hashes.
-/

namespace Sha256

open ByteString (Bytes)

/-- The round constants `K`. -/
def roundConstants : List UInt32 :=
  [0x428a2f98, 0x71374491, 0xb5c0fbcf, 0xe9b5dba5, 0x3956c25b, 0x59f111f1, 0x923f82a4, 0xab1c5ed5,
   0xd807aa98, 0x12835b01, 0x243185be, 0x550c7dc3, 0x72be5d74, 0x80deb1fe, 0x9bdc06a7, 0xc19bf174,
   0xe49b69c1, 0xefbe4786, 0x0fc19dc6, 0x240ca1cc, 0x2de92c6f, 0x4a7484aa, 0x5cb0a9dc, 0x76f988da,
   0x983e5152, 0xa831c66d, 0xb00327c8, 0xbf597fc7, 0xc6e00bf3, 0xd5a79147, 0x06ca6351, 0x14292967,
   0x27b70a85, 0x2e1b2138, 0x4d2c6dfc, 0x53380d13, 0x650a7354, 0x766a0abb, 0x81c2c92e, 0x92722c85,
   0xa2bfe8a1, 0xa81a664b, 0xc24b8b70, 0xc76c51a3, 0xd192e819, 0xd6990624, 0xf40e3585, 0x106aa070,
   0x19a4c116, 0x1e376c08, 0x2748774c, 0x34b0bcb5, 0x391c0cb3, 0x4ed8aa4a, 0x5b9cca4f, 0x682e6ff3,
   0x748f82ee, 0x78a5636f, 0x84c87814, 0x8cc70208, 0x90befffa, 0xa4506ceb, 0xbef9a3f7, 0xc67178f2]

/-- The eight chaining words. -/
structure Words where
  a : UInt32
  b : UInt32
  c : UInt32
  d : UInt32
  e : UInt32
  f : UInt32
  g : UInt32
  h : UInt32

def initial : Words where
  a := 0x6a09e667
  b := 0xbb67ae85
  c := 0x3c6ef372
  d := 0xa54ff53a
  e := 0x510e527f
  f := 0x9b05688c
  g := 0x1f83d9ab
  h := 0x5be0cd19

def rotr (x n : UInt32) : UInt32 := (x >>> n) ||| (x <<< (32 - n))

def round (s : Words) (kw : UInt32 × UInt32) : Words :=
  let bigSigma1 := rotr s.e 6 ^^^ rotr s.e 11 ^^^ rotr s.e 25
  let ch := (s.e &&& s.f) ^^^ (~~~s.e &&& s.g)
  let t1 := s.h + bigSigma1 + ch + kw.1 + kw.2
  let bigSigma0 := rotr s.a 2 ^^^ rotr s.a 13 ^^^ rotr s.a 22
  let maj := (s.a &&& s.b) ^^^ (s.a &&& s.c) ^^^ (s.b &&& s.c)
  ⟨t1 + (bigSigma0 + maj), s.a, s.b, s.c, s.d + t1, s.e, s.f, s.g⟩

/-- The message schedule, from a window that always holds the next 16
words: one word leaves in front, its successor in the recurrence enters
behind, `n` times; then the window itself is the rest. -/
def schedule : Nat → List UInt32 → List UInt32
  | 0, window => window
  | _ + 1, [] => []
  | n + 1, w0 :: rest =>
      let w1 := rest.getD 0 0
      let w9 := rest.getD 8 0
      let w14 := rest.getD 13 0
      let sigma0 := rotr w1 7 ^^^ rotr w1 18 ^^^ (w1 >>> 3)
      let sigma1 := rotr w14 17 ^^^ rotr w14 19 ^^^ (w14 >>> 10)
      w0 :: schedule n (rest ++ [w0 + sigma0 + w9 + sigma1])

def compress (s : Words) (block : List UInt32) : Words :=
  let r := (roundConstants.zip (schedule 48 block)).foldl round s
  ⟨s.a + r.a, s.b + r.b, s.c + r.c, s.d + r.d, s.e + r.e, s.f + r.f, s.g + r.g, s.h + r.h⟩

/-- Big-endian 32-bit words; a tail of fewer than four bytes is dropped
(there is none after padding). -/
def bytesToWords : Bytes → List UInt32
  | a :: b :: c :: d :: rest =>
      (a.toUInt32 <<< 24 ||| b.toUInt32 <<< 16 ||| c.toUInt32 <<< 8 ||| d.toUInt32)
        :: bytesToWords rest
  | _ => []

def wordToBytes (x : UInt32) : Bytes :=
  [(x >>> 24).toUInt8, (x >>> 16).toUInt8, (x >>> 8).toUInt8, x.toUInt8]

/-- The length in bits, as eight big-endian bytes. -/
def lengthField (m : Bytes) : Bytes :=
  (List.range 8).map fun i => UInt8.ofNat (8 * m.length / 256 ^ (7 - i) % 256)

def pad (m : Bytes) : Bytes :=
  m ++ 0x80 :: List.replicate ((119 - m.length % 64) % 64) 0 ++ lengthField m

/-- Absorbs `n` blocks of 16 words. -/
def absorb : Nat → Words → List UInt32 → Words
  | 0, s, _ => s
  | n + 1, s, ws => absorb n (compress s (ws.take 16)) (ws.drop 16)

/-- `sha256(m).digest()`. -/
def sha256 (m : Bytes) : Bytes :=
  let ws := bytesToWords (pad m)
  let s := absorb (ws.length / 16) initial ws
  wordToBytes s.a ++ wordToBytes s.b ++ wordToBytes s.c ++ wordToBytes s.d
    ++ wordToBytes s.e ++ wordToBytes s.f ++ wordToBytes s.g ++ wordToBytes s.h

@[simp] theorem sha256_length (m : Bytes) : (sha256 m).length = 32 := by
  simp [sha256, wordToBytes]

theorem sha256_ne_nil (m : Bytes) : sha256 m ≠ [] := fun h => by
  simpa [h] using sha256_length m

/-- The one-block test vector, the message `abc`. -/
example : ByteString.hex (sha256 [0x61, 0x62, 0x63]) =
    "ba7816bf8f01cfea414140de5dae2223b00361a396177a9cb410ff61f20015ad".toList := by
  decide +kernel

end Sha256
