/-
SHA-256, the digest of thirty-two bytes that most commitments start from: words with the most
significant byte first, sixty-four rounds over eight words of state.
-/
import CoinScript.Digest.Basic
import CoinScript.Digest.Block

namespace CoinScript.Digest.Sha256

/-- The eight working words. -/
structure State where
  a : UInt32
  b : UInt32
  c : UInt32
  d : UInt32
  e : UInt32
  f : UInt32
  g : UInt32
  h : UInt32

/-- The first thirty-two bits of the fractional parts of the square roots of the first eight primes. -/
def initial : State :=
  ⟨0x6a09e667, 0xbb67ae85, 0x3c6ef372, 0xa54ff53a,
   0x510e527f, 0x9b05688c, 0x1f83d9ab, 0x5be0cd19⟩

/-- The first thirty-two bits of the fractional parts of the cube roots of the first sixty-four
primes. -/
def roundConstants : List UInt32 :=
  [0x428a2f98, 0x71374491, 0xb5c0fbcf, 0xe9b5dba5, 0x3956c25b, 0x59f111f1, 0x923f82a4, 0xab1c5ed5,
   0xd807aa98, 0x12835b01, 0x243185be, 0x550c7dc3, 0x72be5d74, 0x80deb1fe, 0x9bdc06a7, 0xc19bf174,
   0xe49b69c1, 0xefbe4786, 0x0fc19dc6, 0x240ca1cc, 0x2de92c6f, 0x4a7484aa, 0x5cb0a9dc, 0x76f988da,
   0x983e5152, 0xa831c66d, 0xb00327c8, 0xbf597fc7, 0xc6e00bf3, 0xd5a79147, 0x06ca6351, 0x14292967,
   0x27b70a85, 0x2e1b2138, 0x4d2c6dfc, 0x53380d13, 0x650a7354, 0x766a0abb, 0x81c2c92e, 0x92722c85,
   0xa2bfe8a1, 0xa81a664b, 0xc24b8b70, 0xc76c51a3, 0xd192e819, 0xd6990624, 0xf40e3585, 0x106aa070,
   0x19a4c116, 0x1e376c08, 0x2748774c, 0x34b0bcb5, 0x391c0cb3, 0x4ed8aa4a, 0x5b9cca4f, 0x682e6ff3,
   0x748f82ee, 0x78a5636f, 0x84c87814, 0x8cc70208, 0x90befffa, 0xa4506ceb, 0xbef9a3f7, 0xc67178f2]

/-- Stretches a block of sixteen words to sixty-four. -/
def schedule (block : List UInt32) : Array UInt32 :=
  (List.range 48).foldl
    (fun w i =>
      let early := w.getD (i + 1) 0
      let late := w.getD (i + 14) 0
      let mixEarly := rotateDown early 7 ^^^ rotateDown early 18 ^^^ early >>> 3
      let mixLate := rotateDown late 17 ^^^ rotateDown late 19 ^^^ late >>> 10
      w.push (w.getD i 0 + mixEarly + w.getD (i + 9) 0 + mixLate))
    block.toArray

/-- One round with its round constant and schedule word. -/
def round (s : State) (k w : UInt32) : State :=
  let choose := (s.e &&& s.f) ^^^ (~~~s.e &&& s.g)
  let majority := (s.a &&& s.b) ^^^ (s.a &&& s.c) ^^^ (s.b &&& s.c)
  let mixE := rotateDown s.e 6 ^^^ rotateDown s.e 11 ^^^ rotateDown s.e 25
  let mixA := rotateDown s.a 2 ^^^ rotateDown s.a 13 ^^^ rotateDown s.a 22
  let t := s.h + mixE + choose + k + w
  ⟨t + mixA + majority, s.a, s.b, s.c, s.d + t, s.e, s.f, s.g⟩

/-- Absorbs one block: all rounds, then the old words added back. -/
def compress (s : State) (block : List UInt32) : State :=
  let r := (roundConstants.zip (schedule block).toList).foldl (fun s kw => round s kw.1 kw.2) s
  ⟨s.a + r.a, s.b + r.b, s.c + r.c, s.d + r.d, s.e + r.e, s.f + r.f, s.g + r.g, s.h + r.h⟩

/-- The words of the state, written out most significant byte first. -/
def State.digest (s : State) : Hash256 :=
  ⟨[s.a, s.b, s.c, s.d, s.e, s.f, s.g, s.h].flatMap ByteOrder.mostFirst.bytes, rfl⟩

/-- The digest of a message. -/
def hash (message : Bytes) : Hash256 :=
  (absorb .mostFirst compress initial (pad .mostFirst message)).digest

end CoinScript.Digest.Sha256
