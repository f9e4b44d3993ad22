/-
SHA-1, a digest of twenty bytes with a hashing instruction of its own: words with the most
significant byte first, eighty rounds over five words of state.
-/
import CoinScript.Digest.Basic
import CoinScript.Digest.Block

namespace CoinScript.Digest.Sha1

/-- The five working words. -/
structure State where
  a : UInt32
  b : UInt32
  c : UInt32
  d : UInt32
  e : UInt32

/-- The words a message starts from. -/
def initial : State := ⟨0x67452301, 0xefcdab89, 0x98badcfe, 0x10325476, 0xc3d2e1f0⟩

/-- Stretches a block of sixteen words to eighty. -/
def schedule (block : List UInt32) : Array UInt32 :=
  (List.range 64).foldl
    (fun w i =>
      w.push (rotateUp (w.getD (i + 13) 0 ^^^ w.getD (i + 8) 0 ^^^ w.getD (i + 2) 0 ^^^ w.getD i 0) 1))
    block.toArray

/-- Choice, parity, majority, parity: the bit function of each group of twenty rounds, with the
constant of the group. -/
def groups : List ((UInt32 → UInt32 → UInt32 → UInt32) × UInt32) :=
  [(fun x y z => (x &&& y) ^^^ (~~~x &&& z), 0x5a827999),
   (fun x y z => x ^^^ y ^^^ z, 0x6ed9eba1),
   (fun x y z => (x &&& y) ^^^ (x &&& z) ^^^ (y &&& z), 0x8f1bbcdc),
   (fun x y z => x ^^^ y ^^^ z, 0xca62c1d6)]

/-- One round with its bit function, constant and schedule word. -/
def round (mix : UInt32 → UInt32 → UInt32 → UInt32) (k : UInt32) (s : State) (w : UInt32) : State :=
  ⟨rotateUp s.a 5 + mix s.b s.c s.d + s.e + k + w, s.a, rotateUp s.b 30, s.c, s.d⟩

/-- Runs the groups one after the other over the schedule words left to do. -/
def rounds (s : State) : List ((UInt32 → UInt32 → UInt32 → UInt32) × UInt32) → List UInt32 → State
  | [], _ => s
  | (mix, k) :: more, words => rounds ((words.take 20).foldl (round mix k) s) more (words.drop 20)

/-- Absorbs one block: all rounds, then the old words added back. -/
def compress (s : State) (block : List UInt32) : State :=
  let r := rounds s groups (schedule block).toList
  ⟨s.a + r.a, s.b + r.b, s.c + r.c, s.d + r.d, s.e + r.e⟩

/-- The words of the state, written out most significant byte first. -/
def State.digest (s : State) : Hash160 :=
  ⟨[s.a, s.b, s.c, s.d, s.e].flatMap ByteOrder.mostFirst.bytes, rfl⟩

/-- The digest of a message. -/
def hash (message : Bytes) : Hash160 :=
  (absorb .mostFirst compress initial (pad .mostFirst message)).digest

end CoinScript.Digest.Sha1
