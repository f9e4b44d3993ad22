/-
RIPEMD-160, the digest of twenty bytes behind hash templates: words with the least significant byte
first, two lines of eighty steps that read the same block in different orders, and a crosswise sum at
the end.
-/
import CoinScript.Digest.Basic
import CoinScript.Digest.Block

namespace CoinScript.Digest.Ripemd160

/-- The five working words. -/
structure State where
  a : UInt32
  b : UInt32
  c : UInt32
  d : UInt32
  e : UInt32

/-- The words a message starts from. -/
def initial : State := ⟨0x67452301, 0xefcdab89, 0x98badcfe, 0x10325476, 0xc3d2e1f0⟩

/-! ## The two lines -/

/-- The bit function of each group of sixteen steps, first group to last. -/
def mixers : List (UInt32 → UInt32 → UInt32 → UInt32) :=
  [fun x y z => x ^^^ y ^^^ z,
   fun x y z => (x &&& y) ||| (~~~x &&& z),
   fun x y z => (x ||| ~~~y) ^^^ z,
   fun x y z => (x &&& z) ||| (y &&& ~~~z),
   fun x y z => x ^^^ (y ||| ~~~z)]

/-- A line of steps: for each step the word it reads and how far it rotates, for each group of
sixteen steps its constant and its bit function. -/
structure Line where
  reads : List Nat
  turns : List UInt32
  constants : List UInt32
  mixers : List (UInt32 → UInt32 → UInt32 → UInt32)

/-- The left line: constants from the square roots of 2, 3, 5 and 7. -/
def left : Line where
  reads :=
   [0, 1, 2, 3, 4, 5, 6, 7, 8, 9, 10, 11, 12, 13, 14, 15,
   7, 4, 13, 1, 10, 6, 15, 3, 12, 0, 9, 5, 2, 14, 11, 8,
   3, 10, 14, 4, 9, 15, 8, 1, 2, 7, 0, 6, 13, 11, 5, 12,
   1, 9, 11, 10, 0, 8, 12, 4, 13, 3, 7, 15, 14, 5, 6, 2,
   4, 0, 5, 9, 7, 12, 2, 10, 14, 1, 3, 8, 11, 6, 15, 13]
  turns :=
   [11, 14, 15, 12, 5, 8, 7, 9, 11, 13, 14, 15, 6, 7, 9, 8,
   7, 6, 8, 13, 11, 9, 7, 15, 7, 12, 15, 9, 11, 7, 13, 12,
   11, 13, 6, 7, 14, 9, 13, 15, 14, 8, 13, 6, 5, 12, 7, 5,
   11, 12, 14, 15, 14, 15, 9, 8, 9, 14, 5, 6, 8, 6, 5, 12,
   9, 15, 5, 11, 6, 8, 13, 12, 5, 12, 13, 14, 11, 8, 5, 6]
  constants := [0x00000000, 0x5a827999, 0x6ed9eba1, 0x8f1bbcdc, 0xa953fd4e]
  mixers := mixers

/-- The right line: constants from the cube roots of 2, 3, 5 and 7, bit functions in reverse. -/
def right : Line where
  reads :=
   [5, 14, 7, 0, 9, 2, 11, 4, 13, 6, 15, 8, 1, 10, 3, 12,
   6, 11, 3, 7, 0, 13, 5, 10, 14, 15, 8, 12, 4, 9, 1, 2,
   15, 5, 1, 3, 7, 14, 6, 9, 11, 8, 12, 2, 10, 0, 4, 13,
   8, 6, 4, 1, 3, 11, 15, 0, 5, 12, 2, 13, 9, 7, 10, 14,
   12, 15, 10, 4, 1, 5, 8, 7, 6, 2, 13, 14, 0, 3, 9, 11]
  turns :=
   [8, 9, 9, 11, 13, 15, 15, 5, 7, 7, 8, 11, 14, 14, 12, 6,
   9, 13, 15, 7, 12, 8, 9, 11, 7, 7, 12, 7, 6, 15, 13, 11,
   9, 7, 15, 11, 8, 6, 6, 14, 12, 13, 5, 14, 13, 13, 7, 5,
   15, 5, 8, 11, 14, 14, 6, 14, 6, 9, 12, 9, 12, 5, 15, 8,
   8, 5, 12, 9, 12, 5, 14, 6, 8, 13, 6, 5, 15, 13, 11, 11]
  constants := [0x50a28be6, 0x5c4dd124, 0x6d703ef3, 0x7a6d76e9, 0x00000000]
  mixers := mixers.reverse

/-- One step with its bit function, constant, word and rotation. -/
def step (mix : UInt32 → UInt32 → UInt32 → UInt32) (k : UInt32) (s : State) (word turn : UInt32) : State :=
  ⟨s.e, rotateUp (s.a + mix s.b s.c s.d + word + k) turn + s.e, s.b, rotateUp s.c 10, s.d⟩

/-- Runs the groups of a line one after the other over the steps left to do. -/
def Line.groups (s : State) :
    List ((UInt32 → UInt32 → UInt32 → UInt32) × UInt32) → List (UInt32 × UInt32) → State
  | [], _ => s
  | (mix, k) :: more, steps =>
    Line.groups ((steps.take 16).foldl (fun s wt => step mix k s wt.1 wt.2) s) more (steps.drop 16)

/-- Runs a whole line on a block. -/
def Line.run (line : Line) (s : State) (block : List UInt32) : State :=
  Line.groups s (line.mixers.zip line.constants) ((line.reads.map fun i => block.getD i 0).zip line.turns)

/-! ## The digest -/

/-- Absorbs one block: both lines, then their words added crosswise to the old ones. -/
def compress (s : State) (block : List UInt32) : State :=
  let l := left.run s block
  let r := right.run s block
  ⟨s.b + l.c + r.d, s.c + l.d + r.e, s.d + l.e + r.a, s.e + l.a + r.b, s.a + l.b + r.c⟩

/-- The words of the state, written out least significant byte first. -/
def State.digest (s : State) : Hash160 :=
  ⟨[s.a, s.b, s.c, s.d, s.e].flatMap ByteOrder.leastFirst.bytes, rfl⟩

/-- The digest of a message. -/
def hash (message : Bytes) : Hash160 :=
  (absorb .leastFirst compress initial (pad .leastFirst message)).digest

end CoinScript.Digest.Ripemd160
