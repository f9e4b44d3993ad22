/-
Numbers and truth values on the stack. A number is written least significant byte first with its
sign in the top bit of the last byte, in the fewest bytes that leave that bit free, and zero in none;
a number is read from at most four bytes. A byte string is false when all its bytes are zero, the
sign of the last one aside.
-/
import CoinScript.Bytes

namespace CoinScript

namespace Number

/-- The most bytes that a number is read from. -/
def maxSize : Nat := 4

/-- The bytes that a nonzero magnitude needs with a bit to spare for the sign. -/
def width (magnitude : Nat) : Nat := (magnitude.log2 + 1) / 8 + 1

/-- The bytes of a number. -/
def encode (v : Int) : Bytes :=
  if v = 0 then []
  else
    let w := width v.natAbs
    Bytes.ofNatLE w (v.natAbs + if v < 0 then 1 <<< (8 * w - 1) else 0)

/-- The number that bytes spell, however many they are. -/
def value (bs : Bytes) : Int :=
  let n := Bytes.toNatLE bs
  let sign := 1 <<< (8 * bs.length - 1)
  if sign ≤ n then -((n - sign : Nat) : Int) else n

/-- The number that at most four bytes spell. -/
def decode? (bs : Bytes) : Option Int :=
  if bs.length ≤ maxSize then some (value bs) else none

end Number

namespace Truth

/-- The bytes of a truth value: those of one and zero. -/
def encode : Bool → Bytes
  | true => [1]
  | false => []

/-- Some byte is not zero, the sign of the last one aside. -/
def ofBytes : Bytes → Bool
  | [] => false
  | [b] => b != 0 && b != 0x80
  | b :: bs => b != 0 || ofBytes bs

end Truth

end CoinScript
