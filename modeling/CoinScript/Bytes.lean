/-
Byte strings and the numbers they spell with the least significant byte first. Every byte string is
the writing of the number it spells in its own length.
-/

namespace CoinScript

/-- A byte string. -/
abbrev Bytes := List UInt8

namespace Bytes

/-! ## Little-endian numbers -/

/-- The number spelt by the bytes, least significant first. -/
def toNatLE : Bytes → Nat
  | [] => 0
  | b :: bs => b.toNat + 256 * toNatLE bs

/-- The low `width` bytes of a number, least significant first. -/
def ofNatLE : (width : Nat) → Nat → Bytes
  | 0, _ => []
  | width + 1, n => UInt8.ofNat n :: ofNatLE width (n / 256)

@[simp] theorem length_ofNatLE (width n : Nat) : (ofNatLE width n).length = width := by
  induction width generalizing n with
  | zero => rfl
  | succ width ih => simp [ofNatLE, ih]

theorem ofNatLE_toNatLE (bs : Bytes) : ofNatLE bs.length (toNatLE bs) = bs := by
  induction bs with
  | nil => rfl
  | cons b bs ih =>
    have hb := b.toNat_lt
    have hdiv : (b.toNat + 256 * toNatLE bs) / 256 = toNatLE bs := by omega
    simp only [List.length_cons, ofNatLE, toNatLE, hdiv, ih]
    congr 1
    rw [UInt8.ofNat_add, UInt8.ofNat_toNat, UInt8.ofNat_mul]
    simp

end Bytes

end CoinScript
