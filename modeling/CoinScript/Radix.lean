/-
Numbers as digits of a base, least significant first, and the change of base by Horner's rule: a
number is read digit by digit in its old base while its digits in the new base are multiplied by the
old base and the next digit is added, with a carry from place to place. The sum of a place is taken in
a word of thirty-two bits and a digit is kept in a byte, so bases go up to 256.
-/
import CoinScript.Bytes

namespace CoinScript.Radix

/-- The last digit of a number, kept in a byte. -/
def lastDigit (base sum : UInt32) : UInt8 := (sum % base).toUInt8

/-- A carry behind the last place, and what is left of it each time that a digit is split off, until
nothing is. A base below two splits nothing off. -/
def leftovers (base carry : UInt32) : List UInt32 :=
  if carry = 0 ∨ base < 2 then [] else carry :: leftovers base (carry / base)
termination_by carry.toNat
decreasing_by
  rename_i h
  simp only [not_or, UInt32.not_lt, UInt32.le_iff_toNat_le] at h
  have hpos : carry.toNat ≠ 0 := fun hzero => h.1 (UInt32.toNat_inj.1 hzero)
  rw [UInt32.toNat_div]
  exact Nat.div_lt_self (by omega) h.2

/-- The digits of `factor` times the number that the digits spell, plus the carry. -/
def mulAdd (base factor : UInt32) : (digits : Bytes) → (carry : UInt32) → Bytes
  | [], carry => (leftovers base carry).map (lastDigit base)
  | d :: ds, carry =>
    let sum := d.toUInt32 * factor + carry
    lastDigit base sum :: mulAdd base factor ds (sum / base)

/-- The digits in base `target` of a number given by its digits in base `source`, most significant
first. -/
def convert (source target : UInt32) (mostFirst : Bytes) : Bytes :=
  mostFirst.foldl (fun ds d => mulAdd target source ds d.toUInt32) []

end CoinScript.Radix
