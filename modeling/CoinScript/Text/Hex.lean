/-
Hexadecimal text. Writing gives two lower-case digits a byte; reading takes either case and refuses
an odd number of characters and every character that is no digit. What is written reads back.
-/
import CoinScript.Bytes

namespace CoinScript.Hex

/-! ## Writing -/

/-- The two lower-case digits of a byte. -/
def byteChars (b : UInt8) : List Char := [Nat.digitChar (b.toNat / 16), Nat.digitChar (b.toNat % 16)]

/-- Two digits a byte, in order. -/
def encodeChars (bs : Bytes) : List Char := bs.flatMap byteChars

/-- The hexadecimal text of a byte string. -/
def encode (bs : Bytes) : String := String.ofList (encodeChars bs)

/-- A byte after `0x`, in two digits. -/
def ofByte (b : UInt8) : String := "0x" ++ encode [b]

/-! ## Reading -/

/-- The value of a digit of either case. -/
def digitValue? (c : Char) : Option Nat :=
  if '0' ≤ c ∧ c ≤ '9' then some (c.toNat - '0'.toNat)
  else if 'a' ≤ c ∧ c ≤ 'f' then some (c.toNat - 'a'.toNat + 10)
  else if 'A' ≤ c ∧ c ≤ 'F' then some (c.toNat - 'A'.toNat + 10)
  else none

/-- Reads pairs of digits; `done` holds the bytes read so far, newest first. -/
def decodeChars (done : Bytes) : List Char → Option Bytes
  | [] => some done.reverse
  | [_] => none
  | high :: low :: rest =>
    match digitValue? high, digitValue? low with
    | some h, some l => decodeChars (UInt8.ofNat (16 * h + l) :: done) rest
    | _, _ => none

/-- The bytes that a hexadecimal text spells. -/
def decode? (text : String) : Option Bytes := decodeChars [] text.toList

/-! ## What is written reads back -/

theorem digitValue?_digitChar : ∀ n < 16, digitValue? (Nat.digitChar n) = some n := by
  decide

@[simp] theorem encodeChars_nil : encodeChars [] = [] := rfl

theorem encodeChars_cons (b : UInt8) (bs : Bytes) :
    encodeChars (b :: bs) =
      Nat.digitChar (b.toNat / 16) :: Nat.digitChar (b.toNat % 16) :: encodeChars bs := rfl

theorem decodeChars_encodeChars (bs done : Bytes) :
    decodeChars done (encodeChars bs) = some (done.reverse ++ bs) := by
  induction bs generalizing done with
  | nil => simp [encodeChars, decodeChars]
  | cons b bs ih =>
    have hb := b.toNat_lt
    have hsum : 16 * (b.toNat / 16) + b.toNat % 16 = b.toNat := by omega
    simp only [encodeChars_cons, decodeChars, digitValue?_digitChar _ (show b.toNat / 16 < 16 by omega),
      digitValue?_digitChar _ (show b.toNat % 16 < 16 by omega), hsum, UInt8.ofNat_toNat, ih]
    simp

/-- What is written reads back. -/
theorem decode?_encode (bs : Bytes) : decode? (encode bs) = some bs := by
  simp [decode?, encode, decodeChars_encodeChars]

end CoinScript.Hex
