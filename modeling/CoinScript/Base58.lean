/-
Text over an alphabet of fifty-eight characters that leaves out those that look alike. A byte string
is read as one number and written in base 58; the zero bytes in front, which the number forgets, are
written as as many first characters of the alphabet.
-/
import CoinScript.Bytes
import CoinScript.Radix

namespace CoinScript.Base58

/-- The characters for the digits 0 to 57. -/
def alphabet : List Char :=
  "123456789ABCDEFGHJKLMNPQRSTUVWXYZabcdefghijkmnopqrstuvwxyz".toList

/-- The character of a digit. -/
def charOfDigit (d : UInt8) : Char := alphabet.getD d.toNat '1'

/-- The digit of a character. -/
def digitOfChar? (c : Char) : Option UInt8 := (alphabet.idxOf? c).map Nat.toUInt8

/-- The text of a byte string. -/
def encode (bs : Bytes) : String :=
  let zeros := (bs.takeWhile (· == 0)).length
  let digits := Radix.convert 256 58 bs
  String.ofList (List.replicate zeros '1' ++ digits.reverse.map charOfDigit)

/-- The byte string that a text spells; none if a character is not of the alphabet. -/
def decode? (text : String) : Option Bytes :=
  match text.toList.mapM digitOfChar? with
  | none => none
  | some digits =>
    let zeros := (digits.takeWhile (· == 0)).length
    let bytes := Radix.convert 58 256 digits
    some (List.replicate zeros 0 ++ bytes.reverse)

theorem length_alphabet : alphabet.length = 58 := by decide

theorem nodup_alphabet : alphabet.Nodup := by decide +kernel

/-- Each digit has a character of its own. -/
theorem digitOfChar?_charOfDigit {d : UInt8} (hd : d < 58) : digitOfChar? (charOfDigit d) = some d := by
  have hlen : d.toNat < alphabet.length := by
    rw [length_alphabet]
    exact UInt8.lt_iff_toNat_lt.1 hd
  have hchar : charOfDigit d = alphabet[d.toNat] := by
    rw [charOfDigit, List.getD_eq_getElem?_getD, List.getElem?_eq_getElem hlen, Option.getD_some]
  have hindex : alphabet.idxOf? alphabet[d.toNat] = some d.toNat := by
    refine List.idxOf?_eq_some_iff.2 ⟨hlen, rfl, fun j hj => ?_⟩
    exact List.pairwise_iff_getElem.1 nodup_alphabet j d.toNat (Nat.lt_trans hj hlen) hlen hj
  rw [digitOfChar?, hchar, hindex, Option.map_some]
  exact congrArg some UInt8.ofNat_toNat

end CoinScript.Base58
