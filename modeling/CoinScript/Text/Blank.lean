/-
Blank characters and the normal form of a setting's text. A character is blank when Unicode gives it
the property White_Space; trimming takes blanks off both ends, and lower-casing touches the letters
A to Z alone.
-/

namespace CoinScript.Text

/-- The code points with the property White_Space, as closed ranges in rising order. -/
def blankRanges : List (Nat × Nat) :=
  [(0x09, 0x0d), (0x20, 0x20), (0x85, 0x85), (0xa0, 0xa0), (0x1680, 0x1680), (0x2000, 0x200a),
   (0x2028, 0x2029), (0x202f, 0x202f), (0x205f, 0x205f), (0x3000, 0x3000)]

/-- The character has the property White_Space. -/
def isBlank (c : Char) : Bool :=
  blankRanges.any fun r => r.1 ≤ c.toNat && c.toNat ≤ r.2

/-- The text without the blanks at its two ends. -/
def trim (text : String) : String :=
  String.ofList ((text.toList.dropWhile isBlank).reverse.dropWhile isBlank).reverse

/-- A setting is compared trimmed and in lower case (A to Z only). -/
def normal (text : String) : String :=
  String.ofList ((trim text).toList.map Char.toLower)

end CoinScript.Text
