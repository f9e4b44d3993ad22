/-
Reading JSON (RFC 8259): values of all six kinds, blanks between tokens, every escape of strings and code points beyond
sixteen bits in two halves. A raw control character in a string, a zero in front of other digits, a comma too many and
anything behind the value are refused. A reader takes what it reads from the front of a text and gives the rest.
-/
import CoinScript.Log.Record

namespace CoinScript.Log.Json

/-- A JSON value. A number is its mantissa times ten to its exponent; the members of an object stand in the order in
which they are written. -/
inductive Value where
  | null
  | bool (b : Bool)
  | number (mantissa exponent : Int)
  | string (text : String)
  | array (items : List Value)
  | object (members : List (String × Value))

/-- Reads something at the front of a text, and gives it with the rest of the text. -/
abbrev Reader (α : Type) := List Char → Option (α × List Char)

/-! ## Blanks -/

def isBlank (c : Char) : Bool := c == ' ' || c == '\t' || c == '\n' || c == '\r'

def skipBlanks (cs : List Char) : List Char := cs.dropWhile isBlank

/-! ## Strings -/

/-- What a letter behind a backslash stands for. -/
def escaped? : Char → Option Char
  | '"' => some '"'
  | '\\' => some '\\'
  | '/' => some '/'
  | 'b' => some '\x08'
  | 'f' => some '\x0c'
  | 'n' => some '\n'
  | 'r' => some '\r'
  | 't' => some '\t'
  | _ => none

/-- Sixteen bits in four hexadecimal digits of either case. -/
def codeUnit? (a b c d : Char) : Option Nat :=
  match Hex.decodeChars [] [a, b, c, d] with
  | some [high, low] => some (256 * high.toNat + low.toNat)
  | _ => none

/-- The code units that are the first half of a code point beyond sixteen bits. -/
def isHighSurrogate (n : Nat) : Bool := 0xd800 ≤ n && n < 0xdc00

/-- The code units that are the second half. -/
def isLowSurrogate (n : Nat) : Bool := 0xdc00 ≤ n && n < 0xe000

/-- The character of two halves. -/
def ofSurrogates (high low : Nat) : Char := Char.ofNat (0x10000 + 0x400 * (high - 0xd800) + (low - 0xdc00))

/-- The characters of a string up to its closing quote. Each is an escape, or any but a quote, a backslash or a control
character; half of a code point is no character. -/
def characters : Reader (List Char)
  | [] => none
  | '"' :: rest => some ([], rest)
  | '\\' :: 'u' :: a :: b :: c :: d :: rest => do
    let n ← codeUnit? a b c d
    if isHighSurrogate n then
      match rest with
      | '\\' :: 'u' :: a :: b :: c :: d :: rest => do
        let m ← codeUnit? a b c d
        if isLowSurrogate m then (characters rest).map fun (more, rest) => (ofSurrogates n m :: more, rest)
        else none
      | _ => none
    else if isLowSurrogate n then none
    else (characters rest).map fun (more, rest) => (Char.ofNat n :: more, rest)
  | '\\' :: c :: rest => do
    let d ← escaped? c
    (characters rest).map fun (more, rest) => (d :: more, rest)
  | c :: rest =>
    if c = '\\' ∨ c.toNat < 0x20 then none
    else (characters rest).map fun (more, rest) => (c :: more, rest)

/-! ## Numbers -/

/-- Digits, at least one. -/
def digits : Reader (List Char) := fun cs =>
  let ds := cs.takeWhile Char.isDigit
  if ds.isEmpty then none else some (ds, cs.dropWhile Char.isDigit)

/-- The digits of a whole number, which have no zero in front. -/
def whole : Reader (List Char) := fun cs => do
  let (ds, rest) ← digits cs
  if ds.head? = some '0' ∧ ds ≠ ['0'] then none else some (ds, rest)

/-- The digits behind a point, if there is one. -/
def fraction : Reader (List Char)
  | '.' :: rest => digits rest
  | cs => some ([], cs)

/-- A sign, or none for plus. -/
def sign (cs : List Char) : Int × List Char :=
  match cs with
  | '-' :: rest => (-1, rest)
  | '+' :: rest => (1, rest)
  | _ => (1, cs)

/-- The exponent behind its mark, or zero. -/
def exponent : Reader Int
  | [] => some (0, [])
  | c :: rest =>
    if c = 'e' ∨ c = 'E' then do
      let (s, rest) := sign rest
      let (ds, rest) ← digits rest
      some (s * Nat.ofDigitChars 10 ds 0, rest)
    else some (0, c :: rest)

/-- A number; only a minus may stand in front. -/
def decimalNumber : Reader Value := fun cs => do
  let (s, cs) := if cs.head? = some '-' then (-1, cs.drop 1) else ((1 : Int), cs)
  let (ds, cs) ← whole cs
  let (fs, cs) ← fraction cs
  let (e, cs) ← exponent cs
  some (.number (s * Nat.ofDigitChars 10 (ds ++ fs) 0) (e - fs.length), cs)

/-! ## Values -/

/-- Items with a comma between two, up to the closing mark. An item leaves less than it was given. -/
def separated {α : Type} (item : Reader α) (close : Char) (cs : List Char) : Option (List α × List Char) :=
  match item cs with
  | none => none
  | some (a, rest) =>
    match skipBlanks rest with
    | [] => none
    | c :: rest =>
      if c = close then some ([a], rest)
      else if c = ',' ∧ rest.length < cs.length then
        (separated item close rest).map fun (more, rest) => (a :: more, rest)
      else none
termination_by cs.length
decreasing_by
  rename_i h
  exact h.2

/-- Items up to the closing mark, or none. -/
def listed {α : Type} (item : Reader α) (close : Char) : Reader (List α) := fun cs =>
  match skipBlanks cs with
  | [] => none
  | c :: rest => if c = close then some ([], rest) else separated item close (c :: rest)

/-- A name, a colon and a value. -/
def member (value : Reader Value) : Reader (String × Value) := fun cs =>
  match skipBlanks cs with
  | '"' :: rest => do
    let (name, rest) ← characters rest
    match skipBlanks rest with
    | ':' :: rest => do
      let (v, rest) ← value rest
      some ((String.ofList name, v), rest)
    | _ => none
  | _ => none

/-- One of the three words. -/
def word : Reader Value
  | 'n' :: 'u' :: 'l' :: 'l' :: rest => some (.null, rest)
  | 't' :: 'r' :: 'u' :: 'e' :: rest => some (.bool true, rest)
  | 'f' :: 'a' :: 'l' :: 's' :: 'e' :: rest => some (.bool false, rest)
  | _ => none

/-- A value with so many levels of values in one another. -/
def value : (depth : Nat) → Reader Value
  | 0, _ => none
  | depth + 1, cs =>
    match skipBlanks cs with
    | '"' :: rest => (characters rest).map fun (text, rest) => (.string (String.ofList text), rest)
    | '[' :: rest => (listed (value depth) ']' rest).map fun (items, rest) => (.array items, rest)
    | '\x7b' :: rest =>
      (listed (member (value depth)) '\x7d' rest).map fun (members, rest) => (.object members, rest)
    | rest => (word rest).or (decimalNumber rest)

/-- The value that a text spells, blanks around it. Its levels are no more than its characters. -/
def read? (text : String) : Option Value :=
  match value text.length text.toList with
  | some (v, rest) => if rest.all isBlank then some v else none
  | none => none

/-- A number by its mantissa and exponent, and an escape by number. -/
example : read? " [1.5e3 ,\"\\u00E9\"]\n" = some (.array [.number 15 2, .string "é"]) := by cbv

/-- One comma too many. -/
example : read? "\x7b\"a\":1,\x7d" = none := by cbv

end CoinScript.Log.Json
