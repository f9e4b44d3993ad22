/-
Records: notes with the time they were made and the place in a program that made them, and the two
ways to write one. A record in text is a line for people, and a message may break it; a record in
JSON is one line whatever its parts hold, with its members in alphabetical order.
-/
import CoinScript.Log.Note
import CoinScript.Log.Time
import CoinScript.Text.Hex

namespace CoinScript.Log

/-- A place in a program. -/
structure Source where
  file : String := ""
  line : Nat := 0
  deriving DecidableEq

structure Record where
  /-- Milliseconds since the start of 1970. -/
  millis : Nat
  note : Note
  source : Source
  deriving DecidableEq

/-! ## JSON -/

namespace Json

/-- A character inside a JSON string: quotes, backslashes and control characters are escaped, by a
letter where there is one and by their code point elsewhere. -/
def escapeChar (c : Char) : List Char :=
  match c with
  | '"' => ['\\', '"']
  | '\\' => ['\\', '\\']
  | '\n' => ['\\', 'n']
  | '\r' => ['\\', 'r']
  | '\t' => ['\\', 't']
  | '\x08' => ['\\', 'b']
  | '\x0c' => ['\\', 'f']
  | c => if c.toNat < 0x20 then ['\\', 'u', '0', '0'] ++ Hex.byteChars (UInt8.ofNat c.toNat) else [c]

/-- A JSON string. -/
def string (text : String) : String :=
  String.ofList ('"' :: text.toList.flatMap escapeChar ++ ['"'])

/-- A JSON number. -/
def number (n : Nat) : String := decimal 1 n

/-- A JSON object of members already written. -/
def object (members : List (String × String)) : String :=
  "\x7b" ++ ",".intercalate (members.map fun m => string m.1 ++ ":" ++ m.2) ++ "\x7d"

end Json

namespace Record

/-- The line of JSON for a record. -/
def jsonLine (r : Record) : String :=
  Json.object
    [("file", Json.string r.source.file), ("level", Json.string r.note.level.name),
     ("line", Json.number r.source.line), ("msg", Json.string r.note.text),
     ("target", Json.string r.note.target), ("ts_ms", Json.number r.millis)] ++ "\n"

/-! ## Text -/

/-- The line of text for a record, the time in front if it is given. -/
def textLine (r : Record) (time : Option Elapsed) : String :=
  let front := match time with
    | some t => t.timestamp ++ " "
    | none => ""
  front ++ r.note.level.name ++ " " ++ r.note.target ++ ": " ++ r.note.text ++ "\n"

end Record

end CoinScript.Log
