/-
How serious a note is. Levels are ordered from errors down to traces; a threshold lets through every
level that is at least as serious as itself.
-/
import CoinScript.Text.Blank

namespace CoinScript.Log

inductive Level where
  | error
  | warn
  | info
  | debug
  | trace
  deriving DecidableEq

namespace Level

/-- One for errors, rising as notes matter less. -/
def rank : Level → Nat
  | error => 1
  | warn => 2
  | info => 3
  | debug => 4
  | trace => 5

/-- A note of this level passes the threshold. -/
def passes (level threshold : Level) : Bool := level.rank ≤ threshold.rank

def name : Level → String
  | error => "ERROR"
  | warn => "WARN"
  | info => "INFO"
  | debug => "DEBUG"
  | trace => "TRACE"

/-- The level that a setting names, blanks around it and case ignored. -/
def parse? (text : String) : Option Level :=
  match Text.normal text with
  | "error" => some error
  | "warn" | "warning" => some warn
  | "info" => some info
  | "debug" => some debug
  | "trace" => some trace
  | _ => none

end Level

end CoinScript.Log
