/-
The settings of a logger and where they come from: three keys of an environment. A key that is not
set keeps its default; a value that cannot be read is an error that names the key, and the keys are
read in a fixed order, so of several bad values the first is reported.
-/
import CoinScript.Log.Level

namespace CoinScript.Log

/-- How a record is written. -/
inductive Format where
  | text
  | json
  deriving DecidableEq

/-- The format that a setting names, blanks around it and case ignored. -/
def Format.parse? (text : String) : Option Format :=
  match Text.normal text with
  | "text" => some .text
  | "json" => some .json
  | _ => none

/-- The truth value that a setting names, blanks around it and case ignored. -/
def parseSwitch? (text : String) : Option Bool :=
  match Text.normal text with
  | "1" | "true" | "yes" | "on" => some true
  | "0" | "false" | "no" | "off" => some false
  | _ => none

structure Config where
  /-- The least serious level that is let through. -/
  level : Level := .info
  format : Format := .text
  /-- Lines of text start with the time. -/
  timestamps : Bool := true
  deriving DecidableEq

inductive ConfigError where
  | invalidValue (key value : String)
  deriving DecidableEq

def ConfigError.message : ConfigError → String
  | invalidValue key value => "invalid value '" ++ value ++ "' for " ++ key

namespace Config

def levelKey : String := "FLUXSCRIPT_LOG_LEVEL"

def formatKey : String := "FLUXSCRIPT_LOG_FORMAT"

def timestampsKey : String := "FLUXSCRIPT_LOG_TIMESTAMPS"

/-- The setting under a key, or its default if the key is not set. -/
def setting {α : Type} (lookup : String → Option String) (key : String)
    (parse? : String → Option α) (unset : α) : Except ConfigError α :=
  match lookup key with
  | none => .ok unset
  | some value =>
    match parse? value with
    | some a => .ok a
    | none => .error (.invalidValue key value)

/-- The settings that an environment gives. -/
def ofLookup (lookup : String → Option String) : Except ConfigError Config := do
  let level ← setting lookup levelKey Level.parse? .info
  let format ← setting lookup formatKey Format.parse? .text
  let timestamps ← setting lookup timestampsKey parseSwitch? true
  return ⟨level, format, timestamps⟩

end Config

end CoinScript.Log
