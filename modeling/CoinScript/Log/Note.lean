/-
Notes: what is said about the work of a program. The library makes remarks while it edits and runs
scripts; an edit or a run returns its remarks with its result and leaves it to a logger to keep or
drop them. The site that makes a remark fixes how serious it is and which part of the library speaks.
-/
import CoinScript.Log.Level

namespace CoinScript.Log

/-- One thing said: how serious it is, which part of the program says it, and the text. -/
structure Note where
  level : Level
  target : String
  text : String
  deriving DecidableEq

/-! ## Remarks of the library -/

/-- The sites of the library that make remarks. -/
inductive Site where
  /-- New bytes of a script do not decode. -/
  | undecodableEdit
  /-- An opcode cannot stand in a script by itself. -/
  | loneOpcode
  /-- A chunk is about to be handed over. -/
  | dispatch
  /-- A chunk failed. -/
  | failedChunk
  /-- Conditionals are open at the end of a script. -/
  | openAtEnd
  /-- The machine has no such opcode. -/
  | unsupportedOpcode
  /-- A committed script does not decode. -/
  | undecodableRedeem
  deriving DecidableEq

namespace Site

/-- Handing over a chunk is traced; all else is for whoever looks for a fault. -/
def level : Site → Level
  | dispatch => .trace
  | _ => .debug

/-- The part of the library that a site belongs to. -/
def target : Site → String
  | undecodableEdit | loneOpcode => "fluxscript::script"
  | dispatch | failedChunk | openAtEnd => "fluxscript::exec"
  | unsupportedOpcode | undecodableRedeem => "fluxscript::interpreter"

end Site

/-- What a site of the library says. -/
structure Remark where
  site : Site
  text : String
  deriving DecidableEq

/-- A remark as a note. -/
def Remark.note (r : Remark) : Note := ⟨r.site.level, r.site.target, r.text⟩

end CoinScript.Log
