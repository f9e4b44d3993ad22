/-
The logger: its settings, whether it writes to standard error, and the records it captures. A note
that passes the threshold becomes a record, which is written if writing is on and captured if
capturing is on. Captured are the latest records, as many as the capacity.
-/
import CoinScript.Log.Config
import CoinScript.Log.Record

namespace CoinScript.Log

/-- The latest records, oldest first, at most so many. -/
structure Ring where
  capacity : Nat
  records : List Record := []
  deriving DecidableEq

namespace Ring

/-- Takes a record in, and lets the oldest go if there is no room. -/
def push (ring : Ring) (r : Record) : Ring :=
  let kept := if ring.records.length = ring.capacity then ring.records.drop 1 else ring.records
  { ring with records := kept ++ [r] }

/-- The records never outgrow the capacity. -/
theorem length_push_le {ring : Ring} (r : Record) (hpos : 0 < ring.capacity)
    (h : ring.records.length ≤ ring.capacity) : (ring.push r).records.length ≤ ring.capacity := by
  simp only [push]
  split <;> simp <;> omega

/-- The latest records, oldest first, at most so many. -/
def latest (ring : Ring) (limit : Nat) : List Record :=
  ring.records.drop (ring.records.length - limit)

end Ring

structure Logger where
  config : Config := {}
  /-- Records are written to standard error. -/
  stderr : Bool := true
  capture : Option Ring := none
  deriving DecidableEq

namespace Logger

/-! ## Settings -/

def init (logger : Logger) (config : Config) : Logger := { logger with config := config }

def setStderr (logger : Logger) (on : Bool) : Logger := { logger with stderr := on }

/-- Starts capturing afresh; a capacity of zero stops it. -/
def enableCapture (logger : Logger) (capacity : Nat) : Logger :=
  { logger with capture := if 0 < capacity then some { capacity := capacity } else none }

/-- Stops capturing and drops what was captured. -/
def disableCapture (logger : Logger) : Logger := { logger with capture := none }

/-- Drops what was captured and goes on. -/
def clear (logger : Logger) : Logger :=
  { logger with capture := logger.capture.map fun ring => { ring with records := [] } }

/-! ## Records -/

/-- A note of this level passes the threshold. -/
def isEnabled (logger : Logger) (level : Level) : Bool := level.passes logger.config.level

/-- What is written for a record made at a time. -/
def render (config : Config) (time : Elapsed) (r : Record) : String :=
  match config.format with
  | .json => r.jsonLine
  | .text => r.textLine (if config.timestamps then some time else none)

/-- Takes one note, and gives what is written to standard error. -/
def log (logger : Logger) (now : Instant) (note : Note) (source : Source) : Logger × String :=
  if logger.isEnabled note.level then
    let r : Record := ⟨now.elapsed.millis, note, source⟩
    ({ logger with capture := logger.capture.map fun ring => ring.push r },
      if logger.stderr then render logger.config now.elapsed r else "")
  else (logger, "")

/-- Takes remarks of the library in order, all made at one time. Where its sites stand is known once a
program is built, so the program says. -/
def logRemarks (logger : Logger) (now : Instant) (places : Site → Source) (remarks : List Remark) :
    Logger × String :=
  remarks.foldl (fun (logger, written) remark =>
    let (logger, line) := logger.log now remark.note (places remark.site)
    (logger, written ++ line)) (logger, "")

/-- The latest captured records, oldest first, at most so many; none if capturing is off. -/
def snapshot (logger : Logger) (limit : Nat) : List Record :=
  match logger.capture with
  | none => []
  | some ring => ring.latest limit

end Logger

end CoinScript.Log
