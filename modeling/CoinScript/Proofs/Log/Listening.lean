/-
A logger that is told remarks one by one, as they are made. A site first asks whether its level passes the threshold
in force, and only then is a note made and given to the logger, with the time that the clock reads at this remark. What
a logger makes of remarks is therefore settled by the entries of all of them, which do not depend on the logger: it
accepts, in order, those whose level passes its threshold, and leaves the others.
-/
import CoinScript.Log.Logger

namespace CoinScript.Log

/-- What surrounds the library in a program: what the clock reads at each remark, these being counted, and where each
site stands. -/
structure Surroundings where
  clock : Nat → Instant
  places : Site → Source

/-- A logger with what it has written so far and the number of remarks made so far. -/
structure Listener where
  logger : Logger := {}
  written : String := ""
  heard : Nat := 0

/-- A record with the time of its note, of which it keeps the milliseconds. -/
structure Entry where
  time : Elapsed
  record : Record

/-- The entry of a remark that is made after so many others. -/
def Surroundings.entry (around : Surroundings) (heard : Nat) (r : Remark) : Entry :=
  let time := (around.clock heard).elapsed
  ⟨time, ⟨time.millis, r.note, around.places r.site⟩⟩

/-- The entries of remarks, the first of them made after so many others. -/
def Surroundings.entries (around : Surroundings) : (heard : Nat) → List Remark → List Entry
  | _, [] => []
  | heard, r :: rest => around.entry heard r :: around.entries (heard + 1) rest

/-- The level of the entry passes the threshold of the logger. -/
def Logger.accepts (logger : Logger) (entry : Entry) : Bool := entry.record.note.level.passes logger.config.level

@[simp] theorem Surroundings.length_entries (around : Surroundings) (heard : Nat) (remarks : List Remark) :
    (around.entries heard remarks).length = remarks.length := by
  induction remarks generalizing heard with
  | nil => rfl
  | cons r rest ih => simp [entries, ih]

/-- The notes of the entries are those of the remarks. -/
theorem Surroundings.map_note_entries (around : Surroundings) (heard : Nat) (remarks : List Remark) :
    ((around.entries heard remarks).map fun entry => entry.record.note) = remarks.map Remark.note := by
  induction remarks generalizing heard with
  | nil => rfl
  | cons r rest ih =>
    simp only [entries, List.map_cons, ih]
    rfl

/-- Every level passes the least serious threshold. -/
theorem Level.passes_trace (level : Level) : level.passes .trace = true := by cases level <;> rfl

namespace Listener

/-- A site makes a remark: if its level passes, the logger is given the note of it. -/
def hear (around : Surroundings) (listener : Listener) (r : Remark) : Listener :=
  if listener.logger.isEnabled r.site.level then
    let taken := listener.logger.log (around.clock listener.heard) r.note (around.places r.site)
    { logger := taken.1, written := listener.written ++ taken.2, heard := listener.heard + 1 }
  else { listener with heard := listener.heard + 1 }

/-- Remarks are made in order. -/
def hearAll (around : Surroundings) (listener : Listener) (remarks : List Remark) : Listener :=
  remarks.foldl (hear around) listener

/-- The entry is captured if capturing is on, and written if writing is. -/
def accept (listener : Listener) (entry : Entry) : Listener :=
  { listener with
    logger := { listener.logger with capture := listener.logger.capture.map fun ring => ring.push entry.record }
    written := listener.written ++
      if listener.logger.stderr then Logger.render listener.logger.config entry.time entry.record else "" }

/-- Entries are accepted in order. -/
def acceptAll (listener : Listener) (entries : List Entry) : Listener := entries.foldl accept listener

/-- So many more remarks have been made. -/
def skip (listener : Listener) (count : Nat) : Listener := { listener with heard := listener.heard + count }

variable {around : Surroundings} {listener : Listener} {r : Remark}

theorem hear_of_accepts (h : listener.logger.accepts (around.entry listener.heard r) = true) :
    listener.hear around r = (listener.accept (around.entry listener.heard r)).skip 1 := by
  unfold hear Logger.log
  rw [if_pos (show listener.logger.isEnabled r.site.level = true from h),
    if_pos (show listener.logger.isEnabled r.note.level = true from h)]
  rfl

theorem hear_of_not_accepts (h : ¬ listener.logger.accepts (around.entry listener.heard r) = true) :
    listener.hear around r = listener.skip 1 := if_neg h

theorem acceptAll_skip (listener : Listener) (count : Nat) (entries : List Entry) :
    (listener.skip count).acceptAll entries = (listener.acceptAll entries).skip count := by
  unfold acceptAll
  induction entries generalizing listener with
  | nil => rfl
  | cons entry rest ih =>
    rw [List.foldl_cons, List.foldl_cons, ← ih]
    rfl

theorem skip_skip (listener : Listener) (count more : Nat) :
    (listener.skip count).skip more = listener.skip (count + more) := by
  unfold skip
  rw [Nat.add_assoc]

/-- Of remarks the logger accepts the entries that pass its threshold, in order. -/
theorem hearAll_eq_acceptAll (around : Surroundings) (listener : Listener) (remarks : List Remark) :
    listener.hearAll around remarks =
      (listener.acceptAll ((around.entries listener.heard remarks).filter listener.logger.accepts)).skip
        remarks.length := by
  unfold hearAll
  induction remarks generalizing listener with
  | nil => rfl
  | cons r rest ih =>
    rw [List.foldl_cons, ih, Surroundings.entries, List.length_cons, Nat.add_comm rest.length]
    by_cases haccepts : listener.logger.accepts (around.entry listener.heard r) = true
    · -- accepting an entry leaves the threshold as it is
      rw [hear_of_accepts haccepts, List.filter_cons_of_pos haccepts, acceptAll_skip, skip_skip]
      rfl
    · rw [hear_of_not_accepts haccepts, List.filter_cons_of_neg haccepts, acceptAll_skip, skip_skip]
      rfl

theorem hearAll_append (around : Surroundings) (listener : Listener) (remarks more : List Remark) :
    listener.hearAll around (remarks ++ more) = (listener.hearAll around remarks).hearAll around more :=
  List.foldl_append

end Listener

end CoinScript.Log
