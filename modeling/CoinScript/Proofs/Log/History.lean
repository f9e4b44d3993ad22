/-
What a logger holds and writes follows from the plain history of the calls made of it. Each setting in
force is the one made last. A note makes a record if its level is at most the threshold in force when it is
taken; the ring holds the latest of the records made since capturing started or was cleared, as many as it has
room for; and standard error has one line for each record made while writing was on, in the format in force
at the time.

The proof is the invariant `Mirrors` between the calls so far and the state of the logger: one call keeps
it, whatever the call is, so every run from the default state does.
-/
import CoinScript.Log.Logger
import Mathlib.Data.List.DropRight

namespace CoinScript.Log

/-! ## Runs -/

/-- What can be asked of a logger. -/
inductive Call where
  | init (config : Config)
  | setStderr (on : Bool)
  | enableCapture (capacity : Nat)
  | disableCapture
  | clear
  | log (now : Instant) (note : Note) (source : Source)
  deriving DecidableEq

namespace Logger

/-- The logger after a call, and what the call writes to standard error. -/
def after (logger : Logger) : Call → Logger × String
  | .init config => (logger.init config, "")
  | .setStderr on => (logger.setStderr on, "")
  | .enableCapture capacity => (logger.enableCapture capacity, "")
  | .disableCapture => (logger.disableCapture, "")
  | .clear => (logger.clear, "")
  | .log now note source => logger.log now note source

/-- The logger after calls in order, and all that they write. -/
def afterAll (logger : Logger) (calls : List Call) : Logger × String :=
  calls.foldl (fun (logger, written) call =>
    ((logger.after call).1, written ++ (logger.after call).2)) (logger, "")

theorem afterAll_append_singleton (logger : Logger) (calls : List Call) (call : Call) :
    logger.afterAll (calls ++ [call]) =
      (((logger.afterAll calls).1.after call).1,
        (logger.afterAll calls).2 ++ ((logger.afterAll calls).1.after call).2) := by
  unfold afterAll
  rw [List.foldl_append]
  rfl

end Logger

/-! ## Histories -/

namespace Call

/-- The settings that a call makes. -/
def config? : Call → Option Config
  | init config => some config
  | _ => none

/-- Whether a call turns writing on or off. -/
def stderr? : Call → Option Bool
  | setStderr on => some on
  | _ => none

/-- The room for records that a call makes; none is left when capturing stops. -/
def capacity? : Call → Option Nat
  | enableCapture capacity => some capacity
  | disableCapture => some 0
  | _ => none

/-- Records made before this call are not held after it. -/
def startsAfresh : Call → Bool
  | enableCapture capacity => 0 < capacity
  | clear => true
  | _ => false

end Call

/-! ### Levels -/

namespace Level

/-- The levels from the most serious one on. -/
def inOrder : List Level := [error, warn, info, debug, trace]

instance : LE Level := ⟨fun a b => inOrder.idxOf a ≤ inOrder.idxOf b⟩

instance (a b : Level) : Decidable (a ≤ b) := Nat.decLe (inOrder.idxOf a) (inOrder.idxOf b)

theorem passes_iff {level threshold : Level} : level.passes threshold = true ↔ level ≤ threshold := by
  cases level <;> cases threshold <;> decide

end Level

namespace History

/-- The line of a record, made at a time, in the format of some settings; in text the time stands in front if the
settings say so. -/
def lineOf (config : Config) (time : Elapsed) (r : Record) : String :=
  match config.format, config.timestamps with
  | .json, _ =>
    "\x7b\"file\":" ++ Json.string r.source.file ++ ",\"level\":" ++ Json.string r.note.level.name ++
      ",\"line\":" ++ Json.number r.source.line ++ ",\"msg\":" ++ Json.string r.note.text ++
      ",\"target\":" ++ Json.string r.note.target ++ ",\"ts_ms\":" ++ Json.number r.millis ++ "\x7d\n"
  | .text, true => time.timestamp ++ " " ++ r.note.level.name ++ " " ++ r.note.target ++ ": " ++ r.note.text ++ "\n"
  | .text, false => r.note.level.name ++ " " ++ r.note.target ++ ": " ++ r.note.text ++ "\n"

/-- The setting made last, or the one that is there when none has been made. -/
def latest {α : Type} (setting? : Call → Option α) (unset : α) (calls : List Call) : α :=
  (calls.filterMap setting?).getLastD unset

/-- The level, format and timestamps in force after some calls. -/
def config (calls : List Call) : Config := latest Call.config? {} calls

/-- Whether writing is on after some calls. -/
def stderr (calls : List Call) : Bool := latest Call.stderr? true calls

/-- The room for records after some calls, none when capturing is off. -/
def capacity (calls : List Call) : Nat := latest Call.capacity? 0 calls

/-- The record that a call makes after others, if it is a note whose level is at most the threshold in force. -/
def record? (before : List Call) : Call → Option Record
  | .log now note source =>
    if note.level ≤ (config before).level then some ⟨now.elapsed.millis, note, source⟩ else none
  | _ => none

theorem record?_of_passes {calls : List Call} (now : Instant) {note : Note} (source : Source)
    (h : note.level.passes (config calls).level = true) :
    record? calls (.log now note source) = some ⟨now.elapsed.millis, note, source⟩ := if_pos (Level.passes_iff.1 h)

theorem record?_of_not_passes {calls : List Call} (now : Instant) {note : Note} (source : Source)
    (h : ¬ note.level.passes (config calls).level = true) : record? calls (.log now note source) = none :=
  if_neg fun hle => h (Level.passes_iff.2 hle)

/-- The line that a call writes after others, if it makes a record and writing is on. -/
def line? (before : List Call) : Call → Option String
  | .log now note source =>
    if stderr before then
      (record? before (.log now note source)).map (lineOf (config before) now.elapsed)
    else none
  | _ => none

/-- Each call with the calls before it. -/
def inContext (before : List Call) : List Call → List (List Call × Call)
  | [] => []
  | call :: rest => (before, call) :: inContext (before ++ [call]) rest

/-- The records made since the latest call that starts afresh. -/
def recordsSinceFresh (calls : List Call) : List Record :=
  ((inContext [] calls).rtakeWhile fun entry => !entry.2.startsAfresh).filterMap
    fun entry => record? entry.1 entry.2

/-- The lines written by all calls. -/
def lines (calls : List Call) : List String :=
  (inContext [] calls).filterMap fun entry => line? entry.1 entry.2

/-! ### One call more -/

variable (calls : List Call) (call : Call)

theorem latest_append_singleton {α : Type} (setting? : Call → Option α) (unset : α) :
    latest setting? unset (calls ++ [call]) = (setting? call).getD (latest setting? unset calls) := by
  unfold latest
  rw [List.filterMap_append]
  cases h : setting? call <;> simp [h]

theorem inContext_append_singleton (before : List Call) :
    inContext before (calls ++ [call]) = inContext before calls ++ [(before ++ calls, call)] := by
  induction calls generalizing before with
  | nil => simp [inContext]
  | cons first rest ih => simp [inContext, ih]

theorem recordsSinceFresh_append_singleton :
    recordsSinceFresh (calls ++ [call]) =
      if call.startsAfresh then [] else recordsSinceFresh calls ++ (record? calls call).toList := by
  unfold recordsSinceFresh
  rw [inContext_append_singleton, List.rtakeWhile_concat]
  cases call.startsAfresh with
  | true => rfl
  | false =>
    rw [List.nil_append]
    cases h : record? calls call <;> simp [h]

theorem lines_append_singleton : lines (calls ++ [call]) = lines calls ++ (line? calls call).toList := by
  unfold lines
  rw [inContext_append_singleton, List.filterMap_append]
  cases h : line? calls call <;> simp [h]

end History

/-! ## The ring -/

namespace Ring

/-- A full ring that lets its oldest record go has room for all but one of the latest. -/
theorem rtake_of_push (n : Nat) (records : List Record) :
    (if (records.rtake (n + 1)).length = n + 1 then (records.rtake (n + 1)).drop 1
      else records.rtake (n + 1)) = records.rtake n := by
  have hlen : (records.rtake (n + 1)).length = min (n + 1) records.length := by
    simp [List.rtake]
    omega
  by_cases hfull : n + 1 ≤ records.length
  · rw [if_pos (by omega), List.rtake, List.rtake, List.drop_drop]
    congr 1
    omega
  · rw [if_neg (by omega), List.rtake, List.rtake, Nat.sub_eq_zero_of_le (by omega),
      Nat.sub_eq_zero_of_le (by omega)]

/-- A ring with room that holds the latest of some records holds the latest with one more. -/
theorem push_rtake {capacity : Nat} (hroom : capacity ≠ 0) (records : List Record) (r : Record) :
    push ⟨capacity, records.rtake capacity⟩ r = ⟨capacity, (records ++ [r]).rtake capacity⟩ := by
  obtain ⟨n, rfl⟩ := Nat.exists_eq_succ_of_ne_zero hroom
  have hkept := rtake_of_push n records
  unfold push
  dsimp only
  rw [hkept, List.rtake_concat_succ]

theorem latest_rtake (capacity limit : Nat) (records : List Record) :
    latest ⟨capacity, records.rtake capacity⟩ limit = records.rtake (min limit capacity) := by
  show (records.rtake capacity).rtake limit = _
  simp only [List.rtake_eq_reverse_take_reverse, List.reverse_reverse, List.take_take]

end Ring

/-! ## Lines -/

theorem History.lineOf_of_json {config : Config} (hjson : config.format = .json) (time : Elapsed) (r : Record) :
    lineOf config time r = r.jsonLine := by
  unfold lineOf Record.jsonLine Json.object
  rw [hjson]
  refine String.toList_inj.1 ?_
  simp only [String.toList_append, String.toList_intercalate, List.map_cons, List.map_nil,
    List.intercalate_cons_cons, List.intercalate_singleton, List.append_assoc]
  rfl

theorem History.lineOf_of_text {config : Config} (htext : config.format = .text) (time : Elapsed) (r : Record) :
    lineOf config time r = r.textLine (if config.timestamps then some time else none) := by
  unfold lineOf Record.textLine
  rw [htext]
  cases config.timestamps with
  | true => rfl
  | false =>
    dsimp only
    rw [if_neg Bool.false_ne_true, String.empty_append]

theorem Logger.render_eq_lineOf (config : Config) (time : Elapsed) (r : Record) :
    render config time r = History.lineOf config time r := by
  unfold render
  cases hformat : config.format with
  | json => exact (History.lineOf_of_json hformat time r).symm
  | text => exact (History.lineOf_of_text hformat time r).symm

/-! ## What one call does -/

namespace Logger

variable (logger : Logger)

theorem after_log_of_passes (now : Instant) {note : Note} (source : Source)
    (h : note.level.passes logger.config.level = true) :
    logger.after (.log now note source) =
      ({ logger with capture := logger.capture.map fun ring => ring.push ⟨now.elapsed.millis, note, source⟩ },
        if logger.stderr then render logger.config now.elapsed ⟨now.elapsed.millis, note, source⟩ else "") := by
  unfold after log
  exact if_pos h

/-- A note that does not pass the threshold leaves no trace. -/
theorem after_log_of_not_passes (now : Instant) {note : Note} (source : Source)
    (h : ¬ note.level.passes logger.config.level = true) :
    logger.after (.log now note source) = (logger, "") := by
  unfold after log
  exact if_neg h

/-- The settings after a call are those it makes, and else those before it. -/
theorem settings_after (call : Call) :
    (logger.after call).1.config = call.config?.getD logger.config ∧
      (logger.after call).1.stderr = call.stderr?.getD logger.stderr := by
  cases call with
  | log now note source =>
    by_cases hpass : note.level.passes logger.config.level = true
    · rw [logger.after_log_of_passes now source hpass]
      exact ⟨rfl, rfl⟩
    · rw [logger.after_log_of_not_passes now source hpass]
      exact ⟨rfl, rfl⟩
  | _ => exact ⟨rfl, rfl⟩

end Logger

/-! ## The invariant -/

namespace History

variable (calls : List Call) (call : Call)

/-- The ring with the records that calls leave in it, none when capturing is off. -/
def ring? : Option Ring :=
  if capacity calls = 0 then none
  else some ⟨capacity calls, (recordsSinceFresh calls).rtake (capacity calls)⟩

theorem ring?_append_singleton :
    ring? (calls ++ [call]) =
      if call.capacity?.getD (capacity calls) = 0 then none
      else some ⟨call.capacity?.getD (capacity calls),
        (if call.startsAfresh then [] else recordsSinceFresh calls ++ (record? calls call).toList).rtake
          (call.capacity?.getD (capacity calls))⟩ := by
  have hcapacity : capacity (calls ++ [call]) = call.capacity?.getD (capacity calls) :=
    latest_append_singleton calls call Call.capacity? 0
  unfold ring?
  rw [hcapacity, recordsSinceFresh_append_singleton]

/-- A call that neither sets the room, nor starts afresh, nor makes a record leaves the ring alone. -/
theorem ring?_of_quiet {calls : List Call} {call : Call} (hroom : call.capacity? = none)
    (hfresh : call.startsAfresh = false) (hrecord : record? calls call = none) :
    ring? (calls ++ [call]) = ring? calls := by
  rw [ring?_append_singleton, hroom, hfresh, hrecord, Option.getD_none, Option.toList_none, List.append_nil]
  rfl

end History

/-- The state of a logger, with all that it has written, is what the calls so far make it. -/
structure Mirrors (calls : List Call) (logger : Logger) (written : String) : Prop where
  config : logger.config = History.config calls
  stderr : logger.stderr = History.stderr calls
  capture : logger.capture = History.ring? calls
  written : written = String.join (History.lines calls)

theorem mirrors_default : Mirrors [] {} "" := ⟨rfl, rfl, rfl, rfl⟩

namespace Mirrors

variable {calls : List Call} {logger : Logger} {written : String}

theorem capture_after (h : Mirrors calls logger written) (call : Call) :
    (logger.after call).1.capture = History.ring? (calls ++ [call]) := by
  cases call with
  | init config => exact h.capture.trans (History.ring?_of_quiet rfl rfl rfl).symm
  | setStderr on => exact h.capture.trans (History.ring?_of_quiet rfl rfl rfl).symm
  | enableCapture capacity =>
    rw [History.ring?_append_singleton]
    cases capacity with
    | zero => rfl
    | succ n => simp [Logger.after, Logger.enableCapture, Call.capacity?, Call.startsAfresh]
  | disableCapture =>
    rw [History.ring?_append_singleton]
    rfl
  | clear =>
    show logger.capture.map _ = _
    rw [History.ring?_append_singleton, h.capture, History.ring?]
    by_cases hoff : History.capacity calls = 0 <;> simp [hoff, Call.capacity?, Call.startsAfresh]
  | log now note source =>
    by_cases hpass : note.level.passes (History.config calls).level = true
    · rw [logger.after_log_of_passes now source (h.config ▸ hpass), History.ring?_append_singleton,
        History.record?_of_passes now source hpass]
      show logger.capture.map _ = _
      rw [h.capture, History.ring?]
      by_cases hoff : History.capacity calls = 0
      · simp [hoff, Call.capacity?]
      · simp [hoff, Call.capacity?, Call.startsAfresh, Ring.push_rtake hoff]
    · rw [logger.after_log_of_not_passes now source (h.config ▸ hpass)]
      have hrecord := History.record?_of_not_passes now source hpass
      exact h.capture.trans (History.ring?_of_quiet rfl rfl hrecord).symm

theorem written_after (h : Mirrors calls logger written) (call : Call) :
    written ++ (logger.after call).2 = String.join (History.lines (calls ++ [call])) := by
  have hline : (logger.after call).2 = (History.line? calls call).getD "" := by
    cases call with
    | log now note source =>
      unfold History.line?
      dsimp only
      by_cases hpass : note.level.passes (History.config calls).level = true
      · rw [logger.after_log_of_passes now source (h.config ▸ hpass), History.record?_of_passes now source hpass,
          h.config, h.stderr]
        cases History.stderr calls with
        | false => rfl
        | true => exact Logger.render_eq_lineOf _ _ _
      · rw [logger.after_log_of_not_passes now source (h.config ▸ hpass),
          History.record?_of_not_passes now source hpass]
        cases History.stderr calls <;> rfl
    | _ => rfl
  rw [hline, h.written, History.lines_append_singleton]
  cases History.line? calls call <;> simp [String.join]

/-- One call, whatever it is, keeps the invariant. -/
theorem after (h : Mirrors calls logger written) (call : Call) :
    Mirrors (calls ++ [call]) (logger.after call).1 (written ++ (logger.after call).2) where
  config := by
    rw [(logger.settings_after call).1, h.config]
    exact (History.latest_append_singleton calls call Call.config? {}).symm
  stderr := by
    rw [(logger.settings_after call).2, h.stderr]
    exact (History.latest_append_singleton calls call Call.stderr? true).symm
  capture := h.capture_after call
  written := h.written_after call

end Mirrors

/-- After any calls of a fresh logger its state is what they make it. -/
theorem mirrors_afterAll (calls : List Call) :
    Mirrors calls (({} : Logger).afterAll calls).1 (({} : Logger).afterAll calls).2 := by
  induction calls using List.reverseRecOn with
  | nil => exact mirrors_default
  | append_singleton calls call ih =>
    rw [Logger.afterAll_append_singleton]
    exact ih.after call

/-! ## What does not bear on captured records -/

/-- The part of a call that bears on captured records: of settings the threshold alone, of writing
nothing. -/
def Call.bearing? : Call → Option Call
  | init config => some (init { level := config.level })
  | setStderr _ => none
  | call => some call

/-- Two loggers that may differ in how they write. -/
structure Logger.SameCapture (a b : Logger) : Prop where
  level : a.config.level = b.config.level
  capture : a.capture = b.capture

namespace Logger.SameCapture

variable {a b : Logger} {call call' : Call}

theorem snapshot_eq (h : SameCapture a b) (limit : Nat) : a.snapshot limit = b.snapshot limit := by
  unfold snapshot
  rw [h.capture]

theorem after (h : SameCapture a b) (hcall : call.bearing? = some call') :
    SameCapture (a.after call).1 (b.after call').1 := by
  cases call with
  | init config => cases hcall; exact ⟨rfl, h.capture⟩
  | setStderr on => cases hcall
  | enableCapture capacity => cases hcall; exact ⟨h.level, rfl⟩
  | disableCapture => cases hcall; exact ⟨h.level, rfl⟩
  | clear => cases hcall; exact ⟨h.level, congrArg (Option.map _) h.capture⟩
  | log now note source =>
    cases hcall
    by_cases hpass : note.level.passes a.config.level = true
    · rw [a.after_log_of_passes now source hpass, b.after_log_of_passes now source (h.level ▸ hpass)]
      exact ⟨h.level, congrArg (Option.map _) h.capture⟩
    · rw [a.after_log_of_not_passes now source hpass, b.after_log_of_not_passes now source (h.level ▸ hpass)]
      exact h

theorem after_of_not_bearing (h : SameCapture a b) (hcall : call.bearing? = none) :
    SameCapture (a.after call).1 b := by
  cases call <;> first | exact ⟨h.level, h.capture⟩ | cases hcall

theorem afterAll (logger : Logger) (calls : List Call) :
    SameCapture (logger.afterAll calls).1 (logger.afterAll (calls.filterMap Call.bearing?)).1 := by
  induction calls using List.reverseRecOn with
  | nil => exact ⟨rfl, rfl⟩
  | append_singleton calls call ih =>
    rw [List.filterMap_append, afterAll_append_singleton]
    cases hcall : call.bearing? with
    | none =>
      simp only [List.filterMap_cons, hcall, List.filterMap_nil, List.append_nil]
      exact ih.after_of_not_bearing hcall
    | some call' =>
      simp only [List.filterMap_cons, hcall, List.filterMap_nil]
      rw [afterAll_append_singleton]
      exact ih.after hcall

end Logger.SameCapture

/-! ## The history of a run -/

/-- What a fresh logger holds and has written after any calls, whatever the clock reads at each. A snapshot
is empty when capturing is off, and else has the latest of the records made since capturing started or was
cleared, each by a note whose level was at most the threshold in force at the time, as many as are asked for
and there is room for. It is the same for the calls without all they say about format, timestamps and writing. What
stands on standard error is one line after the other for each record made while writing was on, in the
format and with the timestamps in force at the time. -/
theorem afterAll_refines_history (calls : List Call) :
    (∀ limit : Nat,
      (({} : Logger).afterAll calls).1.snapshot limit =
        if History.capacity calls = 0 then []
        else (History.recordsSinceFresh calls).rtake (min limit (History.capacity calls))) ∧
    (∀ limit : Nat,
      (({} : Logger).afterAll (calls.filterMap Call.bearing?)).1.snapshot limit =
        (({} : Logger).afterAll calls).1.snapshot limit) ∧
    (({} : Logger).afterAll calls).2 = String.join (History.lines calls) := by
  have hmirrors := mirrors_afterAll calls
  refine ⟨fun limit => ?_, fun limit => ?_, hmirrors.written⟩
  · unfold Logger.snapshot
    rw [hmirrors.capture, History.ring?]
    by_cases hoff : History.capacity calls = 0
    · rw [if_pos hoff, if_pos hoff]
    · rw [if_neg hoff, if_neg hoff]
      exact Ring.latest_rtake _ limit _
  · exact ((Logger.SameCapture.afterAll {} calls).snapshot_eq limit).symm

/-- A ring with room for two, and a threshold that changes on the way. -/
example :
    let note (level : Level) : Note := ⟨level, "t", "x"⟩
    let calls : List Call := [.enableCapture 2, .log {} (note .info) { line := 1 }, .init { level := .debug },
      .log {} (note .debug) { line := 2 }, .log {} (note .trace) { line := 3 }, .setStderr false,
      .log {} (note .error) { line := 4 }]
    ((({} : Logger).afterAll calls).1.snapshot 5).map (fun r => r.source.line) = [2, 4] := by
  decide

end CoinScript.Log
