/-
A record in JSON is one line and loses nothing. Its only newline is at its end, and what a reader of JSON makes of it is
an object with the parts of the record and nothing else, whatever the parts hold. So a line has one record, and lines
behind one another, as a logger writes them, have their records in order: no message can end a line, add a member to
its record or pass for a record of its own.
-/
import CoinScript.Proofs.Log.History
import CoinScript.Proofs.Log.JsonSpelling

namespace CoinScript.Log

theorem Level.parse?_name (level : Level) : parse? level.name = some level := by cases level <;> decide

theorem Level.name_injective : Function.Injective name := by
  intro a b h
  rw [← Option.some_inj, ← a.parse?_name, ← b.parse?_name, h]

namespace Json

/-- The values of a text that has one on each line. The last line is ended like the others. -/
def readLines? (text : String) : Option (List Value) :=
  let lines := text.toList.splitOn '\n'
  if lines.getLast? = some [] then lines.dropLast.mapM fun line => read? (String.ofList line) else none

end Json

namespace Record

variable (r : Record)

/-- The text of a record without the end of its line. -/
def body : String :=
  Json.object
    [("file", Json.string r.source.file), ("level", Json.string r.note.level.name),
     ("line", Json.number r.source.line), ("msg", Json.string r.note.text),
     ("target", Json.string r.note.target), ("ts_ms", Json.number r.millis)]

/-- A record as a JSON object, its members in alphabetical order. -/
def json : Json.Value :=
  .object [("file", .string r.source.file), ("level", .string r.note.level.name), ("line", .number r.source.line 0),
    ("msg", .string r.note.text), ("target", .string r.note.target), ("ts_ms", .number r.millis 0)]

theorem jsonLine_eq : r.jsonLine = r.body ++ "\n" := rfl

/-! ## One line -/

theorem unbroken_body : Json.Unbroken r.body.toList := by
  refine Json.unbroken_object fun m hm => ?_
  simp only [List.mem_cons, List.not_mem_nil, or_false] at hm
  rcases hm with rfl | rfl | rfl | rfl | rfl | rfl
  · exact Json.unbroken_string r.source.file
  · exact Json.unbroken_string r.note.level.name
  · exact Json.unbroken_number r.source.line
  · exact Json.unbroken_string r.note.text
  · exact Json.unbroken_string r.note.target
  · exact Json.unbroken_number r.millis

theorem toList_jsonLine : r.jsonLine.toList = r.body.toList ++ ['\n'] := by
  rw [jsonLine_eq, String.toList_append]
  rfl

theorem count_newline_jsonLine : r.jsonLine.toList.count '\n' = 1 := by
  have hnone := List.count_eq_zero.2 r.unbroken_body.newline_not_mem
  rw [toList_jsonLine, List.count_append, hnone]
  rfl

/-! ## What it says -/

theorem spells_body : Json.Spells 2 r.body r.json := by
  unfold body json
  refine Json.spells_object ?_
  refine .cons ⟨rfl, Json.spells_string r.source.file⟩ ?_
  refine .cons ⟨rfl, Json.spells_string r.note.level.name⟩ ?_
  refine .cons ⟨rfl, Json.spells_number r.source.line⟩ ?_
  refine .cons ⟨rfl, Json.spells_string r.note.text⟩ ?_
  refine .cons ⟨rfl, Json.spells_string r.note.target⟩ ?_
  refine .cons ⟨rfl, Json.spells_number r.millis⟩ ?_
  exact .nil

/-- A record's line is read as the record, with or without its end. -/
theorem read?_body (blanks : String) (hblanks : blanks.toList.all Json.isBlank = true) :
    Json.read? (r.body ++ blanks) = some r.json := by
  refine Json.read?_of_spells r.spells_body hblanks ?_
  have htwo : 2 ≤ r.body.length := Json.two_le_length_object _
  rw [String.length_append]
  omega

theorem read?_jsonLine : Json.read? r.jsonLine = some r.json := r.read?_body "\n" (by decide)

theorem json_injective : Function.Injective json := by
  rintro ⟨millis, ⟨level, target, text⟩, ⟨file, line⟩⟩ ⟨millis', ⟨level', target', text'⟩, ⟨file', line'⟩⟩ h
  simp only [json, Json.Value.object.injEq, List.cons.injEq, Prod.mk.injEq, Json.Value.string.injEq,
    Json.Value.number.injEq, Int.natCast_inj, true_and, and_true] at h
  obtain ⟨rfl, hlevel, rfl, rfl, rfl, rfl⟩ := h
  rw [Level.name_injective hlevel]

theorem jsonLine_injective : Function.Injective jsonLine := by
  intro r r' h
  have hread := r.read?_jsonLine
  rw [h, r'.read?_jsonLine] at hread
  exact (json_injective (Option.some.inj hread)).symm

end Record

/-! ## Lines behind one another -/

theorem splitOn_append_newline {cs : List Char} (h : '\n' ∉ cs) (rest : List Char) :
    (cs ++ '\n' :: rest).splitOn '\n' = cs :: rest.splitOn '\n' := by
  refine List.splitOnP_append_cons_of_forall_mem (fun c hc => ?_) '\n' rfl rest
  exact beq_eq_false_iff_ne.2 fun heq => h (heq ▸ hc)

theorem splitOn_jsonLines (records : List Record) :
    (String.join (records.map Record.jsonLine)).toList.splitOn '\n' =
      records.map (fun r => r.body.toList) ++ [[]] := by
  rw [String.toList_join]
  induction records with
  | nil => rfl
  | cons r rest ih =>
    rw [List.map_cons, List.flatMap_cons, r.toList_jsonLine, List.append_assoc, List.singleton_append,
      splitOn_append_newline r.unbroken_body.newline_not_mem, ih, List.map_cons, List.cons_append]

/-- Lines behind one another are read as their records. -/
theorem readLines?_jsonLines (records : List Record) :
    Json.readLines? (String.join (records.map Record.jsonLine)) = some (records.map Record.json) := by
  have hread (r : Record) : Json.read? r.body = some r.json := by
    have hempty := r.read?_body "" (by decide)
    rwa [String.append_empty] at hempty
  unfold Json.readLines?
  dsimp only
  rw [splitOn_jsonLines, if_pos List.getLast?_concat, List.dropLast_concat, List.mapM_map]
  simp only [Function.comp_def, String.ofList_toList, hread]
  exact List.mapM_pure

/-! ## What a logger writes -/

theorem Logger.render_of_json {config : Config} (hjson : config.format = .json) (time : Elapsed) (r : Record) :
    render config time r = r.jsonLine := by
  unfold render
  rw [hjson]

namespace History

/-- The record that a call writes after others, if it makes one and writing is on. -/
def written? (before : List Call) (call : Call) : Option Record :=
  if stderr before then record? before call else none

/-- The records written by all calls. -/
def written (calls : List Call) : List Record :=
  (inContext [] calls).filterMap fun entry => written? entry.1 entry.2

/-- Where records are written in JSON, a call that writes one writes the line of it. -/
theorem line?_of_json {before : List Call} {call : Call}
    (hjson : ∀ r, written? before call = some r → (config before).format = .json) :
    line? before call = (written? before call).map Record.jsonLine := by
  cases call with
  | log now note source =>
    show (if stderr before then (record? before (.log now note source)).map (lineOf (config before) now.elapsed)
      else none) = _
    unfold written? at *
    by_cases hstderr : stderr before = true
    · rw [if_pos hstderr, if_pos hstderr]
      simp only [if_pos hstderr] at hjson
      cases hrecord : record? before (.log now note source) with
      | none => rfl
      | some r => exact congrArg some (lineOf_of_json (hjson r hrecord) now.elapsed r)
    · rw [if_neg hstderr, if_neg hstderr]
      rfl
  | _ => exact congrArg (Option.map Record.jsonLine) (ite_self none).symm

/-- What stands on standard error after a run that writes in JSON is read line by line as the records written, in order
and with all their parts. No message adds a record, ends one early or changes another. -/
theorem readLines?_afterAll {calls : List Call}
    (hjson : ∀ entry ∈ inContext [] calls, ∀ r, written? entry.1 entry.2 = some r →
      (config entry.1).format = .json) :
    Json.readLines? (({} : Logger).afterAll calls).2 = some ((written calls).map Record.json) := by
  have hlines : lines calls = (written calls).map Record.jsonLine := by
    unfold lines written
    rw [List.map_filterMap]
    exact List.filterMap_congr fun entry hentry => line?_of_json (hjson entry hentry)
  rw [(mirrors_afterAll calls).written, hlines, readLines?_jsonLines]

end History

/-- A record that is written in JSON is one line and loses nothing, whatever its parts hold: any level, any time, and
any characters in its target, file and message. The line has one newline, its last character. Read as JSON it is the
object of the six parts and nothing else. So no other record, written in JSON under any settings, is this line. -/
theorem Logger.log_json_lossless (logger : Logger) (now : Instant) (note : Note) (source : Source)
    (hjson : logger.config.format = .json) (hstderr : logger.stderr = true)
    (henabled : logger.isEnabled note.level = true) :
    let line := (logger.log now note source).2
    (line.toList.count '\n' = 1 ∧ line.toList.getLast? = some '\n') ∧
    Json.read? line = some (.object [("file", .string source.file), ("level", .string note.level.name),
      ("line", .number source.line 0), ("msg", .string note.text), ("target", .string note.target),
      ("ts_ms", .number now.elapsed.millis 0)]) ∧
    ∀ (config : Config) (time : Elapsed) (r : Record), config.format = .json → render config time r = line →
      r = ⟨now.elapsed.millis, note, source⟩ := by
  intro line
  have hline : line = Record.jsonLine ⟨now.elapsed.millis, note, source⟩ := by
    have hafter := congrArg Prod.snd (logger.after_log_of_passes now source henabled)
    rw [if_pos hstderr, render_of_json hjson] at hafter
    exact hafter
  refine ⟨⟨?_, ?_⟩, ?_, fun config time r hconfig hsame => ?_⟩
  · rw [hline]
    exact Record.count_newline_jsonLine _
  · rw [hline, Record.toList_jsonLine]
    exact List.getLast?_concat
  · rw [hline]
    exact Record.read?_jsonLine _
  · rw [hline, render_of_json hconfig] at hsame
    exact Record.jsonLine_injective hsame

/-- A message that tries to end its string and its line and to go on with a record of its own. -/
theorem Logger.log_json_lossless_of_forging :
    let logger : Logger := { config := { format := .json } }
    let note : Note := ⟨.warn, "t", "x\"\x7d\n\x7b\"level\":\"ERROR\",\"msg\":\"\\\x01é\"\x7d"⟩
    let line := (logger.log ⟨12, 345000000⟩ note ⟨"main.rs", 7⟩).2
    (logger.config.format = .json ∧ logger.stderr = true ∧ logger.isEnabled note.level = true) ∧
    (line.toList.count '\n' = 1 ∧ line.toList.getLast? = some '\n') ∧
    Json.read? line = some (.object [("file", .string "main.rs"), ("level", .string "WARN"), ("line", .number 7 0),
      ("msg", .string note.text), ("target", .string "t"), ("ts_ms", .number 12345 0)]) := by
  intro logger note line
  have hjson : logger.config.format = .json := rfl
  have hstderr : logger.stderr = true := rfl
  have henabled : logger.isEnabled note.level = true := by decide
  obtain ⟨hends, hread, -⟩ := log_json_lossless logger ⟨12, 345000000⟩ note ⟨"main.rs", 7⟩ hjson hstderr henabled
  have hmillis : (⟨12, 345000000⟩ : Instant).elapsed.millis = 12345 := by decide
  rw [hmillis] at hread
  exact ⟨⟨hjson, hstderr, henabled⟩, hends, hread⟩

end CoinScript.Log
