/-
Which rejected edits are remarked. An edit that appends and is rejected makes one remark if a byte cannot stand by
itself or the new bytes do not decode. An edit that has nothing to append, or more than any push can hold, is refused
without a word. An edit that succeeds has nothing to remark.
-/
import CoinScript.Proofs.Codec.Shortest
import CoinScript.Proofs.Log.Listening
import CoinScript.Proofs.Script.Rejection

namespace CoinScript.Script

open CoinScript.Log

/-- There is nothing to append, or more than any push can hold. -/
def Appending.RefusedSilently : Appending → Prop
  | opcode _ => False
  | data payload => payload = [] ∨ PushForm.minimal.capacity < payload.length
  | script other => other.data = []

/-- What is said of a rejected edit, if anything is. -/
def rejection : ScriptError → Note
  | .invalidOpcode op => ⟨.debug, "fluxscript::script", "rejected standalone opcode " ++ Hex.ofByte op⟩
  | cause => ⟨.debug, "fluxscript::script", s!"rejected script edit: {cause.message}"⟩

variable {s : Script} {appending : Appending}

/-! ## Remarks of edits -/

theorem notes_rebuild (bytes : Bytes) (s : Script) :
    let outcome := (rebuild bytes).run s
    outcome.reports.map Remark.note =
      match outcome.result with
      | .ok () => []
      | .error cause => [rejection cause] := by
  intro outcome
  cases hbytes : decodeAll bytes with
  | ok chunks =>
    have hrun : outcome = _ := run_rebuild_ok hbytes s
    rw [hrun]
    rfl
  | error cause =>
    have hrun : outcome = _ := run_rebuild_error hbytes s
    rw [hrun]
    rfl

theorem run_edit_of_refusedSilently (h : appending.RefusedSilently) (s : Script) :
    (∃ cause, (appending.edit.run s).result = .error cause) ∧ (appending.edit.run s).reports = [] := by
  unfold Appending.edit
  cases appending with
  | opcode op => exact absurd h id
  | data payload =>
    by_cases hnil : payload = []
    · rw [hnil, run_appendData_nil]
      exact ⟨⟨_, rfl⟩, rfl⟩
    · rw [run_appendData_of_error hnil (encodePush_of_lt (h.resolve_left hnil))]
      exact ⟨⟨_, rfl⟩, rfl⟩
  | script other =>
    rw [run_appendScript_of_nil h]
    exact ⟨⟨_, rfl⟩, rfl⟩

theorem notes_edit_of_not_refusedSilently (h : ¬ appending.RefusedSilently) (s : Script) :
    let outcome := appending.edit.run s
    outcome.reports.map Remark.note =
      match outcome.result with
      | .ok () => []
      | .error cause => [rejection cause] := by
  unfold Appending.edit
  cases appending with
  | opcode op =>
    cases hop : isUnappendable op with
    | true =>
      dsimp only
      rw [run_appendOpcode_of_unappendable hop]
      rfl
    | false =>
      dsimp only
      rw [run_appendOpcode hop]
      exact notes_rebuild _ s
  | data payload =>
    obtain ⟨hne, hroom⟩ := not_or.1 h
    dsimp only
    rw [run_appendData hne (encodePush_of_le (Nat.not_lt.1 hroom))]
    exact notes_rebuild _ s
  | script other =>
    dsimp only
    rw [run_appendScript h]
    exact notes_rebuild _ s

/-! ## What a logger makes of them -/

theorem accepts_rejection {logger : Logger} (hlevel : logger.config.level = .debug ∨ logger.config.level = .trace)
    {entry : Entry} {cause : ScriptError} (hnote : entry.record.note = rejection cause) :
    logger.accepts entry = true := by
  have hdebug : (rejection cause).level = .debug := by cases cause <;> rfl
  unfold Logger.accepts
  rw [hnote, hdebug]
  rcases hlevel with h | h <;> rw [h] <;> rfl

/-- What a logger that looks for faults hears of an edit that appends. If there is nothing to append, or more than any
push can hold, the edit is rejected and nothing is heard. Every other edit that is rejected has exactly one record
accepted, of a note with the cause; and one that succeeds has none. -/
theorem rejections_heard_unless_silent (s : Script) (appending : Appending) (around : Surroundings) {listener : Listener}
    (hlevel : listener.logger.config.level = .debug ∨ listener.logger.config.level = .trace) :
    let outcome := appending.edit.run s
    let after := listener.hearAll around outcome.reports
    (appending.RefusedSilently → (∃ cause, outcome.result = .error cause) ∧ after = listener) ∧
      (∀ cause, ¬ appending.RefusedSilently → outcome.result = .error cause →
        ∃ entry, entry.record.note = rejection cause ∧ (rejection cause).level = .debug ∧
          after = (listener.accept entry).skip 1) ∧
      (outcome.result = .ok () → after = listener) := by
  intro outcome after
  refine ⟨fun hsilent => ?_, fun cause hloud hrejected => ?_, fun hok => ?_⟩
  · obtain ⟨hfails, hreports⟩ := run_edit_of_refusedSilently hsilent s
    have hafter : after = listener.hearAll around outcome.reports := rfl
    rw [hafter, hreports]
    exact ⟨hfails, rfl⟩
  · have hnotes := notes_edit_of_not_refusedSilently hloud s
    dsimp only at hnotes
    rw [hrejected] at hnotes
    obtain ⟨r, hreports, hnote⟩ := List.map_eq_singleton_iff.1 hnotes
    have hafter : after = listener.hear around r := by
      show listener.hearAll around outcome.reports = _
      rw [hreports]
      rfl
    have hentry : (around.entry listener.heard r).record.note = rejection cause := hnote
    refine ⟨around.entry listener.heard r, hentry, by cases cause <;> rfl, ?_⟩
    rw [hafter, Listener.hear_of_accepts (accepts_rejection hlevel hentry)]
  · have hloud : ¬ appending.RefusedSilently := fun hsilent => by
      obtain ⟨⟨cause, hrejected⟩, -⟩ := run_edit_of_refusedSilently hsilent s
      cases hok.symm.trans hrejected
    have hnotes := notes_edit_of_not_refusedSilently hloud s
    dsimp only at hnotes
    rw [hok] at hnotes
    show listener.hearAll around outcome.reports = listener
    rw [List.map_eq_nil_iff.1 hnotes]
    rfl

/-- A byte that announces a length field is rejected with a record, a payload of no byte without one. -/
theorem rejections_heard_unless_silent_of_lone_byte :
    let around : Surroundings := { clock := fun _ => {}, places := fun _ => {} }
    let listener : Listener := { logger := { config := { level := .debug, timestamps := false } } }
    let rejected := (Appending.opcode 0x4c).edit.run empty
    let refused := (Appending.data []).edit.run empty
    (listener.logger.config.level = .debug ∧ rejected.result = .error (.invalidOpcode 0x4c) ∧
      (Appending.data []).RefusedSilently) ∧
      (∃ entry, entry.record.note = ⟨.debug, "fluxscript::script", "rejected standalone opcode 0x4c"⟩ ∧
        listener.hearAll around rejected.reports = (listener.accept entry).skip 1) ∧
      (listener.hearAll around rejected.reports).written =
        "DEBUG fluxscript::script: rejected standalone opcode 0x4c\n" ∧
      listener.hearAll around refused.reports = listener := by
  intro around listener rejected refused
  have hrejected : rejected.result = .error (.invalidOpcode 0x4c) := rfl
  have hlevel : listener.logger.config.level = .debug ∨ listener.logger.config.level = .trace := .inl rfl
  obtain ⟨-, hloud, -⟩ := rejections_heard_unless_silent empty (.opcode 0x4c) around hlevel
  obtain ⟨entry, hnote, -, hheard⟩ := hloud _ id hrejected
  obtain ⟨hsilent, -, -⟩ := rejections_heard_unless_silent empty (.data []) around hlevel
  exact ⟨⟨rfl, hrejected, .inl rfl⟩, ⟨entry, hnote, hheard⟩, by decide +kernel, (hsilent (.inl rfl)).2⟩

/-- A rejected edit need not be heard of: appending no data to the empty script fails, and a logger that looks for
faults and writes has nothing to write. -/
theorem empty_data_rejected_unheard :
    let around : Surroundings := { clock := fun _ => {}, places := fun _ => {} }
    let listener : Listener := { logger := { config := { level := .debug } } }
    let outcome := (appendData []).run empty
    let after := listener.hearAll around outcome.reports
    Reachable empty ∧ listener.logger.isEnabled .debug = true ∧ outcome.result = .error .emptyData ∧
      after.heard = 0 ∧ after.written = "" ∧ after.logger = listener.logger :=
  ⟨.empty, rfl, rfl, rfl, rfl, rfl⟩

end CoinScript.Script
