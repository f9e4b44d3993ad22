/-
Executions beside a logger. The sites of an execution tell a logger their remarks as they come: before each chunk, at
an opcode for which the machine has no command, behind a chunk that failed, and at an end with open conditionals. What
a site does next does not depend on the logger, so an execution beside a logger is the execution itself, and the
logger ends as if it had heard the remarks afterwards. What these remarks are follows from how far the execution comes.

The second half rests on commands being silent: of all that a machine does, only an opcode without a command has
anything to remark. That is the invariant of checks again, for actions that are granted no remark.
-/
import CoinScript.Digest.Standard
import CoinScript.Proofs.Log.Listening
import CoinScript.Proofs.Machine.Checks
import CoinScript.Proofs.Machine.Commands
import CoinScript.Proofs.Machine.Walk

namespace CoinScript

open CoinScript.Action CoinScript.Log

/-! ## Actions that tell a logger -/

/-- An action of a run beside a logger. It reports checks alone: remarks are told to the logger. -/
abbrev Telling (σ α : Type) := Action SignatureCheck ExecError (σ × Listener) α

namespace Telling

variable {σ α β : Type}

/-- A site makes a remark. -/
def tell (around : Surroundings) (r : Remark) : Telling σ Unit :=
  Action.modify fun p => (p.1, p.2.hear around r)

/-- What has nothing to remark leaves the logger alone. -/
def silently (x : Exec σ α) : Telling σ α := fun p =>
  ⟨(x.run p.1).result, ((x.run p.1).state, p.2), Event.checks (x.run p.1).reports⟩

/-- If the action fails, a site makes a remark of it, and it still fails. -/
def tellingFailure (around : Surroundings) (x : Telling σ α) (f : ExecError → Remark) : Telling σ α := fun p =>
  match x.run p with
  | ⟨.ok a, p', checks⟩ => ⟨.ok a, p', checks⟩
  | ⟨.error e, p', checks⟩ => ⟨.error e, (p'.1, p'.2.hear around (f e)), checks⟩

/-- The action with a logger that hears of it afterwards. -/
def afterwards (around : Surroundings) (x : Exec σ α) : Telling σ α := fun p =>
  ⟨(x.run p.1).result, ((x.run p.1).state, p.2.hearAll around (Event.remarks (x.run p.1).reports)),
    Event.checks (x.run p.1).reports⟩

end Telling

namespace Machine

/-! ## An execution beside a logger -/

section Execution

variable (around : Surroundings) (rules : Rules)

/-- Executes an opcode, and tells of one that the machine has no command for. -/
def tellOpcode (op : UInt8) : Telling Machine Unit :=
  if Instruction.ofByte op = .command .unsupported then do
    let p ← Action.get
    if p.1.isExecuting then
      Telling.tell around ⟨.unsupportedOpcode, "unsupported opcode " ++ Hex.ofByte op⟩
      Action.fail (.invalidOpcode op)
  else Telling.silently (execOpcode rules op)

def tellOperation : Operation → Telling Machine Unit
  | .opcode op => tellOpcode around rules op
  | .push _ payload => Telling.silently (pushPayload rules payload)

/-- Hands over chunks in order and tells of each, the first of them under the number `i`, until one fails. -/
def tellDispatch : (i : Nat) → List Chunk → Telling Machine Unit
  | _, [] => pure ()
  | i, c :: rest => do
    Telling.tell around ⟨.dispatch, s!"dispatch chunk {i}: {c.operation.text}"⟩
    Telling.tellingFailure around (tellOperation around rules c.operation) fun e =>
      ⟨.failedChunk, s!"script execution failed at chunk {i} ({c.operation.text}): {e.message}"⟩
    tellDispatch (i + 1) rest

/-- Fails if a conditional is open, and tells of it. -/
def tellClose : Telling Machine Unit := do
  let p ← Action.get
  if p.1.conditions.length ≠ 0 then
    Telling.tell around ⟨.openAtEnd, s!"script ended with {p.1.conditions.length} open conditional(s)"⟩
    Action.fail .unbalancedConditional

/-- Executes a script beside a logger. -/
def tellExecution (script : Script) : Telling Machine Unit := do
  tellDispatch around rules 0 script.chunks
  tellClose around

end Execution

end Machine

/-! ## Telling and hearing afterwards -/

theorem Event.remarks_append (events more : List Event) :
    Event.remarks (events ++ more) = Event.remarks events ++ Event.remarks more := List.filterMap_append

theorem Event.remarks_eq_nil {events : List Event} {code : Bytes} {asked : Prop}
    (h : ∀ w ∈ events, w.ChecksOnly code asked False) : Event.remarks events = [] := by
  unfold remarks
  rw [List.filterMap_eq_nil_iff]
  intro w hw
  cases w with
  | remark r => exact (h _ hw).elim
  | check c => rfl

/-- The notes of the remarks among events. -/
def Event.notes (events : List Event) : List Note := (Event.remarks events).map Remark.note

theorem Event.notes_append (events more : List Event) :
    Event.notes (events ++ more) = Event.notes events ++ Event.notes more := by
  unfold notes
  rw [remarks_append, List.map_append]

namespace Telling

variable {σ α β : Type} {around : Surroundings}

theorem run_afterwards (x : Exec σ α) (s : σ) (listener : Listener) :
    (afterwards around x).run (s, listener) =
      ⟨(x.run s).result, ((x.run s).state, listener.hearAll around (Event.remarks (x.run s).reports)),
        Event.checks (x.run s).reports⟩ := rfl

/-- A logger that hears of a sequence afterwards hears of its parts one after the other. -/
theorem afterwards_bind (x : Exec σ α) (f : α → Exec σ β) :
    afterwards around (x >>= f) = afterwards around x >>= fun a => afterwards around (f a) := by
  funext ⟨s, listener⟩
  show (afterwards around (x >>= f)).run _ = (afterwards around x >>= fun a => afterwards around (f a)).run _
  rcases hx : x.run s with ⟨e | a, s', reports⟩
  · have hafter : (afterwards around x).run (s, listener) =
        ⟨.error e, (s', listener.hearAll around (Event.remarks reports)), Event.checks reports⟩ := by
      rw [run_afterwards, hx]
    rw [run_bind_error hafter, run_afterwards, run_bind_error hx]
  · have hafter : (afterwards around x).run (s, listener) =
        ⟨.ok a, (s', listener.hearAll around (Event.remarks reports)), Event.checks reports⟩ := by
      rw [run_afterwards, hx]
    rw [run_bind_ok hafter, run_afterwards, run_bind_ok hx, run_afterwards, Event.remarks_append,
      Event.checks_append, Listener.hearAll_append]

theorem afterwards_remark (r : Remark) : afterwards around (report (.remark r) : Exec σ Unit) = tell around r := rfl

/-- Asking for the state of the run is asking for the state beside the logger. -/
theorem afterwards_get_bind (f : σ → Exec σ α) :
    afterwards around (Action.get >>= f) = Action.get >>= fun p => afterwards around (f p.1) := rfl

theorem afterwards_reportingFailure (x : Exec σ α) (f : ExecError → Remark) :
    afterwards around (x.reportingFailure fun e => .remark (f e)) = tellingFailure around (afterwards around x) f := by
  funext ⟨s, listener⟩
  show (afterwards around (x.reportingFailure fun e => .remark (f e))).run (s, listener) = _
  unfold tellingFailure
  rcases hx : x.run s with ⟨e | a, s', reports⟩
  · rw [run_afterwards, run_reportingFailure_error _ hx, run_afterwards, hx]
    simp only [Event.remarks_append, Event.checks_append, Listener.hearAll_append]
    simp [Event.remarks, Event.checks, Listener.hearAll]
  · rw [run_afterwards, run_reportingFailure_ok _ hx, run_afterwards, hx]

/-- Of what remarks nothing a logger hears nothing. -/
theorem afterwards_of_silent {x : Exec σ α} (h : ∀ s, Event.remarks (x.run s).reports = []) :
    afterwards around x = silently x := by
  funext ⟨s, listener⟩
  show (afterwards around x).run (s, listener) = _
  rw [run_afterwards, h s]
  rfl

end Telling

namespace Machine

variable {around : Surroundings} {rules : Rules}

/-! ## Silence -/

theorem remarks_handle_eq_nil {op : Operation} (h : op.makesRemark = false) (m : Machine) :
    Event.remarks (((context rules).handle op).run m).reports = [] := by
  have hnone : op.makesRemark = true → False := by
    rw [h]
    exact Bool.false_ne_true
  have hcommits : CommitsTo m.scriptCode True False ((context rules).handle op) :=
    invariant_commitsTo.handle (fun _ => trivial) hnone
  exact Event.remarks_eq_nil (hcommits m rfl).2

/-! ## The execution itself -/

theorem tellOpcode_eq (op : UInt8) : tellOpcode around rules op = Telling.afterwards around (execOpcode rules op) := by
  unfold tellOpcode
  split
  · next hnone =>
    unfold execOpcode
    rw [hnone]
    unfold whenExecuting
    rw [Telling.afterwards_get_bind]
    refine congrArg _ (funext fun p => ?_)
    split
    · unfold perform
      rw [Telling.afterwards_bind, Telling.afterwards_remark]
      rfl
    · rfl
  · next hsome =>
    have hsilent := Operation.makesRemark_opcode_of_ne hsome
    exact (Telling.afterwards_of_silent (remarks_handle_eq_nil hsilent)).symm

theorem tellOperation_eq (op : Operation) :
    tellOperation around rules op = Telling.afterwards around ((context rules).handle op) := by
  cases op with
  | opcode op => exact tellOpcode_eq op
  | push lead payload =>
    have hsilent : (Operation.push lead payload).makesRemark = false := rfl
    exact (Telling.afterwards_of_silent (remarks_handle_eq_nil hsilent)).symm

theorem tellDispatch_eq (i : Nat) (chunks : List Chunk) :
    tellDispatch around rules i chunks = Telling.afterwards around ((context rules).dispatch i chunks) := by
  induction chunks generalizing i with
  | nil => rfl
  | cons c rest ih =>
    unfold tellDispatch Context.dispatch
    rw [ih, tellOperation_eq, Telling.afterwards_bind, Telling.afterwards_bind]
    unfold Context.dispatching Context.failedAt
    rw [Telling.afterwards_remark, Telling.afterwards_reportingFailure]

theorem tellClose_eq (rules : Rules) : tellClose around = Telling.afterwards around (context rules).close := by
  unfold tellClose Context.close
  rw [Telling.afterwards_get_bind]
  refine congrArg _ (funext fun p => ?_)
  dsimp only [context]
  split
  · unfold Context.leftOpen
    rw [Telling.afterwards_bind, Telling.afterwards_remark]
    rfl
  · rfl

/-- Telling a logger on the way comes to the same as letting it hear of the execution afterwards. -/
theorem tellExecution_eq (script : Script) :
    tellExecution around rules script = Telling.afterwards around ((context rules).execute script) := by
  unfold tellExecution Context.execute
  rw [tellDispatch_eq, tellClose_eq rules, Telling.afterwards_bind]

/-! ## What is remarked -/

/-- A note of an execution. -/
def tracing (i : Nat) (c : Chunk) : Note :=
  ⟨.trace, "fluxscript::exec", s!"dispatch chunk {i}: {c.operation.text}"⟩

/-- Chunks are traced in order, the first of them under the number `i`. -/
def tracingAll (i : Nat) (chunks : List Chunk) : List Note := (chunks.zipIdx i).map fun entry => tracing entry.2 entry.1

/-- An opcode for which the machine has no command is noted. -/
def lacking : Operation → List Note
  | .opcode op =>
    if Instruction.ofByte op = .command .unsupported then
      [⟨.debug, "fluxscript::interpreter", "unsupported opcode " ++ Hex.ofByte op⟩]
    else []
  | .push _ _ => []

theorem lacking_opcode (op : UInt8) : lacking (.opcode op) =
    if Instruction.ofByte op = .command .unsupported then
      [⟨.debug, "fluxscript::interpreter", "unsupported opcode " ++ Hex.ofByte op⟩]
    else [] := rfl

def failing (i : Nat) (c : Chunk) (e : ExecError) : Note :=
  ⟨.debug, "fluxscript::exec", s!"script execution failed at chunk {i} ({c.operation.text}): {e.message}"⟩

/-- Open conditionals are noted by their number. -/
def leaving (conditions : List Bool) : List Note :=
  if conditions = [] then []
  else [⟨.debug, "fluxscript::exec", s!"script ended with {conditions.length} open conditional(s)"⟩]

/-- The notes of an execution, by how far it comes: each chunk is traced before it is handed over. The first that
fails is noted with its number, its text and the cause, behind a note of its opcode if the machine has no command for
it; and if none fails, conditionals that are open at the end are noted. -/
inductive Chronicle (rules : Rules) (i : Nat) (chunks : List Chunk) (m : Machine) : List Note → Prop
  | failed {k : Nat} {c : Chunk} {t : Machine} {e : ExecError} (hc : chunks[k]? = some c)
      (hcomes : (context rules).ComesTo chunks m k t)
      (hfails : (((context rules).handle c.operation).run t).result = .error e) :
      Chronicle rules i chunks m
        (tracingAll i (chunks.take (k + 1)) ++ lacking c.operation ++ [failing (i + k) c e])
  | ended {t : Machine} (hcomes : (context rules).ComesTo chunks m chunks.length t) :
      Chronicle rules i chunks m (tracingAll i chunks ++ leaving t.conditions)

variable {i : Nat} {c : Chunk} {chunks : List Chunk} {m t : Machine} {e : ExecError} {notes : List Note}

theorem Chronicle.cons (hc : ((context rules).handle c.operation).Yields m () t)
    (h : Chronicle rules (i + 1) chunks t notes) : Chronicle rules i (c :: chunks) m (tracing i c :: notes) := by
  cases h with
  | @failed k c' t' e hat hcomes hfails =>
    have hcomes' := Context.comesTo_succ.2 ⟨t, hc, hcomes⟩
    have hnotes : Chronicle rules i (c :: chunks) m _ := .failed (k := k + 1) hat hcomes' hfails
    rw [show i + (k + 1) = i + 1 + k by omega] at hnotes
    exact hnotes
  | ended hcomes => exact .ended (Context.comesTo_succ.2 ⟨t, hc, hcomes⟩)

/-- An operation that succeeds has nothing noted; one that fails has its opcode noted if there is no command for it. -/
theorem notes_handle (rules : Rules) (op : Operation) (m : Machine) :
    Event.notes (((context rules).handle op).run m).reports =
      match (((context rules).handle op).run m).result with
      | .ok () => []
      | .error _ => lacking op := by
  have hsilent (h : op.makesRemark = false) : Event.notes (((context rules).handle op).run m).reports = [] :=
    congrArg _ (remarks_handle_eq_nil h m)
  cases op with
  | push lead payload =>
    rw [hsilent rfl]
    split <;> rfl
  | opcode op =>
    rw [lacking_opcode]
    by_cases hnone : Instruction.ofByte op = .command .unsupported
    · cases hexecuting : m.isExecuting with
      | true =>
        rw [run_handle_command hexecuting hnone, if_pos hnone]
        rfl
      | false =>
        rw [run_handle_command_of_idle hexecuting hnone]
        rfl
    · rw [hsilent (Operation.makesRemark_opcode_of_ne hnone), if_neg hnone]
      split <;> rfl

theorem notes_close (rules : Rules) (m : Machine) :
    Event.notes ((context rules).close.run m).reports = leaving m.conditions := by
  have hconditions : (context rules).conditions m = m.conditions := rfl
  unfold Context.close leaving
  rw [run_bind_silent (run_get m), hconditions]
  cases m.conditions with
  | nil => rfl
  | cons taken outer => rfl

/-- What is noted from some chunk on is their chronicle. -/
theorem chronicle_dispatch (rules : Rules) (i : Nat) (chunks : List Chunk) (m : Machine) :
    Chronicle rules i chunks m
      (Event.notes (((context rules).dispatch i chunks >>= fun _ => (context rules).close).run m).reports) := by
  induction chunks generalizing i m with
  | nil =>
    unfold Context.dispatch
    rw [run_bind_silent (run_pure () m), notes_close]
    exact .ended (Context.comesTo_zero.2 rfl)
  | cons c rest ih =>
    have hhandle := notes_handle rules c.operation m
    unfold Context.dispatch
    rw [bind_assoc, run_bind_ok (run_report _ m), bind_assoc]
    rcases hrun : ((context rules).handle c.operation).run m with ⟨e | ⟨⟩, t, reports⟩
    · rw [hrun] at hhandle
      have hfails : (((context rules).handle c.operation).run m).result = .error e := by rw [hrun]
      have hnotes : Chronicle rules i (c :: rest) m _ := .failed (k := 0) rfl (Context.comesTo_zero.2 rfl) hfails
      rw [run_bind_error (run_reportingFailure_error _ hrun), Event.notes_append, Event.notes_append, hhandle]
      exact hnotes
    · rw [hrun] at hhandle
      rw [run_bind_ok (run_reportingFailure_ok _ hrun), Event.notes_append, Event.notes_append, hhandle]
      exact (ih (i + 1) t).cons (yields_of_run hrun)

theorem chronicle_execute (rules : Rules) (script : Script) (m : Machine) :
    Chronicle rules 0 script.chunks m (Event.notes (((context rules).execute script).run m).reports) :=
  chronicle_dispatch rules 0 script.chunks m

/-- An execution beside a logger has the result, the machine and the checks of signatures that it has without one,
whatever the logger, the clock and the places of the sites are. What is told are entries that do not depend on the
logger, and their notes are the chronicle of the execution: of these entries the logger accepts those within its
threshold, in order, and nothing else. At the threshold for traces that is all of them. -/
theorem tellExecution_only_observes (rules : Rules) (script : Script) (m : Machine) :
    let plain := ((context rules).execute script).run m
    ∃ entries : Surroundings → Nat → List Entry, ∀ (around : Surroundings) (listener : Listener),
      let told := entries around listener.heard
      (tellExecution around rules script).run (m, listener) =
          ⟨plain.result,
            (plain.state, (listener.acceptAll (told.filter listener.logger.accepts)).skip told.length),
            Event.checks plain.reports⟩ ∧
        Chronicle rules 0 script.chunks m (told.map fun entry => entry.record.note) ∧
        (listener.logger.config.level = .trace → told.filter listener.logger.accepts = told) := by
  intro plain
  refine ⟨fun around heard => around.entries heard (Event.remarks plain.reports), fun around listener => ?_⟩
  refine ⟨?_, ?_, fun hlevel => ?_⟩
  · rw [tellExecution_eq, Telling.run_afterwards, Listener.hearAll_eq_acceptAll, Surroundings.length_entries]
  · rw [Surroundings.map_note_entries]
    exact chronicle_execute rules script m
  · refine List.filter_eq_self.2 fun entry _ => ?_
    unfold Logger.accepts
    rw [hlevel, Level.passes_trace]

/-- A literal and an opcode without a command, once with all traced and once with the search for faults alone: the
machine keeps the literal either way, and what is written differs by the lines of the traces. -/
theorem tellExecution_only_observes_of_unsupported :
    let rules : Rules := { digests := Digests.standard, checker := fun _ _ _ => false }
    let script : Script := { chunks := [⟨.opcode 0x51, 0, 1⟩, ⟨.opcode 0xba, 1, 2⟩] }
    let around : Surroundings := { clock := fun _ => {}, places := fun _ => {} }
    let listening (level : Level) : Listener := { logger := { config := { level := level, timestamps := false } } }
    let traced := (tellExecution around rules script).run ({}, listening .trace)
    let searched := (tellExecution around rules script).run ({}, listening .debug)
    let faults := "DEBUG fluxscript::interpreter: unsupported opcode 0xba\n" ++
      "DEBUG fluxscript::exec: script execution failed at chunk 1 (OP_UNKNOWN_0xba): " ++
      "invalid opcode OP_UNKNOWN (0xba)\n"
    (∃ told : List Entry, Chronicle rules 0 script.chunks {} (told.map fun entry => entry.record.note) ∧
        traced.state.2 = ((listening .trace).acceptAll told).skip told.length) ∧
      searched.result = traced.result ∧ searched.state.1 = traced.state.1 ∧
      traced.result = .error (.invalidOpcode 0xba) ∧ traced.state.1.stack = [[1]] ∧
      traced.state.2.written = "TRACE fluxscript::exec: dispatch chunk 0: OP_1\n" ++
        "TRACE fluxscript::exec: dispatch chunk 1: OP_UNKNOWN_0xba\n" ++ faults ∧
      searched.state.2.written = faults := by
  intro rules script around listening traced searched faults
  obtain ⟨entries, hentries⟩ := tellExecution_only_observes rules script {}
  obtain ⟨htraced, hchronicle, hall⟩ := hentries around (listening .trace)
  obtain ⟨hsearched, -, -⟩ := hentries around (listening .debug)
  rw [hall rfl] at htraced
  have hresult : searched.result = traced.result :=
    (congrArg Outcome.result hsearched).trans (congrArg Outcome.result htraced).symm
  have hmachine : searched.state.1 = traced.state.1 :=
    (congrArg (·.state.1) hsearched).trans (congrArg (·.state.1) htraced).symm
  exact ⟨⟨_, hchronicle, congrArg (·.state.2) htraced⟩, hresult, hmachine, rfl, rfl, by decide +kernel,
    by decide +kernel⟩

end Machine

end CoinScript
