/-
The walk through a script: each chunk in order is handed to a context that pushes data and executes
opcodes, until one fails; after the last one no conditional may be open. What a context does with
what it is handed is its own affair, so the walk is the same for every one of them.
-/
import CoinScript.Action
import CoinScript.Log.Note
import CoinScript.Machine.Error
import CoinScript.Script.Basic

namespace CoinScript

/-- A signature that was checked, with the key and the script it was to commit to, and the verdict. -/
structure SignatureCheck where
  signature : Bytes
  key : Bytes
  scriptCode : Bytes
  accepted : Bool
  deriving DecidableEq

/-- What a run reports: a remark, or a signature checked. -/
inductive Event where
  | remark (r : Log.Remark)
  | check (c : SignatureCheck)
  deriving DecidableEq

/-- The remarks among events. -/
def Event.remarks (events : List Event) : List Log.Remark :=
  events.filterMap fun
    | remark r => some r
    | check _ => none

/-- The signature checks among events. -/
def Event.checks (events : List Event) : List SignatureCheck :=
  events.filterMap fun
    | remark _ => none
    | check c => some c

/-- An action of a run. -/
abbrev Exec (σ α : Type) := Action Event ExecError σ α

/-- What scripts are dispatched into. -/
structure Context (σ : Type) where
  /-- Takes the payload of a push. -/
  push : Bytes → Exec σ Unit
  /-- Takes an opcode. -/
  exec : UInt8 → Exec σ Unit
  /-- The open conditionals of a state, innermost first. -/
  conditions : σ → List Bool

namespace Context

variable {σ : Type}

/-- Hands one operation over. -/
def handle (context : Context σ) : Operation → Exec σ Unit
  | .opcode op => context.exec op
  | .push _ payload => context.push payload

/-- Said before a chunk is handed over. -/
def dispatching (i : Nat) (c : Chunk) : Event :=
  .remark ⟨.dispatch, s!"dispatch chunk {i}: {c.operation.text}"⟩

/-- Said when a chunk failed. -/
def failedAt (i : Nat) (c : Chunk) (e : ExecError) : Event :=
  .remark ⟨.failedChunk, s!"script execution failed at chunk {i} ({c.operation.text}): {e.message}"⟩

/-- Said when conditionals are open at the end. -/
def leftOpen (count : Nat) : Event :=
  .remark ⟨.openAtEnd, s!"script ended with {count} open conditional(s)"⟩

/-- Hands over chunks in order, the first of them under the number `i`, until one fails. -/
def dispatch (context : Context σ) : (i : Nat) → List Chunk → Exec σ Unit
  | _, [] => pure ()
  | i, c :: rest => do
    Action.report (dispatching i c)
    (context.handle c.operation).reportingFailure (failedAt i c)
    dispatch context (i + 1) rest

/-- Fails if a conditional is open. -/
def close (context : Context σ) : Exec σ Unit := do
  let s ← Action.get
  let count := (context.conditions s).length
  if count ≠ 0 then
    Action.report (leftOpen count)
    Action.fail .unbalancedConditional

/-- Hands over every chunk of a script, then requires every conditional closed. -/
def execute (context : Context σ) (script : Script) : Exec σ Unit := do
  context.dispatch 0 script.chunks
  context.close

end Context

end CoinScript
