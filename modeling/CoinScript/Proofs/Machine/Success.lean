/-
Which runs of the machine succeed, and where they lead. Each action on the stack has one lemma that
says from which states it succeeds, with what value and in which state; a script succeeds where its
operations do one after the other and no conditional is open at the end, and a payment where its
scripts do in turn.
-/
import CoinScript.Machine.Verify
import CoinScript.Proofs.Action
import Mathlib.Tactic.Simproc.ExistsAndEq

namespace CoinScript

open CoinScript.Action

variable {m m' m'' : Machine} {u : Unit}

/-- A truth value is read as it was written. -/
@[simp] theorem Truth.ofBytes_encode (b : Bool) : Truth.ofBytes (Truth.encode b) = b := by
  cases b <;> rfl

theorem Truth.length_encode_le (b : Bool) : (Truth.encode b).length ≤ 1 := by
  cases b <;> decide

/-! ## Walking through a script -/

namespace Context

variable {σ : Type} {context : Context σ} {s s' : σ} {i : Nat} {c : Chunk} {chunks : List Chunk}

@[simp] theorem yields_dispatch_nil : (context.dispatch i []).Yields s u s' ↔ s' = s := by
  simp [dispatch]

@[simp] theorem yields_dispatch_cons : (context.dispatch i (c :: chunks)).Yields s u s' ↔
    ∃ t, (context.handle c.operation).Yields s () t ∧ (context.dispatch (i + 1) chunks).Yields t u s' := by
  simp [dispatch]

@[simp] theorem yields_close : context.close.Yields s u s' ↔ context.conditions s = [] ∧ s' = s := by
  cases h : context.conditions s with
  | nil => simp [close, h]
  | cons taken outer => simp [close, h]

end Context

namespace Machine

/-! ## The stack -/

@[simp] theorem yields_push {limits : Limits} {element : Bytes} :
    (push limits element).Yields m u m' ↔
      element.length ≤ limits.element ∧ m.stack.length < limits.items ∧
        m' = { m with stack := element :: m.stack } := by
  simp [push, and_assoc]

@[simp] theorem yields_pop {element : Bytes} :
    pop.Yields m element m' ↔ ∃ rest, m.stack = element :: rest ∧ m' = { m with stack := rest } := by
  cases h : m.stack with
  | nil => simp [not_yields_of_run (run_pop_nil h)]
  | cons top rest =>
    rw [Yields, run_pop_cons h]
    simp [and_assoc, eq_comm]

/-! ## Steps -/

/-- Where every open branch is taken, what is to be done is done; elsewhere nothing is. -/
@[simp] theorem yields_whenExecuting {x : Exec Machine Unit} :
    (whenExecuting x).Yields m u m' ↔ if m.isExecuting then x.Yields m u m' else m' = m := by
  cases h : m.isExecuting with
  | true => simp [whenExecuting, h]
  | false => simp [whenExecuting, h]

section Executing

variable {rules : Rules} {lead op : UInt8} {payload : Bytes}

theorem yields_handle_push (h : m.isExecuting = true) :
    ((context rules).handle (.push lead payload)).Yields m u m' ↔ (push rules.limits payload).Yields m u m' := by
  simp [Context.handle, context, pushPayload, h]

theorem yields_handle_command {c : Command} (h : m.isExecuting = true)
    (hc : Instruction.ofByte op = .command c) :
    ((context rules).handle (.opcode op)).Yields m u m' ↔ (perform rules op c).Yields m u m' := by
  simp [Context.handle, context, execOpcode, hc, h]

theorem yields_perform_digest {d : DigestKind} : (perform rules op (.digest d)).Yields m u m' ↔
    ∃ element rest, m.stack = element :: rest ∧
      (push rules.limits (applyDigest rules.digests d element)).Yields { m with stack := rest } u m' := by
  simp [perform]

theorem yields_perform_equal : (perform rules op (.test .equal false)).Yields m u m' ↔
    ∃ a b rest, m.stack = a :: b :: rest ∧
      (push rules.limits (Truth.encode (a == b))).Yields { m with stack := rest } u m' := by
  simp [perform, decideTest]

end Executing

/-! ## Scripts -/

/-- A machine that is about to run a script. -/
def started (script : Script) (stack : List Bytes) : Machine :=
  { stack := stack, conditions := [], scriptCode := script.data }

/-- A run from a state is the execution of its script from the state that it starts in. -/
theorem run_runScript (rules : Rules) (script : Script) (m : Machine) :
    (runScript rules script).run m = ((context rules).execute script).run (started script m.stack) :=
  run_bind_silent (run_modify _ m)

theorem succeeded_of_stack {verdict : Bool} {rest : List Bytes} (h : m.stack = Truth.encode verdict :: rest) :
    m.succeeded = verdict := by
  simp [succeeded, h]

/-- A run starts afresh on the stack as it is, dispatches every chunk and leaves no conditional open. -/
theorem yields_runScript {rules : Rules} {script : Script} :
    (runScript rules script).Yields m u m' ↔
      ((context rules).dispatch 0 script.chunks).Yields (started script m.stack) () m' ∧
        m'.conditions = [] := by
  simp only [runScript, Context.execute, yields_unit_bind, yields_modify, Context.yields_close,
    exists_eq_left]
  constructor
  · rintro ⟨t, hdispatch, hclosed, rfl⟩
    exact ⟨hdispatch, hclosed⟩
  · rintro ⟨hdispatch, hclosed⟩
    exact ⟨m', hdispatch, hclosed, rfl⟩

/-- A run depends on the machine by its stack alone. -/
theorem run_runScript_congr {rules : Rules} {script : Script} (h : m.stack = m'.stack) :
    (runScript rules script).run m = (runScript rules script).run m' := by
  rw [runScript, run_bind_ok (run_modify _ m), run_bind_ok (run_modify _ m'), h]

theorem yields_runScript_congr {rules : Rules} {script : Script} (h : m.stack = m'.stack) :
    (runScript rules script).Yields m u m'' ↔ (runScript rules script).Yields m' u m'' := by
  rw [Yields, Yields, run_runScript_congr h]

/-! ## Payments -/

theorem run_demandSuccess (m : Machine) :
    demandSuccess.run m = ⟨if m.succeeded then .ok () else .error .evalFalse, m, []⟩ := by
  rw [demandSuccess, run_bind_silent (run_get m)]
  cases m.succeeded <;> rfl

@[simp] theorem yields_demandSuccess : demandSuccess.Yields m u m' ↔ m.succeeded = true ∧ m' = m := by
  simp [demandSuccess]

/-- A committed script is redeemed where it decodes and runs to a true result on the stack below it. -/
theorem yields_redeem {rules : Rules} {unlocked : List Bytes} :
    (redeem rules unlocked).Yields m u m' ↔
      ∃ bytes rest script, unlocked = bytes :: rest ∧ Script.parse bytes = .ok script ∧
        (runScript rules script).Yields { m with stack := rest } () m' ∧ m'.succeeded = true := by
  cases unlocked with
  | nil => simp [redeem]
  | cons bytes rest =>
    cases hparse : Script.parse bytes with
    | error cause => simp [redeem, hparse]
    | ok script => simp [redeem, hparse, and_assoc]

/-- A payment succeeds where its unlocking and locking scripts run to a true result and, if the latter
commits to a script, the former only pushes and that script is redeemed. -/
theorem yields_verifyPayment {rules : Rules} {unlocking locking : Script} :
    (verifyPayment rules unlocking locking).Yields m u m'' ↔
      ∃ unlocked m', (runScript rules unlocking).Yields m () unlocked ∧
        (runScript rules locking).Yields unlocked () m' ∧ m'.succeeded = true ∧
        if locking.isPayToScriptHash then
          unlocking.isDataOnly = true ∧ (redeem rules unlocked.stack).Yields m' () m''
        else m'' = m' := by
  simp only [verifyPayment, yields_unit_bind, yields_get_bind, yields_demandSuccess]
  cases hcommits : locking.isPayToScriptHash with
  | true => simp [and_assoc]
  | false => simp

end Machine

end CoinScript
