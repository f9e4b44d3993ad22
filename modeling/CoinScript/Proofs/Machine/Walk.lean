/-
Runs without their remarks. A dispatch hands operations over one after the other; which chunk an
operation came from shows in remarks alone. So how a run ends, the machine it leaves and the
signatures it checks follow from its operations, and the outcome of a whole payment is put together
from the outcomes of its scripts.
-/
import CoinScript.Proofs.Machine.Success

namespace CoinScript

open CoinScript.Action

namespace Exec

variable {σ α β : Type}

/-- The action, of whose reports only the checks are kept. -/
def onlyChecks (x : Exec σ α) : Action SignatureCheck ExecError σ α := fun s =>
  ⟨(x.run s).result, (x.run s).state, Event.checks (x.run s).reports⟩

theorem run_onlyChecks (x : Exec σ α) (s : σ) : (onlyChecks x).run s =
    ⟨(x.run s).result, (x.run s).state, Event.checks (x.run s).reports⟩ := rfl

theorem onlyChecks_bind (x : Exec σ α) (f : α → Exec σ β) :
    onlyChecks (x >>= f) = onlyChecks x >>= fun a => onlyChecks (f a) := by
  funext s
  show (onlyChecks (x >>= f)).run s = (onlyChecks x >>= fun a => onlyChecks (f a)).run s
  rcases hx : x.run s with ⟨e | a, s', reports⟩
  · have hchecks : (onlyChecks x).run s = ⟨.error e, s', Event.checks reports⟩ := by
      rw [run_onlyChecks, hx]
    rw [run_bind_error hchecks, run_onlyChecks, run_bind_error hx]
  · have hchecks : (onlyChecks x).run s = ⟨.ok a, s', Event.checks reports⟩ := by
      rw [run_onlyChecks, hx]
    rw [run_bind_ok hchecks, run_onlyChecks, run_bind_ok hx, run_onlyChecks]
    simp [Event.checks]

theorem onlyChecks_remark (r : Log.Remark) : onlyChecks (report (.remark r) : Exec σ Unit) = pure () := rfl

/-- What is remarked on a failure is not kept. -/
theorem onlyChecks_reportingFailure (x : Exec σ α) (f : ExecError → Log.Remark) :
    onlyChecks (x.reportingFailure fun e => .remark (f e)) = onlyChecks x := by
  funext s
  show (onlyChecks (x.reportingFailure fun e => .remark (f e))).run s = (onlyChecks x).run s
  rcases hx : x.run s with ⟨e | a, s', reports⟩
  · rw [run_onlyChecks, run_onlyChecks, run_reportingFailure_error _ hx, hx]
    simp [Event.checks]
  · rw [run_onlyChecks, run_onlyChecks, run_reportingFailure_ok _ hx, hx]

end Exec

/-! ## Walking through operations -/

namespace Context

variable {σ : Type} (context : Context σ)

/-- Hands over operations in order until one fails. -/
def walk (ops : List Operation) : Exec σ Unit := ops.forM context.handle

@[simp] theorem walk_nil : context.walk [] = pure () := rfl

theorem walk_cons (op : Operation) (ops : List Operation) :
    context.walk (op :: ops) = context.handle op >>= fun _ => context.walk ops := rfl

theorem walk_append (ops more : List Operation) :
    context.walk (ops ++ more) = context.walk ops >>= fun _ => context.walk more :=
  List.forM_append

/-- Remarks aside, dispatching chunks is walking through their operations. -/
theorem onlyChecks_dispatch (i : Nat) (chunks : List Chunk) :
    Exec.onlyChecks (context.dispatch i chunks) =
      Exec.onlyChecks (context.walk (chunks.map Chunk.operation)) := by
  induction chunks generalizing i with
  | nil => rfl
  | cons c rest ih =>
    rw [dispatch, Exec.onlyChecks_bind, dispatching, Exec.onlyChecks_remark, pure_bind,
      Exec.onlyChecks_bind, List.map_cons, walk_cons, Exec.onlyChecks_bind]
    show (Exec.onlyChecks ((context.handle c.operation).reportingFailure fun e => .remark _) >>= _) = _
    rw [Exec.onlyChecks_reportingFailure]
    exact congrArg _ (funext fun _ => ih (i + 1))

/-- A dispatch ends as the walk through its operations does, in the same state. -/
theorem dispatch_eq_walk (i : Nat) (chunks : List Chunk) (s : σ) :
    let walked := (context.walk (chunks.map Chunk.operation)).run s
    ((context.dispatch i chunks).run s).result = walked.result ∧
      ((context.dispatch i chunks).run s).state = walked.state := by
  have h := congrArg (fun x => Action.run x s) (context.onlyChecks_dispatch i chunks)
  injection h with hresult hstate _
  exact ⟨hresult, hstate⟩

theorem yields_dispatch_iff_walk {i : Nat} {chunks : List Chunk} {s s' : σ} :
    (context.dispatch i chunks).Yields s () s' ↔ (context.walk (chunks.map Chunk.operation)).Yields s () s' := by
  obtain ⟨hresult, hstate⟩ := context.dispatch_eq_walk i chunks s
  rw [Yields, Yields, hresult, hstate]

theorem dispatch_append (i : Nat) (chunks more : List Chunk) :
    context.dispatch i (chunks ++ more) =
      context.dispatch i chunks >>= fun _ => context.dispatch (i + chunks.length) more := by
  induction chunks generalizing i with
  | nil => rfl
  | cons c chunks ih =>
    rw [List.cons_append, dispatch, dispatch, ih, List.length_cons, Nat.add_right_comm, Nat.add_assoc]
    simp only [bind_assoc]

/-! ## How far a dispatch comes -/

/-- The first chunks are handled, so many of them, and lead from the one state to the other. -/
def ComesTo (chunks : List Chunk) (s : σ) (k : Nat) (s' : σ) : Prop :=
  k ≤ chunks.length ∧ (context.dispatch 0 (chunks.take k)).Yields s () s'

/-- The chunk at a place is the first that is not handled; it fails with the cause. -/
def FailsAt (chunks : List Chunk) (s : σ) (k : Nat) (e : ExecError) : Prop :=
  ∃ c s', chunks[k]? = some c ∧ context.ComesTo chunks s k s' ∧
    ((context.handle c.operation).run s').result = .error e

variable {context} {c : Chunk} {chunks : List Chunk} {s s' : σ} {k : Nat} {e : ExecError}

theorem comesTo_zero : context.ComesTo chunks s 0 s' ↔ s' = s := by
  rw [ComesTo, List.take_zero, yields_dispatch_nil]
  exact and_iff_right (Nat.zero_le _)

theorem comesTo_succ : context.ComesTo (c :: chunks) s (k + 1) s' ↔
    ∃ t, (context.handle c.operation).Yields s () t ∧ context.ComesTo chunks t k s' := by
  simp only [ComesTo, List.take_succ_cons, yields_dispatch_iff_walk, List.map_cons, walk_cons, yields_unit_bind,
    List.length_cons, Nat.add_le_add_iff_right]
  constructor
  · rintro ⟨hk, t, hc, hrest⟩
    exact ⟨t, hc, hk, hrest⟩
  · rintro ⟨t, hc, hk, hrest⟩
    exact ⟨hk, t, hc, hrest⟩

theorem result_dispatch_eq_error_iff (i : Nat) :
    ((context.dispatch i chunks).run s).result = .error e ↔ ∃ k, context.FailsAt chunks s k e := by
  rw [(context.dispatch_eq_walk i chunks s).1]
  induction chunks generalizing s with
  | nil =>
    refine ⟨nofun, ?_⟩
    rintro ⟨k, c, s', hc, -⟩
    cases hc
  | cons c chunks ih =>
    rw [List.map_cons, walk_cons]
    rcases hrun : (context.handle c.operation).run s with ⟨e' | ⟨⟩, t, reports⟩
    · rw [run_bind_error hrun]
      constructor
      · rintro ⟨⟩
        exact ⟨0, c, s, rfl, comesTo_zero.2 rfl, by rw [hrun]⟩
      · rintro ⟨k, c', s', hc', hcomes, hfails⟩
        cases k with
        | zero =>
          cases hc'
          rw [comesTo_zero.1 hcomes, hrun] at hfails
          exact hfails
        | succ k =>
          obtain ⟨t', hyields, -⟩ := comesTo_succ.1 hcomes
          exact absurd hyields (not_yields_of_run hrun)
    · rw [run_bind_ok hrun, ih]
      constructor
      · rintro ⟨k, c', s', hc', hcomes, hfails⟩
        exact ⟨k + 1, c', s', hc', comesTo_succ.2 ⟨t, yields_of_run hrun, hcomes⟩, hfails⟩
      · rintro ⟨k, c', s', hc', hcomes, hfails⟩
        cases k with
        | zero =>
          cases hc'
          rw [comesTo_zero.1 hcomes, hrun] at hfails
          cases hfails
        | succ k =>
          obtain ⟨t', hyields, hcomes⟩ := comesTo_succ.1 hcomes
          obtain ⟨-, rfl⟩ := (yields_of_run hrun).unique hyields
          exact ⟨k, c', s', hc', hcomes, hfails⟩

/-- From where a dispatch comes to, an execution goes on with the chunks that are left. -/
theorem run_execute_of_comesTo {script : Script} (h : context.ComesTo script.chunks s k s') :
    let rest := (context.dispatch k (script.chunks.drop k) >>= fun _ => context.close).run s'
    ((context.execute script).run s).result = rest.result ∧ ((context.execute script).run s).state = rest.state := by
  obtain ⟨hk, hyields⟩ := h
  have hsplit : context.execute script = context.dispatch 0 (script.chunks.take k) >>= fun _ =>
      (context.dispatch k (script.chunks.drop k) >>= fun _ => context.close) := by
    rw [execute, ← bind_assoc, ← List.take_append_drop k script.chunks, dispatch_append]
    simp [hk]
  rw [hsplit, run_bind_ok hyields.run_eq]
  exact ⟨rfl, rfl⟩

theorem state_close (context : Context σ) (s : σ) : (context.close.run s).state = s := by
  rw [close, run_bind_silent (run_get s)]
  dsimp only
  split <;> rfl

theorem state_execute (context : Context σ) (script : Script) (s : σ) :
    ((context.execute script).run s).state = ((context.dispatch 0 script.chunks).run s).state :=
  state_bind (fun _ => context.state_close) s

end Context

/-! ## Scripts and payments -/

namespace Machine

variable {rules : Rules} {script unlocking locking : Script} {m m' unlocked : Machine}
  {checks : List SignatureCheck}

theorem run_close_nil (h : m.conditions = []) : (context rules).close.run m = ⟨.ok (), m, []⟩ := by
  rw [Context.close, run_bind_silent (run_get m)]
  simp only [context, h]
  rfl

/-- A run starts the machine afresh, walks through the operations and closes. -/
theorem run_onlyChecks_runScript (rules : Rules) (script : Script) (m : Machine) :
    (Exec.onlyChecks (runScript rules script)).run m =
      (Exec.onlyChecks ((context rules).walk (script.chunks.map Chunk.operation)) >>= fun _ =>
        Exec.onlyChecks (context rules).close).run (started script m.stack) := by
  rw [runScript, Exec.onlyChecks_bind, Context.execute, Exec.onlyChecks_bind, Context.onlyChecks_dispatch]
  rfl

theorem run_runScript_error {e : ExecError}
    (h : (Exec.onlyChecks ((context rules).walk (script.chunks.map Chunk.operation))).run
      (started script m.stack) = ⟨.error e, m', checks⟩) :
    (Exec.onlyChecks (runScript rules script)).run m = ⟨.error e, m', checks⟩ := by
  rw [run_onlyChecks_runScript, run_bind_error h]

theorem run_runScript_ok
    (h : (Exec.onlyChecks ((context rules).walk (script.chunks.map Chunk.operation))).run
      (started script m.stack) = ⟨.ok (), m', checks⟩) (hclosed : m'.conditions = []) :
    (Exec.onlyChecks (runScript rules script)).run m = ⟨.ok (), m', checks⟩ := by
  rw [run_onlyChecks_runScript, run_bind_ok h, Exec.run_onlyChecks, run_close_nil hclosed]
  simp [Event.checks]

/-- What a payment does behind its two scripts. -/
def conclude (rules : Rules) (unlocking locking : Script) (unlocked : List Bytes) : Exec Machine Unit := do
  demandSuccess
  if locking.isPayToScriptHash then
    Action.require unlocking.isDataOnly .sigPushOnly
    redeem rules unlocked

/-- A payment goes on from what its unlocking script leaves. -/
theorem run_onlyChecks_verifyPayment (hunlock : (runScript rules unlocking).Yields m () unlocked) :
    let rest := (Exec.onlyChecks
      (runScript rules locking >>= fun _ => conclude rules unlocking locking unlocked.stack)).run unlocked
    (Exec.onlyChecks (verifyPayment rules unlocking locking)).run m =
      ⟨rest.result, rest.state, Event.checks ((runScript rules unlocking).run m).reports ++ rest.reports⟩ := by
  intro rest
  have hfirst := Exec.run_onlyChecks (runScript rules unlocking) m
  rw [hunlock.1, hunlock.2] at hfirst
  rw [verifyPayment, Exec.onlyChecks_bind, run_bind_ok hfirst]
  rfl

variable {reports : List Event}

/-- A payment fails where the operations of its locking script do. -/
theorem run_verifyPayment_error {e : ExecError} (hunlock : (runScript rules unlocking).Yields m () unlocked)
    (hwalk : ((context rules).walk (locking.chunks.map Chunk.operation)).run (started locking unlocked.stack) =
      ⟨.error e, m', reports⟩) :
    let outcome := (verifyPayment rules unlocking locking).run m
    outcome.result = .error e ∧ Event.checks outcome.reports =
      Event.checks ((runScript rules unlocking).run m).reports ++ Event.checks reports := by
  intro outcome
  have hlock : (Exec.onlyChecks (runScript rules locking)).run unlocked = ⟨.error e, m', Event.checks reports⟩ :=
    run_runScript_error (by rw [Exec.run_onlyChecks, hwalk])
  have hpayment : (Exec.onlyChecks (verifyPayment rules unlocking locking)).run m =
      ⟨.error e, m', Event.checks ((runScript rules unlocking).run m).reports ++ Event.checks reports⟩ := by
    rw [run_onlyChecks_verifyPayment hunlock, Exec.onlyChecks_bind, run_bind_error hlock]
  injection hpayment with hresult _ hchecks
  exact ⟨hresult, hchecks⟩

/-- Where nothing is to be redeemed, the verdict that the operations of the locking script leave decides. -/
theorem run_verifyPayment_ok {verdict : Bool} {rest : List Bytes}
    (hunlock : (runScript rules unlocking).Yields m () unlocked)
    (hplain : locking.isPayToScriptHash = false)
    (hwalk : ((context rules).walk (locking.chunks.map Chunk.operation)).run (started locking unlocked.stack) =
      ⟨.ok (), m', reports⟩) (hclosed : m'.conditions = []) (hverdict : m'.stack = Truth.encode verdict :: rest) :
    let outcome := (verifyPayment rules unlocking locking).run m
    outcome.result = (if verdict then .ok () else .error .evalFalse) ∧ Event.checks outcome.reports =
      Event.checks ((runScript rules unlocking).run m).reports ++ Event.checks reports := by
  intro outcome
  have hlock : (Exec.onlyChecks (runScript rules locking)).run unlocked = ⟨.ok (), m', Event.checks reports⟩ :=
    run_runScript_ok (by rw [Exec.run_onlyChecks, hwalk]) hclosed
  have hdemand : (demandSuccess >>= fun _ => pure ()).run m' =
      ⟨if verdict then .ok () else .error .evalFalse, m', []⟩ := by
    rw [bind_pure_unit, run_demandSuccess, succeeded_of_stack hverdict]
  have hpayment : (Exec.onlyChecks (verifyPayment rules unlocking locking)).run m =
      ⟨if verdict then .ok () else .error .evalFalse, m',
        Event.checks ((runScript rules unlocking).run m).reports ++ Event.checks reports⟩ := by
    rw [run_onlyChecks_verifyPayment hunlock, Exec.onlyChecks_bind, run_bind_ok hlock, conclude, hplain]
    simp only [Bool.false_eq_true, if_false, Exec.run_onlyChecks]
    rw [hdemand]
    simp [Event.checks]
  injection hpayment with hresult _ hchecks
  exact ⟨hresult, hchecks⟩

end Machine

end CoinScript
