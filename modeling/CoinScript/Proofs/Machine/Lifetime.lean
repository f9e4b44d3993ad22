/-
The life of a machine. A fresh machine is asked for one thing after the other, to run or execute a script or
to take a single payload or opcode, and goes on from where the last request left it, whether that succeeded or
failed. A payment is three runs at most, with the stack replaced before the third. At every moment of either,
in the middle of an opcode as well, the stack is within the limits.

Moments are followed as scripts are walked through: a script has those of its first chunk and, where that
succeeds, those of the chunks behind. In the middle of a step some of its actions on the stack are done, and
whatever those leave keeps the limits as the whole step does.
-/
import CoinScript.Digest.Standard
import CoinScript.Proofs.Machine.Limits
import CoinScript.Proofs.Machine.Walk

namespace CoinScript.Machine

open CoinScript.Action

/-! ## Requests -/

/-- What a machine can be asked for. -/
inductive Request where
  /-- To run a script afresh. -/
  | run (script : Script)
  /-- To execute a script in the branches that are open. -/
  | execute (script : Script)
  | push (payload : Bytes)
  | opcode (op : UInt8)

/-- What is done for a request. -/
def Request.action (rules : Rules) : Request → Exec Machine Unit
  | run script => runScript rules script
  | execute script => (context rules).execute script
  | push payload => (context rules).push payload
  | opcode op => (context rules).exec op

/-- The script that a request runs afresh. -/
def Request.script? : Request → Option Script
  | run script => some script
  | execute _ | push _ | opcode _ => none

/-- The machine that requests leave, each of which starts from where the one before ended, however that was. -/
def after (rules : Rules) (m : Machine) (requests : List Request) : Machine :=
  requests.foldl (fun m request => ((request.action rules).run m).state) m

/-! ## Moments -/

/-- A moment of a step: the step is done, or some of its actions on the stack are. -/
def InStep (rules : Rules) (step : Exec Machine Unit) (m m' : Machine) : Prop :=
  m' = (step.run m).state ∨
    ∃ (α : Type) (begun : Exec Machine α) (left : α → Exec Machine Unit), Stackwise rules True True begun ∧
      step.run m = (begun >>= left).run m ∧ m' = (begun.run m).state

/-- A moment of the dispatch of chunks. -/
inductive InDispatch (rules : Rules) : List Chunk → Machine → Machine → Prop where
  | start (chunks : List Chunk) (m : Machine) : InDispatch rules chunks m m
  | first {c : Chunk} {chunks : List Chunk} {m m' : Machine}
      (hin : InStep rules ((context rules).handle c.operation) m m') : InDispatch rules (c :: chunks) m m'
  | behind {c : Chunk} {chunks : List Chunk} {m between m' : Machine}
      (hfirst : ((context rules).handle c.operation).Yields m () between)
      (hin : InDispatch rules chunks between m') : InDispatch rules (c :: chunks) m m'

/-- A moment of a request. -/
def Request.Moment (rules : Rules) : Request → Machine → Machine → Prop
  | run script, m, m' => InDispatch rules script.chunks (started script m.stack) m'
  | execute script, m, m' => InDispatch rules script.chunks m m'
  | push payload, m, m' => InStep rules ((context rules).push payload) m m'
  | opcode op, m, m' => InStep rules ((context rules).exec op) m m'

/-- A payment comes to run a committed script: its locking script commits to one and succeeds, its unlocking
script only pushes, and the last push decodes to it. The elements below that push are the stack by then. -/
inductive ComesToRedeem (rules : Rules) (unlocking locking : Script) : Script → Machine → Prop where
  | intro {unlocked locked : Machine} {bytes : Bytes} {rest : List Bytes} {script : Script}
      (hunlock : (runScript rules unlocking).Yields {} () unlocked)
      (hlock : (runScript rules locking).Yields unlocked () locked) (hsuccess : locked.succeeded = true)
      (hcommits : locking.isPayToScriptHash = true) (hdata : unlocking.isDataOnly = true)
      (hstack : unlocked.stack = bytes :: rest) (hparse : Script.parse bytes = .ok script) :
      ComesToRedeem rules unlocking locking script { locked with stack := rest }

/-- A moment of a payment: one of the runs of its scripts, or the replacement of the stack between them. -/
inductive PaymentMoment (rules : Rules) (unlocking locking : Script) : Machine → Prop where
  | unlocking {m' : Machine} : (Request.run unlocking).Moment rules {} m' →
      PaymentMoment rules unlocking locking m'
  | locking {unlocked m' : Machine} : (runScript rules unlocking).Yields {} () unlocked →
      (Request.run locking).Moment rules unlocked m' → PaymentMoment rules unlocking locking m'
  | replaced {script : Script} {m : Machine} : ComesToRedeem rules unlocking locking script m →
      PaymentMoment rules unlocking locking m
  | redeeming {script : Script} {m m' : Machine} : ComesToRedeem rules unlocking locking script m →
      (Request.run script).Moment rules m m' → PaymentMoment rules unlocking locking m'

variable {rules : Rules} {unlocking locking : Script} {chunks : List Chunk} {m m' : Machine}
  {P : Machine → Prop} {allowed : Event → Prop}

/-! ## Ends are moments -/

theorem inDispatch_state (i : Nat) (chunks : List Chunk) (m : Machine) :
    InDispatch rules chunks m (((context rules).dispatch i chunks).run m).state := by
  rw [((context rules).dispatch_eq_walk i chunks m).2]
  induction chunks generalizing m with
  | nil => exact .start [] m
  | cons c chunks ih =>
    rw [List.map_cons, Context.walk_cons]
    rcases hrun : ((context rules).handle c.operation).run m with ⟨e | ⟨⟩, between, reports⟩
    · rw [run_bind_error hrun]
      exact .first (.inl (by rw [hrun]))
    · rw [run_bind_ok hrun]
      exact .behind (yields_of_run hrun) (ih between)

theorem Request.moment_state (rules : Rules) (request : Request) (m : Machine) :
    request.Moment rules m ((request.action rules).run m).state := by
  cases request with
  | run script =>
    rw [action, run_runScript, Context.state_execute]
    exact inDispatch_state 0 script.chunks _
  | execute script =>
    rw [action, Context.state_execute]
    exact inDispatch_state 0 script.chunks m
  | push payload | opcode op => exact .inl rfl

section Concluding

variable {unlocked locked : Machine}

/-- Whether a payment comes to run a committed script shows in what its two scripts left. -/
theorem comesToRedeem_iff {script : Script} (hunlock : (runScript rules unlocking).Yields {} () unlocked)
    (hlock : (runScript rules locking).Yields unlocked () locked) :
    ComesToRedeem rules unlocking locking script m ↔
      locked.succeeded = true ∧ locking.isPayToScriptHash = true ∧ unlocking.isDataOnly = true ∧
        ∃ bytes rest, unlocked.stack = bytes :: rest ∧ Script.parse bytes = .ok script ∧
          m = { locked with stack := rest } := by
  constructor
  · rintro ⟨hunlock', hlock', hsuccess, hcommits, hdata, hstack, hparse⟩
    obtain ⟨-, rfl⟩ := hunlock.unique hunlock'
    obtain ⟨-, rfl⟩ := hlock.unique hlock'
    exact ⟨hsuccess, hcommits, hdata, _, _, hstack, hparse, rfl⟩
  · rintro ⟨hsuccess, hcommits, hdata, bytes, rest, hstack, hparse, rfl⟩
    exact .intro hunlock hlock hsuccess hcommits hdata hstack hparse

/-- Behind its two scripts a payment runs the committed script and demands that it succeeds, or it does nothing but
decide. -/
theorem run_conclude (hunlock : (runScript rules unlocking).Yields {} () unlocked)
    (hlock : (runScript rules locking).Yields unlocked () locked) :
    let concluded := (conclude rules unlocking locking unlocked.stack).run locked
    ((∀ script m, ¬ ComesToRedeem rules unlocking locking script m) ∧ concluded.state = locked ∧
        Event.checks concluded.reports = []) ∨
      ∃ script m, ComesToRedeem rules unlocking locking script m ∧
        concluded = (runScript rules script >>= fun _ => demandSuccess).run m := by
  simp only [comesToRedeem_iff hunlock hlock]
  cases hsuccess : locked.succeeded with
  | false =>
    have hdemand : demandSuccess.run locked = ⟨.error .evalFalse, locked, []⟩ := by
      rw [run_demandSuccess, hsuccess, if_neg Bool.false_ne_true]
    rw [conclude, run_bind_error hdemand]
    exact .inl ⟨by simp, rfl, rfl⟩
  | true =>
    have hdemand : demandSuccess.run locked = ⟨.ok (), locked, []⟩ := by
      rw [run_demandSuccess, hsuccess, if_pos rfl]
    rw [conclude, run_bind_silent hdemand]
    cases hcommits : locking.isPayToScriptHash with
    | false => exact .inl ⟨by simp, rfl, rfl⟩
    | true =>
      cases hdata : unlocking.isDataOnly with
      | false => exact .inl ⟨by simp, rfl, rfl⟩
      | true =>
        rw [if_pos rfl, run_bind_silent (run_require_true _ locked)]
        cases hstack : unlocked.stack with
        | nil => exact .inl ⟨by simp, rfl, rfl⟩
        | cons bytes rest =>
          rw [redeem]
          cases hparse : Script.parse bytes with
          | error cause => exact .inl ⟨by simp [hparse], rfl, rfl⟩
          | ok script =>
            refine .inr ⟨script, { locked with stack := rest }, ?_, ?_⟩
            · exact ⟨rfl, rfl, rfl, bytes, rest, rfl, hparse, rfl⟩
            · exact run_bind_silent (run_modify _ locked)

end Concluding

theorem paymentMoment_state (rules : Rules) (unlocking locking : Script) :
    PaymentMoment rules unlocking locking ((verifyPayment rules unlocking locking).run {}).state := by
  rw [verifyPayment]
  rcases hunlock : (runScript rules unlocking).run {} with ⟨e | ⟨⟩, unlocked, reports⟩
  · rw [run_bind_error hunlock]
    have hend := (Request.run unlocking).moment_state rules {}
    rw [Request.action, hunlock] at hend
    exact .unlocking hend
  · rw [run_bind_ok hunlock]
    dsimp only
    rw [run_bind_silent (run_get unlocked)]
    rcases hlock : (runScript rules locking).run unlocked with ⟨e | ⟨⟩, locked, reports'⟩
    · rw [run_bind_error hlock]
      have hend := (Request.run locking).moment_state rules unlocked
      rw [Request.action, hlock] at hend
      exact .locking (yields_of_run hunlock) hend
    · rw [run_bind_ok hlock]
      show PaymentMoment rules unlocking locking
        ((conclude rules unlocking locking unlocked.stack).run locked).state
      have hlocked := yields_of_run hlock
      obtain ⟨-, hstate, -⟩ | ⟨script, m, hredeem, hrun⟩ := run_conclude (yields_of_run hunlock) hlocked
      · rw [hstate]
        exact .locking (yields_of_run hunlock) (hlocked.2 ▸ (Request.run locking).moment_state rules unlocked)
      · rw [hrun, state_bind fun _ m' => by rw [run_demandSuccess]]
        exact .redeeming hredeem ((Request.run script).moment_state rules m)

/-! ## Limits -/

/-- What actions on the stack and a whole step keep holds at every moment of the step. -/
theorem Invariant.inStep {step : Exec Machine Unit} (h : Invariant rules True True P allowed)
    (hstep : Keeps P allowed step) (hm : P m) (hin : InStep rules step m m') : P m' := by
  rcases hin with rfl | ⟨α, begun, left, hbegun, -, rfl⟩
  · exact (hstep m hm).1
  · exact (h.stackwise hbegun m hm).1

theorem Invariant.inDispatch (h : Invariant rules True True P allowed) (hm : P m)
    (hin : InDispatch rules chunks m m') : P m' := by
  induction hin with
  | start chunks m => exact hm
  | first hin => exact h.inStep (h.handle (fun _ => trivial) fun _ => trivial) hm hin
  | behind hfirst _ ih => exact ih (hfirst.2 ▸ (h.handle (fun _ => trivial) (fun _ => trivial) _ hm).1)

theorem Invariant.action (h : Invariant rules True True P allowed) {request : Request}
    (hrun : request.script? = none) : Keeps P allowed (request.action rules) := by
  cases request with
  | run script => cases hrun
  | execute script => exact h.execute fun _ _ _ => trivial
  | push payload => exact h.whenExecuting (.push payload)
  | opcode op =>
    show Keeps _ _ ((context rules).handle (.opcode op))
    exact h.handle (fun _ => trivial) fun _ => trivial

theorem keepsLimits_action (request : Request) :
    Keeps (WithinLimits rules.limits) (fun _ => True) (request.action rules) := by
  cases request with
  | run script => exact keepsLimits_runScript script
  | execute _ | push _ | opcode _ => exact invariant_withinLimits.action rfl

theorem withinLimits_after (hm : WithinLimits rules.limits m) (requests : List Request) :
    WithinLimits rules.limits (after rules m requests) := by
  induction requests generalizing m with
  | nil => exact hm
  | cons request requests ih => exact ih (keepsLimits_action request m hm).1

theorem WithinLimits.moment {request : Request} (hm : WithinLimits rules.limits m)
    (h : request.Moment rules m m') : WithinLimits rules.limits m' := by
  cases request with
  | run script =>
    have hstarted : WithinLimits rules.limits (started script m.stack) := ⟨hm.items, hm.elements⟩
    exact invariant_withinLimits.inDispatch hstarted h
  | execute script => exact invariant_withinLimits.inDispatch hm h
  | push payload => exact invariant_withinLimits.inStep (keepsLimits_action (.push payload)) hm h
  | opcode op => exact invariant_withinLimits.inStep (keepsLimits_action (.opcode op)) hm h

/-- The stack that is kept for the committed script was within the limits when it was left. -/
theorem ComesToRedeem.withinLimits {script : Script} (h : ComesToRedeem rules unlocking locking script m) :
    WithinLimits rules.limits m := by
  obtain ⟨hunlock, -, -, -, -, hstack, -⟩ := h
  exact (withinLimits_of_yields rfl hunlock).below hstack

theorem PaymentMoment.withinLimits (h : PaymentMoment rules unlocking locking m) :
    WithinLimits rules.limits m := by
  cases h with
  | unlocking h => exact (withinLimits_empty rfl : WithinLimits rules.limits {}).moment h
  | locking hunlock h => exact (withinLimits_of_yields rfl hunlock).moment h
  | replaced hredeem => exact hredeem.withinLimits
  | redeeming hredeem h => exact hredeem.withinLimits.moment h

/-- Whatever a fresh machine has been asked for, and at every moment of whatever it is asked for next, its
stack is within its limits. At every moment of a payment the stack is within the default limits. -/
theorem withinLimits_at_every_moment :
    (∀ (rules : Rules) (requests : List Request), WithinLimits rules.limits (after rules {} requests) ∧
      ∀ (request : Request) (m : Machine), request.Moment rules (after rules {} requests) m →
        WithinLimits rules.limits m) ∧
    ∀ (digests : Digests) (checker : Checker) (unlocking locking : Script),
      WithinLimits {} (verifyScript digests checker unlocking locking).state ∧
      ∀ m : Machine, PaymentMoment { digests := digests, checker := checker } unlocking locking m →
        WithinLimits {} m := by
  refine ⟨fun rules requests => ?_, fun digests checker unlocking locking => ⟨?_, fun m h => h.withinLimits⟩⟩
  · have hafter : WithinLimits rules.limits (after rules {} requests) :=
      withinLimits_after (withinLimits_empty rfl) requests
    exact ⟨hafter, fun request m h => hafter.moment h⟩
  · exact (paymentMoment_state { digests := digests, checker := checker } unlocking locking).withinLimits

/-- A machine with room for two elements that was asked for a third, amid a command that has taken both; a
machine with room for none; and a payment whose stack is replaced for a script of no chunk. -/
theorem withinLimits_at_every_moment_of_full_stack :
    let rules : Rules :=
      { limits := { items := 2, element := 1 }, digests := Digests.standard, checker := fun _ _ _ => false }
    let closed : Rules := { rules with limits := { items := 0, element := 0 } }
    let digests : Digests := { Digests.standard with hash160 := fun _ => ⟨List.replicate 20 0, rfl⟩ }
    let requests : List Request :=
      [.push [7], .opcode Op.one, .push [8], .run { chunks := [⟨.opcode Op.dup, 0, 1⟩] }]
    let emptied : Machine := { scriptCode := [Op.dup] }
    let unlocking : Script := { chunks := [⟨.opcode Op.one, 0, 1⟩, ⟨.opcode Op.zero, 1, 2⟩] }
    let locking : Script := { chunks := [⟨.opcode Op.hash160, 0, 1⟩,
      ⟨.push 0x14 (List.replicate 20 0), 1, 22⟩, ⟨.opcode Op.equal, 22, 23⟩] }
    let replaced : Machine := { stack := [[1]], scriptCode := locking.data }
    (after rules {} requests = { stack := [[1], [7]], scriptCode := [Op.dup] } ∧
      (Request.opcode Op.nip).Moment rules (after rules {} requests) emptied ∧
      PaymentMoment { digests := digests, checker := rules.checker } unlocking locking replaced) ∧
    WithinLimits rules.limits (after rules {} requests) ∧ WithinLimits rules.limits emptied ∧
    WithinLimits closed.limits (after closed {} requests) ∧ WithinLimits {} replaced := by
  intro rules closed digests requests emptied unlocking locking replaced
  have hfull : after rules {} requests = { stack := [[1], [7]], scriptCode := [Op.dup] } := rfl
  have hmoment : (Request.opcode Op.nip).Moment rules (after rules {} requests) emptied := by
    rw [hfull]
    let begun : Exec Machine Bytes := pop >>= fun top => pop >>= fun _ => pure top
    exact .inr ⟨Bytes, begun, push rules.limits, .bind .pop fun _ => .bind .pop fun _ => .pure _, rfl, rfl⟩
  have hpayment : PaymentMoment { digests := digests, checker := rules.checker } unlocking locking replaced := by
    let unlocked := started unlocking [[], [1]]
    let locked := started locking [[1], [1]]
    have hunlock : (runScript { digests := digests, checker := rules.checker } unlocking).Yields {} () unlocked :=
      ⟨rfl, rfl⟩
    have hlock : (runScript { digests := digests, checker := rules.checker } locking).Yields unlocked () locked :=
      ⟨rfl, rfl⟩
    have hparse : Script.parse [] = .ok (.ofDecoded [] []) := by simp [Script.parse, decodeAll, Except.map]
    exact .replaced (.intro hunlock hlock rfl (by decide) (by decide) rfl hparse)
  obtain ⟨hmachines, hpayments⟩ := withinLimits_at_every_moment
  obtain ⟨hafter, hmoments⟩ := hmachines rules requests
  obtain ⟨hclosed, -⟩ := hmachines closed requests
  obtain ⟨-, hpayments⟩ := hpayments digests rules.checker unlocking locking
  exact ⟨⟨hfull, hmoment, hpayment⟩, hafter, hmoments _ _ hmoment, hclosed, hpayments _ hpayment⟩

end CoinScript.Machine
