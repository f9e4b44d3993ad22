/-
What signatures commit to. Nothing but a run changes the bytes that a machine's checks are against, and a run makes them
those of its script before anything else. So whatever a machine is asked for, and however that ends, its checks are
against the script that was run last; the checks of a payment are those of its runs, each against the script of that
run. What earlier requests left behind beside the stack, conditionals that are still open and the bytes of another
script, makes no difference to a run.
-/
import CoinScript.Digest.Standard
import CoinScript.Proofs.Machine.Checks
import CoinScript.Proofs.Machine.Lifetime
import CoinScript.Proofs.Script.Operations
import Mathlib.Data.List.Induction

namespace CoinScript.Machine

open CoinScript.Action

variable {rules : Rules} {unlocking locking script : Script} {m : Machine}

/-! ## Requests -/

/-- The bytes of the script that was run last, none before any run. -/
def lastRun (requests : List Request) : Bytes :=
  ((requests.filterMap Request.script?).getLast?.map Script.data).getD []

theorem lastRun_append_singleton (requests : List Request) (request : Request) :
    lastRun (requests ++ [request]) = (request.script?.map Script.data).getD (lastRun requests) := by
  unfold lastRun
  rw [List.filterMap_append]
  cases request <;> simp [Request.script?]

/-- Every check of a request is against the bytes that it runs, or against those that it found if it runs none, and
these are what it leaves to commit to. -/
theorem commitsTo_action (rules : Rules) (request : Request) (m : Machine) :
    let code := (request.script?.map Script.data).getD m.scriptCode
    ((request.action rules).run m).state.scriptCode = code ∧
      ReportsOnly (Event.ChecksOnly code True True) (request.action rules) m := by
  cases request with
  | run script =>
    have hexecute : CommitsTo script.data True True ((context rules).execute script) :=
      invariant_commitsTo.execute fun _ _ _ => trivial
    unfold ReportsOnly Request.action
    rw [run_runScript]
    exact hexecute (started script m.stack) rfl
  | execute _ | push _ | opcode _ => exact invariant_commitsTo.action rfl m rfl

theorem scriptCode_after (rules : Rules) (requests : List Request) :
    (after rules {} requests).scriptCode = lastRun requests := by
  induction requests using List.reverseRecOn with
  | nil => rfl
  | append_singleton requests request ih =>
    have hlast : after rules {} (requests ++ [request]) =
        ((request.action rules).run (after rules {} requests)).state := List.foldl_append
    rw [hlast, (commitsTo_action rules request _).1, ih, lastRun_append_singleton]

/-! ## Payments -/

/-- The checks of a script's run on a machine. -/
def checksOf (rules : Rules) (run : Script × Machine) : List SignatureCheck :=
  Event.checks ((runScript rules run.1).run run.2).reports

/-- The runs that a payment comes to: of its unlocking script on a fresh machine; of its locking script on what that
left, if it succeeded; and of the committed script, if the payment comes to that. -/
inductive PaymentRuns (rules : Rules) (unlocking locking : Script) : List (Script × Machine) → Prop where
  | unlocking (hfails : ∀ unlocked, ¬ (runScript rules unlocking).Yields {} () unlocked) :
      PaymentRuns rules unlocking locking [(unlocking, {})]
  | locking {unlocked : Machine} (hunlock : (runScript rules unlocking).Yields {} () unlocked)
      (hends : ∀ script m, ¬ ComesToRedeem rules unlocking locking script m) :
      PaymentRuns rules unlocking locking [(unlocking, {}), (locking, unlocked)]
  | redeeming {unlocked : Machine} {script : Script} {m : Machine}
      (hunlock : (runScript rules unlocking).Yields {} () unlocked)
      (hredeem : ComesToRedeem rules unlocking locking script m) :
      PaymentRuns rules unlocking locking [(unlocking, {}), (locking, unlocked), (script, m)]

theorem scriptCode_of_mem_checksOf {run : Script × Machine} {c : SignatureCheck} (hc : c ∈ checksOf rules run) :
    c.scriptCode = run.1.data :=
  (checksOnly_runScript run.1 run.2 _ (Event.mem_checks.1 hc)).2

theorem ComesToRedeem.exists_pushed (h : ComesToRedeem rules unlocking locking script m) :
    ∃ unlocked, (runScript rules unlocking).Yields {} () unlocked ∧ unlocked.stack = script.data :: m.stack := by
  obtain ⟨hunlock, -, -, -, -, hstack, hparse⟩ := h
  refine ⟨_, hunlock, ?_⟩
  rw [hstack, Script.data_of_parse hparse]

theorem exists_paymentRuns (rules : Rules) (unlocking locking : Script) :
    ∃ runs, PaymentRuns rules unlocking locking runs ∧
      Event.checks ((verifyPayment rules unlocking locking).run {}).reports = runs.flatMap (checksOf rules) := by
  rw [verifyPayment]
  rcases hunlock : (runScript rules unlocking).run {} with ⟨e | ⟨⟩, unlocked, reports⟩
  · refine ⟨_, .unlocking fun _ => not_yields_of_run hunlock, ?_⟩
    rw [run_bind_error hunlock]
    simp [checksOf, hunlock]
  · have hunlocked := yields_of_run hunlock
    rw [run_bind_ok hunlock]
    dsimp only
    rw [run_bind_silent (run_get unlocked)]
    rcases hlock : (runScript rules locking).run unlocked with ⟨e | ⟨⟩, locked, reports'⟩
    · refine ⟨_, .locking hunlocked ?_, ?_⟩
      · rintro script m ⟨hunlock', hlock', -⟩
        obtain ⟨-, rfl⟩ := hunlocked.unique hunlock'
        exact not_yields_of_run hlock hlock'
      · rw [run_bind_error hlock]
        simp [checksOf, hunlock, hlock, Event.checks_append]
    · rw [run_bind_ok hlock]
      have hlocked := yields_of_run hlock
      change ∃ runs, _ ∧ Event.checks
        (reports ++ (reports' ++ ((conclude rules unlocking locking unlocked.stack).run locked).reports)) = _
      obtain ⟨hends, -, hchecks⟩ | ⟨script, m, hredeem, hrun⟩ := run_conclude hunlocked hlocked
      · refine ⟨_, .locking hunlocked hends, ?_⟩
        simp [checksOf, hunlock, hlock, Event.checks_append, hchecks]
      · refine ⟨_, .redeeming hunlocked hredeem, ?_⟩
        -- demanding that the committed script succeeded reports nothing
        have hreports := congrArg Outcome.reports hrun
        rw [reports_bind fun _ m' => by rw [run_demandSuccess]] at hreports
        simp [checksOf, hunlock, hlock, Event.checks_append, hreports]

/-! ## Commitment -/

/-- Whatever a fresh machine has been asked for, every check of the next request is against the script that was run
last. The checks of a payment are those of its runs, each against the script of that run, and the committed script is
in bytes what was pushed last. A run depends on the machine by its stack alone, whatever is left over beside it. -/
theorem checks_commit_to_running_script :
    (∀ (rules : Rules) (requests : List Request) (request : Request),
      ∀ c ∈ Event.checks ((request.action rules).run (after rules {} requests)).reports,
        c.scriptCode = lastRun (requests ++ [request])) ∧
    (∀ (digests : Digests) (checker : Checker) (unlocking locking : Script),
      let rules : Rules := { digests := digests, checker := checker }
      (∃ runs, PaymentRuns rules unlocking locking runs ∧
        Event.checks (verifyScript digests checker unlocking locking).reports = runs.flatMap (checksOf rules) ∧
        ∀ run ∈ runs, ∀ c ∈ checksOf rules run, c.scriptCode = run.1.data) ∧
      ∀ script m, ComesToRedeem rules unlocking locking script m →
        ∃ unlocked, (runScript rules unlocking).Yields {} () unlocked ∧ unlocked.stack = script.data :: m.stack) ∧
    ∀ (rules : Rules) (script : Script) (m m' : Machine), m.stack = m'.stack →
      (runScript rules script).run m = (runScript rules script).run m' := by
  refine ⟨fun rules requests request c hc => ?_, fun digests checker unlocking locking => ⟨?_, ?_⟩,
    fun rules script m m' h => run_runScript_congr h⟩
  · obtain ⟨-, hchecks⟩ := commitsTo_action rules request (after rules {} requests)
    rw [lastRun_append_singleton, ← scriptCode_after rules requests]
    exact (hchecks _ (Event.mem_checks.1 hc)).2
  · obtain ⟨runs, hruns, hchecks⟩ :=
      exists_paymentRuns { digests := digests, checker := checker } unlocking locking
    exact ⟨runs, hruns, hchecks, fun run _ c hc => scriptCode_of_mem_checksOf hc⟩
  · exact fun script m h => h.exists_pushed

/-- Before any run a check is against nothing. A run that gave up in a branch leaves its bytes and the branch, so that
the next check is against these bytes; a run after it is one on its stack alone. -/
theorem checks_commit_to_running_script_of_given_up_run :
    let rules : Rules := { digests := Digests.standard, checker := fun _ _ _ => true }
    let givenUp := Script.ofOperations [.opcode Op.one, .opcode Op.ifTrue, .opcode Op.ret]
    let next := Script.ofOperations [.opcode Op.checkSig]
    let pushes : List Request := [.push [1], .push [2]]
    let requests := pushes ++ [.run givenUp]
    let left : Machine := { stack := [[2], [1]], conditions := [true], scriptCode := [0x51, 0x63, 0x6a] }
    let checksIn := fun m => Event.checks (((Request.opcode Op.checkSig).action rules).run m).reports
    (after rules {} requests = left ∧ checksIn (after rules {} pushes) ≠ [] ∧ checksIn left ≠ []) ∧
      (∀ c ∈ checksIn (after rules {} pushes), c.scriptCode = []) ∧
      (∀ c ∈ checksIn left, c.scriptCode = givenUp.data) ∧
      (runScript rules next).run left = (runScript rules next).run { stack := [[2], [1]] } := by
  intro rules givenUp next pushes requests left checksIn
  obtain ⟨hrequests, -, hruns⟩ := checks_commit_to_running_script
  have hleft : after rules {} requests = left := rfl
  refine ⟨⟨hleft, by decide, by decide⟩, hrequests rules pushes (.opcode Op.checkSig), ?_, hruns rules next left _ rfl⟩
  rw [← hleft]
  exact hrequests rules requests (.opcode Op.checkSig)

end CoinScript.Machine
