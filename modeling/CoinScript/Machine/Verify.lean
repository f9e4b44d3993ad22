/-
Verification of a payment: the unlocking script runs on an empty stack, the locking script on what it
left, and the result must be true. Where the locking script commits to the hash of a script, the
unlocking script may only push, and the script that it pushed last runs on what it left below.
-/
import CoinScript.Machine.Step
import CoinScript.Script.Template

namespace CoinScript

namespace Machine

/-- Demands that the top of the stack is true. -/
def demandSuccess : Exec Machine Unit := do
  let m ← Action.get
  Action.require m.succeeded .evalFalse

/-- Takes the script that the unlocking script pushed last out of the stack it left, and runs it on
the rest. -/
def redeem (rules : Rules) (unlocked : List Bytes) : Exec Machine Unit :=
  match unlocked with
  | [] => Action.fail .stackUnderflow
  | bytes :: rest =>
    match Script.parse bytes with
    | .error cause => do
      Action.report (.remark ⟨.undecodableRedeem, s!"redeem script rejected: {cause.message}"⟩)
      Action.fail .invalidRedeemScript
    | .ok script => do
      Action.modify fun m => { m with stack := rest }
      runScript rules script
      demandSuccess

/-- Runs both scripts of a payment, and the committed script if there is one. -/
def verifyPayment (rules : Rules) (unlocking locking : Script) : Exec Machine Unit := do
  runScript rules unlocking
  let unlocked := (← Action.get).stack
  runScript rules locking
  demandSuccess
  if locking.isPayToScriptHash then
    Action.require unlocking.isDataOnly .sigPushOnly
    redeem rules unlocked

end Machine

/-- The outcome of a payment's scripts under the default limits. -/
def verifyScript (digests : Digests) (checker : Checker) (unlocking locking : Script) :
    Outcome Event ExecError Machine Unit :=
  (Machine.verifyPayment { digests := digests, checker := checker } unlocking locking).run {}

end CoinScript
