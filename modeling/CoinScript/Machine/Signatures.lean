/-
Checking signatures. One signature is checked against one key and the bytes of the running script,
and every check is reported. Several signatures are matched with keys in order: each key is tried
once, with the first signature not yet matched, and matching stops as soon as fewer keys than
signatures are left.
-/
import CoinScript.Machine.State

namespace CoinScript.Machine

/-- The most keys that a multisignature check takes. -/
def maxMultisigKeys : Int := 20

/-- Checks a signature and reports the check. -/
def checkSignature (checker : Checker) (signature key : Bytes) : Exec Machine Bool := do
  let m ← Action.get
  let accepted := checker signature key m.scriptCode
  Action.report (.check ⟨signature, key, m.scriptCode, accepted⟩)
  return accepted

/-- Every signature finds a key, in order. -/
def matchSignatures (checker : Checker) : (signatures keys : List Bytes) → Exec Machine Bool
  | [], _ => return true
  | _ :: _, [] => return false
  | signature :: later, key :: keys => do
    let accepted ← checkSignature checker signature key
    let unmatched := if accepted then later else signature :: later
    if keys.length < unmatched.length then return false
    matchSignatures checker unmatched keys

/-- Takes a number of keys and the keys, a number of signatures and the signatures, and one more
element, and matches the signatures with the keys. -/
def checkMultisig (checker : Checker) : Exec Machine Bool := do
  let keyCount ← popNumber
  Action.require (0 ≤ keyCount && keyCount ≤ maxMultisigKeys) .invalidMultisigCount
  let keys ← popMany keyCount.toNat
  let signatureCount ← popNumber
  Action.require (0 ≤ signatureCount && signatureCount ≤ keyCount) .invalidMultisigCount
  let signatures ← popMany signatureCount.toNat
  let _ ← pop
  matchSignatures checker signatures keys

end CoinScript.Machine
