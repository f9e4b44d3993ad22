/-
Why a script fails when it runs, and the text of each cause.
-/
import CoinScript.Opcode

namespace CoinScript

inductive ExecError where
  | stackOverflow (limit : Nat)
  | stackUnderflow
  | elementTooLarge (size limit : Nat)
  | invalidOpcode (op : UInt8)
  /-- The opcode asked for truth and found none. -/
  | verifyFailed (op : UInt8)
  | opReturn
  | evalFalse
  | invalidNumber
  | invalidMultisigCount
  | sigPushOnly
  | invalidRedeemScript
  | unbalancedConditional
  deriving DecidableEq

namespace ExecError

def message : ExecError → String
  | stackOverflow limit => s!"stack exceeds {limit} items"
  | stackUnderflow => "script stack underflow"
  | elementTooLarge size limit => s!"stack element of {size} bytes exceeds {limit}"
  | invalidOpcode op =>
    let name := (Op.name? op).getD "OP_PUSHBYTES"
    s!"invalid opcode {name} ({Hex.ofByte op})"
  | verifyFailed op => (Op.name? op).getD "verify" ++ " failed"
  | opReturn => "OP_RETURN encountered"
  | evalFalse => "script evaluated to false"
  | invalidNumber => "invalid script number"
  | invalidMultisigCount => "invalid multisig key or signature count"
  | sigPushOnly => "unlocking script is not push-only"
  | invalidRedeemScript => "redeem script failed to decode"
  | unbalancedConditional => "unbalanced conditional"

end ExecError

end CoinScript
