/-
One step of the machine. Flow instructions are followed in every branch; pushes and commands only
where every open branch is taken. A command that fails leaves the stack as far as it came.
-/
import CoinScript.Machine.Instruction
import CoinScript.Machine.Signatures

namespace CoinScript.Machine

/-! ## Flow -/

/-- Opens a branch that is taken if the condition is; in a branch that is not taken no condition is
asked for. -/
def openBranch (takenOn : Bool) : Exec Machine Unit := do
  let m ← Action.get
  let taken ←
    if m.isExecuting then do
      let element ← pop
      pure (Truth.ofBytes element == takenOn)
    else pure false
  Action.modify fun m => { m with conditions := taken :: m.conditions }

/-- Follows a flow instruction. -/
def follow : Flow → Exec Machine Unit
  | .ifTrue => openBranch true
  | .ifFalse => openBranch false
  | .otherwise => do
    match (← Action.get).conditions with
    | [] => Action.fail .unbalancedConditional
    | taken :: outer => Action.modify fun m => { m with conditions := (!taken) :: outer }
  | .endIf => do
    match (← Action.get).conditions with
    | [] => Action.fail .unbalancedConditional
    | _ :: outer => Action.modify fun m => { m with conditions := outer }

/-! ## Commands -/

/-- Moves elements. -/
def move (limits : Limits) : Move → Exec Machine Unit
  | .dup => do
    let top ← peek 0
    push limits top
  | .drop => do
    let _ ← pop
  | .dropTwo => do
    let _ ← pop
    let _ ← pop
  | .swap => do
    match (← Action.get).stack with
    | top :: second :: rest => Action.modify fun m => { m with stack := second :: top :: rest }
    | _ => Action.fail .stackUnderflow
  | .copySecond => do
    let second ← peek 1
    push limits second
  | .nip => do
    let top ← pop
    let _ ← pop
    push limits top
  | .depth => do
    let m ← Action.get
    push limits (Number.encode m.stack.length)
  | .size => do
    let top ← peek 0
    push limits (Number.encode top.length)

/-- The number that a unary instruction makes of one. -/
def applyUnary : Unary → Int → Int
  | .addOne, v => v + 1
  | .subOne, v => v - 1
  | .not, v => if v = 0 then 1 else 0

/-- The number that a binary instruction makes of two, the deeper one first. -/
def applyBinary : Binary → Int → Int → Int
  | .add, a, b => a + b
  | .sub, a, b => a - b

/-- The digest that an instruction takes. -/
def applyDigest (digests : Digests) : DigestKind → Bytes → Bytes
  | .ripemd160, bs => (digests.ripemd160 bs).bytes
  | .sha1, bs => (digests.sha1 bs).bytes
  | .sha256, bs => (digests.sha256 bs).bytes
  | .hash160, bs => (digests.hash160 bs).bytes
  | .hash256, bs => (digests.hash256 bs).bytes

/-- Takes what a test asks for and decides it. -/
def decideTest (checker : Checker) : Test → Exec Machine Bool
  | .equal => do
    let a ← pop
    let b ← pop
    return a == b
  | .numEqual => do
    let b ← popNumber
    let a ← popNumber
    return a == b
  | .signature => do
    let key ← pop
    let signature ← pop
    checkSignature checker signature key
  | .multisig => checkMultisig checker

/-- Performs a command, on behalf of an opcode that its failures name. -/
def perform (rules : Rules) (op : UInt8) : Command → Exec Machine Unit
  | .literal v => push rules.limits (Number.encode v)
  | .nop => pure ()
  | .verify => verify op
  | .ret => Action.fail .opReturn
  | .move m => move rules.limits m
  | .unary u => do
    let v ← popNumber
    push rules.limits (Number.encode (applyUnary u v))
  | .binary b => do
    let second ← popNumber
    let first ← popNumber
    push rules.limits (Number.encode (applyBinary b first second))
  | .digest d => do
    let element ← pop
    push rules.limits (applyDigest rules.digests d element)
  | .test t demanded => do
    let verdict ← decideTest rules.checker t
    push rules.limits (Truth.encode verdict)
    if demanded then verify op
  | .unsupported => do
    Action.report (.remark ⟨.unsupportedOpcode, "unsupported opcode " ++ Hex.ofByte op⟩)
    Action.fail (.invalidOpcode op)

/-! ## Steps -/

/-- Runs an action where every open branch is taken, and nothing elsewhere. -/
def whenExecuting (x : Exec Machine Unit) : Exec Machine Unit := do
  let m ← Action.get
  if m.isExecuting then x

/-- Takes the payload of a push. -/
def pushPayload (rules : Rules) (payload : Bytes) : Exec Machine Unit :=
  whenExecuting (push rules.limits payload)

/-- Executes an opcode. -/
def execOpcode (rules : Rules) (op : UInt8) : Exec Machine Unit :=
  match Instruction.ofByte op with
  | .flow f => follow f
  | .command c => whenExecuting (perform rules op c)

/-- The machine as a context for scripts. -/
def context (rules : Rules) : Context Machine where
  push := pushPayload rules
  exec := execOpcode rules
  conditions := fun m => m.conditions

/-- Runs a script on the stack as it is: no conditional is open at its start, and signatures commit to
its bytes. -/
def runScript (rules : Rules) (script : Script) : Exec Machine Unit := do
  Action.modify fun m => { m with conditions := [], scriptCode := script.data }
  (context rules).execute script

end CoinScript.Machine
