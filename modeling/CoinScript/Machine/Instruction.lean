/-
What each opcode tells the machine to do. Instructions are grouped by what they do with the stack:
the flow of control, literals, moves of elements, numbers, digests, and tests, which leave a truth
value or, in their fused form, demand it.
-/
import CoinScript.Opcode

namespace CoinScript

/-- The four instructions that open, turn and close conditionals. -/
inductive Flow where
  /-- Opens a branch that is taken on true. -/
  | ifTrue
  /-- Opens a branch that is taken on false. -/
  | ifFalse
  /-- Turns the innermost branch. -/
  | otherwise
  /-- Closes the innermost branch. -/
  | endIf
  deriving DecidableEq

/-- Instructions that move elements about the stack, top first. -/
inductive Move where
  | dup
  | drop
  | dropTwo
  | swap
  /-- Copies the second element to the top. -/
  | copySecond
  | nip
  /-- Pushes the number of elements. -/
  | depth
  /-- Pushes the length of the top element. -/
  | size
  deriving DecidableEq

/-- Instructions that replace one number by another. -/
inductive Unary where
  | addOne
  | subOne
  | not
  deriving DecidableEq

/-- Instructions that replace two numbers by one. -/
inductive Binary where
  | add
  | sub
  deriving DecidableEq

/-- The digests that have an instruction. -/
inductive DigestKind where
  | ripemd160
  | sha1
  | sha256
  | hash160
  | hash256
  deriving DecidableEq

/-- Instructions that decide something. -/
inductive Test where
  /-- Two elements are the same bytes. -/
  | equal
  /-- Two elements spell the same number. -/
  | numEqual
  /-- A signature is good for a key. -/
  | signature
  /-- So many signatures are good for so many keys, in order. -/
  | multisig
  deriving DecidableEq

/-- Instructions that are skipped in a branch that is not taken. -/
inductive Command where
  | literal (v : Int)
  | nop
  /-- Demands that the top element is true. -/
  | verify
  | ret
  | move (m : Move)
  | unary (u : Unary)
  | binary (b : Binary)
  | digest (d : DigestKind)
  /-- Leaves the verdict of a test, or demands it. -/
  | test (t : Test) (demanded : Bool)
  | unsupported
  deriving DecidableEq

inductive Instruction where
  | flow (f : Flow)
  | command (c : Command)
  deriving DecidableEq

/-- The flow instruction of an opcode. -/
def Flow.ofByte? : UInt8 → Option Flow
  | Op.ifTrue => some ifTrue
  | Op.ifFalse => some ifFalse
  | Op.otherwise => some otherwise
  | Op.endIf => some endIf
  | _ => none

/-- The command of an opcode that is neither a small integer nor reserved to do nothing. -/
def Command.ofNamedByte : UInt8 → Command
  | Op.zero => literal 0
  | Op.negativeOne => literal (-1)
  | Op.nop | Op.codeSeparator => nop
  | Op.verify => verify
  | Op.ret => ret
  | Op.dropTwo => move .dropTwo
  | Op.depth => move .depth
  | Op.drop => move .drop
  | Op.dup => move .dup
  | Op.nip => move .nip
  | Op.copySecond => move .copySecond
  | Op.swap => move .swap
  | Op.size => move .size
  | Op.equal => test .equal false
  | Op.equalVerify => test .equal true
  | Op.addOne => unary .addOne
  | Op.subOne => unary .subOne
  | Op.not => unary .not
  | Op.add => binary .add
  | Op.sub => binary .sub
  | Op.numEqual => test .numEqual false
  | Op.numEqualVerify => test .numEqual true
  | Op.ripemd160 => digest .ripemd160
  | Op.sha1 => digest .sha1
  | Op.sha256 => digest .sha256
  | Op.hash160 => digest .hash160
  | Op.hash256 => digest .hash256
  | Op.checkSig => test .signature false
  | Op.checkSigVerify => test .signature true
  | Op.checkMultisig => test .multisig false
  | Op.checkMultisigVerify => test .multisig true
  | _ => unsupported

/-- The command of an opcode that is no flow instruction. -/
def Command.ofByte (op : UInt8) : Command :=
  match Op.toSmallInt? op with
  | some n => literal n
  | none =>
    if Op.reservedNopMin ≤ op ∧ op ≤ Op.reservedNopMax then nop else ofNamedByte op

/-- The instruction of an opcode. -/
def Instruction.ofByte (op : UInt8) : Instruction :=
  match Flow.ofByte? op with
  | some f => flow f
  | none => command (.ofByte op)

end CoinScript
