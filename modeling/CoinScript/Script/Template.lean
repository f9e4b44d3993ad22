/-
Templates: the shapes of script that payments use. A script has a shape when its chunks are those of
the template. A hash is taken from its shortest push alone, a key from a push in any form.
-/
import CoinScript.Script.Basic

namespace CoinScript

/-- What a locking script asks for. -/
inductive ScriptKind where
  | p2pk
  | p2pkh
  | p2sh
  | multisig
  | nullData
  | unknown
  deriving DecidableEq

/-- Payments to this kind are relayed. -/
def ScriptKind.isStandard : ScriptKind → Bool
  | p2pk | p2pkh | p2sh | multisig => true
  | nullData | unknown => false

/-- A push of twenty bytes behind a lead byte that is the length. -/
def Chunk.isHashPush (c : Chunk) : Bool :=
  (c.operation.payload?.any fun payload => payload.length == 20) && c.operation.size == 21

/-- The chunk is this opcode. -/
def Chunk.isOp (c : Chunk) (op : UInt8) : Bool := c.operation.asOpcode == op

namespace Script

/-! ## Shapes -/

/-- A push of more than one byte, then a signature check. -/
def isPayToPublicKey (s : Script) : Bool :=
  match s.chunks with
  | [⟨.push _ payload, _⟩, check] => 1 < payload.length && check.isOp Op.checkSig
  | _ => false

/-- The shape that pays to the hash of a key. -/
def isPayToPublicKeyHash (s : Script) : Bool :=
  match s.chunks with
  | [dup, hash160, hash, equalVerify, check] =>
    dup.isOp Op.dup && hash160.isOp Op.hash160 && hash.isHashPush &&
      equalVerify.isOp Op.equalVerify && check.isOp Op.checkSig
  | _ => false

/-- The last three chunks pay to the hash of a script, whatever stands before them. -/
def endsWithPayToScriptHash (s : Script) : Bool :=
  match s.chunks.drop (s.chunks.length - 3) with
  | [hash160, hash, equal] => hash160.isOp Op.hash160 && hash.isHashPush && equal.isOp Op.equal
  | _ => false

/-- The shape that pays to the hash of a script. -/
def isPayToScriptHash (s : Script) : Bool :=
  s.chunks.length == 3 && s.endsWithPayToScriptHash

def isMultisig (s : Script) : Bool := s.multisig?.isSome

def isStandardMultisig (s : Script) : Bool :=
  s.multisig?.any fun terms => terms.keys.length ≤ Multisig.maxStandardKeys

def isStandard (s : Script) : Bool :=
  s.isPayToPublicKey || s.isPayToPublicKeyHash || s.isPayToScriptHash || s.isMultisig

/-- Pushes and small-integer literals alone, nothing that acts. -/
def isDataOnly (s : Script) : Bool := s.chunks.all fun c => c.operation.lead ≤ Op.sixteen

/-- The script starts by giving up. -/
def isNullData (s : Script) : Bool := s.chunks.head?.any fun c => c.isOp Op.ret

/-- The kind of a script: the first of the shapes that it has. -/
def kind (s : Script) : ScriptKind :=
  if s.isPayToPublicKeyHash then .p2pkh
  else if s.isPayToScriptHash then .p2sh
  else if s.isPayToPublicKey then .p2pk
  else if s.isMultisig then .multisig
  else if s.isNullData then .nullData
  else .unknown

/-! ## Addresses -/

/-- The hash pushed by the chunk at a position. -/
def pushedHash? (s : Script) (position : Nat) : Option Hash160 :=
  s.chunks[position]?.bind fun c => c.operation.payload?.bind (Digest.ofBytes? 20)

/-- The address that a script pays to, if its shape has one. -/
def toAddress? (s : Script) (network : Network) : Option Address :=
  if s.isPayToPublicKeyHash then (s.pushedHash? 2).map (Address.p2pkh network)
  else if s.isPayToScriptHash then (s.pushedHash? 1).map (Address.p2sh network)
  else none

end Script

end CoinScript
