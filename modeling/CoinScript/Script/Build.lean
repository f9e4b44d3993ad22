/-
Scripts built from what they are to say: the script that pays to an address, and the script that
asks for some of several keys. A script built from multisignature terms holds those terms as its
view until an edit drops them.
-/
import CoinScript.Output

namespace CoinScript.Script

/-- The script of an encoded push between opcodes. -/
def aroundPush (before payload after : Bytes) : Except ScriptError Script :=
  match encodePush payload .minimal with
  | .error cause => .error (.codec cause)
  | .ok push => (parse (before ++ push ++ after)).mapError .codec

/-- The script that pays to an address. A hash of a wrong length is found before a kind without a
template. -/
def ofAddress (address : Address) : Except ScriptError Script :=
  if address.hash.length ≠ 20 then .error (.invalidAddressHash address.hash.length)
  else
    match address.kind with
    | .pubKeyHash =>
      aroundPush [Op.dup, Op.hash160] address.hash [Op.equalVerify, Op.checkSig]
    | .scriptHash => aroundPush [Op.hash160] address.hash [Op.equal]
    | .other => .error (.unsupportedAddress .other)

/-- The encoded pushes of keys, in order. -/
def pushKeys (keys : List PublicKey) : Except CodecError Bytes :=
  (keys.mapM fun key => encodePush key.bytes .minimal).map List.flatten

/-- The script that asks for `required` of the keys to sign; both numbers are from 1 to 16. -/
def ofMultisig (keys : List PublicKey) (required : Nat) : Except ScriptError Script :=
  match Op.ofSmallInt? required, Op.ofSmallInt? keys.length with
  | some requiredOp, some countOp =>
    if required ≤ keys.length then
      match pushKeys keys with
      | .error cause => .error (.codec cause)
      | .ok pushes =>
        match parse (requiredOp :: pushes ++ [countOp, Op.checkMultisig]) with
        | .error cause => .error (.codec cause)
        | .ok s => .ok { s with held := { s.held with multisig := some (some ⟨required, keys⟩) } }
    else .error (.invalidMultisig required keys.length)
  | _, _ => .error (.invalidMultisig required keys.length)

/-- The script that pays to the hash of a key, chunk by chunk. -/
def p2pkh (hash : Hash160) : Script :=
  ofDecoded
    [⟨.opcode Op.dup, 0, 1⟩, ⟨.opcode Op.hash160, 1, 2⟩, ⟨.push Output.hashLead hash.bytes, 2, 23⟩,
     ⟨.opcode Op.equalVerify, 23, 24⟩, ⟨.opcode Op.checkSig, 24, 25⟩]
    (Output.p2pkh hash)

end CoinScript.Script
