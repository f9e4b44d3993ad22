/-
Output scripts as raw bytes. The two hash templates have fixed lengths and fixed bytes around their
hash, so they are written and recognised by position, without decoding; every other question about
the bytes goes through the chunks.
-/
import CoinScript.Script.Template

namespace CoinScript.Output

/-! ## Templates by position -/

/-- The lead byte of a push of twenty bytes. -/
def hashLead : UInt8 := 0x14

/-- The script that pays to the hash of a key. -/
def p2pkh (hash : Hash160) : Bytes :=
  [Op.dup, Op.hash160, hashLead] ++ hash.bytes ++ [Op.equalVerify, Op.checkSig]

/-- The script that pays to the hash of a script. -/
def p2sh (hash : Hash160) : Bytes := [Op.hash160, hashLead] ++ hash.bytes ++ [Op.equal]

/-- The bytes pay to the hash of a key. -/
def isP2pkh (script : Bytes) : Bool :=
  script.length == 25 && script.take 3 == [Op.dup, Op.hash160, hashLead] &&
    script.drop 23 == [Op.equalVerify, Op.checkSig]

/-- The bytes pay to the hash of a script. -/
def isP2sh (script : Bytes) : Bool :=
  script.length == 23 && script.take 2 == [Op.hash160, hashLead] && script.drop 22 == [Op.equal]

/-- The hash of a key that the bytes pay to. -/
def p2pkhHash? (script : Bytes) : Option Hash160 :=
  if isP2pkh script then Digest.ofBytes? 20 ((script.drop 3).take 20) else none

/-- The hash of a script that the bytes pay to. -/
def p2shHash? (script : Bytes) : Option Hash160 :=
  if isP2sh script then Digest.ofBytes? 20 ((script.drop 2).take 20) else none

/-! ## Kinds -/

/-- The kind of an output script. Bytes that start by giving up need not decode. -/
def classify (script : Bytes) : ScriptKind :=
  if isP2pkh script then .p2pkh
  else if isP2sh script then .p2sh
  else if script.head? = some Op.ret then .nullData
  else
    match Script.parse script with
    | .ok s => s.kind
    | .error _ => .unknown

end CoinScript.Output
