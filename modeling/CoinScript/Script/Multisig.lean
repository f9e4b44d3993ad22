/-
The terms of a multisignature script: how many of which keys must sign. They are read off chunks of
the shape "required number, keys, number of keys, check", where both numbers are small-integer
opcodes and every key is a push in any form.
-/
import CoinScript.Chunk
import CoinScript.PublicKey

namespace CoinScript

/-- So many of these keys must sign. -/
structure Multisig where
  required : Nat
  keys : List PublicKey
  deriving DecidableEq

namespace Multisig

/-- The most keys that a standard multisignature script has. -/
def maxStandardKeys : Nat := 3

/-- The terms that chunks spell, if they have the shape. -/
def ofChunks? (chunks : List Chunk) : Option Multisig := do
  let first ← chunks.head?
  let last ← chunks.getLast?
  let beforeLast ← chunks[chunks.length - 2]?
  guard (4 ≤ chunks.length)
  guard (last.operation.asOpcode = Op.checkMultisig)
  let required ← Op.toSmallInt? first.operation.asOpcode
  let count ← Op.toSmallInt? beforeLast.operation.asOpcode
  guard (required ≤ count)
  guard (chunks.length = count + 3)
  let payloads ← ((chunks.drop 1).take count).mapM fun c => c.operation.payload?
  return ⟨required, payloads.map PublicKey.mk⟩

end Multisig

end CoinScript
