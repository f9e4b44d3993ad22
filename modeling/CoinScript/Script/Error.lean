/-
What can go wrong in building and editing scripts, and the text of each cause.
-/
import CoinScript.Address
import CoinScript.Chunk

namespace CoinScript

inductive ScriptError where
  /-- The bytes of the script do not decode, or a push does not encode. -/
  | codec (cause : CodecError)
  /-- The byte cannot stand in a script by itself. -/
  | invalidOpcode (op : UInt8)
  | emptyData
  | emptyScript
  | invalidHex
  | unsupportedAddress (kind : AddressKind)
  | invalidAddressHash (length : Nat)
  | invalidMultisig (required keys : Nat)
  deriving DecidableEq

namespace ScriptError

def message : ScriptError → String
  | codec cause => cause.message
  | invalidOpcode op =>
    let name := (Op.name? op).getD "OP_PUSHBYTES"
    s!"opcode {name} cannot be appended on its own"
  | emptyData => "cannot push empty data"
  | emptyScript => "cannot append an empty script"
  | invalidHex => "invalid script hex"
  | unsupportedAddress kind => s!"no script template for {kind.name} address"
  | invalidAddressHash length => s!"address hash must be 20 bytes, got {length}"
  | invalidMultisig required keys => s!"invalid multisig: {required} of {keys} keys"

end ScriptError

/-- An index that names no chunk of a script with so many. -/
structure IndexError where
  index : Int
  count : Nat
  deriving DecidableEq

def IndexError.message (e : IndexError) : String :=
  s!"chunk index {e.index} out of range for script of {e.count} chunks"

end CoinScript
