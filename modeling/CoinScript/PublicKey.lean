/-
Public keys as scripts carry them: any bytes at all. Reading a key that is meant to be used checks
its shape, thirty-three bytes behind 0x02 or 0x03 or sixty-five behind 0x04; whether such bytes are a
point of the curve is left to whatever verifies signatures.
-/
import CoinScript.Text.Hex
import CoinScript.Text.Blank

namespace CoinScript

structure PublicKey where
  bytes : Bytes
  deriving DecidableEq

/-- Why bytes or a text are no key. -/
inductive KeyError where
  | invalidLength (length : Nat)
  | invalidLead (lead : UInt8)
  | invalidHex
  deriving DecidableEq

def KeyError.message : KeyError → String
  | invalidLength length => s!"invalid public key length {length}"
  | invalidLead lead => "invalid public key prefix " ++ Hex.ofByte lead
  | invalidHex => "invalid public key hex"

namespace PublicKey

def compressedSize : Nat := 33

def uncompressedSize : Nat := 65

def isCompressed (key : PublicKey) : Bool := key.bytes.length == compressedSize

/-- The lead bytes that a key of the length may start with; `none` if no key is so long. -/
def leadsOfLength? (length : Nat) : Option (List UInt8) :=
  if length = compressedSize then some [0x02, 0x03]
  else if length = uncompressedSize then some [0x04]
  else none

/-- A key whose bytes have the shape of one. A wrong length is found before a wrong lead byte. -/
def ofBytes (bytes : Bytes) : Except KeyError PublicKey :=
  match bytes, leadsOfLength? bytes.length with
  | lead :: _, some leads => if lead ∈ leads then .ok ⟨bytes⟩ else .error (.invalidLead lead)
  | _, _ => .error (.invalidLength bytes.length)

/-- A key from its hexadecimal text, blanks around it ignored. -/
def ofHex (text : String) : Except KeyError PublicKey :=
  match Hex.decode? (Text.trim text) with
  | none => .error .invalidHex
  | some bytes => ofBytes bytes

def toHex (key : PublicKey) : String := Hex.encode key.bytes

/-- The text that names the type with the key. -/
def describe (key : PublicKey) : String := "PublicKey(" ++ key.toHex ++ ")"

end PublicKey

end CoinScript
