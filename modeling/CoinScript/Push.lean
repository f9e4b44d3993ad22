/-
Pushes by form. A payload can be pushed behind a lead byte that is its length, or behind one of three
lead bytes with a length field; the shortest form that holds the length is the minimal one. A form
that has no room for the length refuses the payload.
-/
import CoinScript.Operation

namespace CoinScript

/-- The forms a push can take. -/
inductive PushForm where
  /-- The shortest form that holds the length. -/
  | minimal
  /-- The lead byte is the length. -/
  | direct
  /-- A length field of one byte. -/
  | data1
  /-- A length field of two bytes. -/
  | data2
  /-- A length field of four bytes. -/
  | data4
  deriving DecidableEq

/-- What can go wrong between operations and bytes. -/
inductive CodecError where
  /-- The operation at the offset runs past the end of the buffer. -/
  | truncated (offset : Nat)
  /-- The form has no room for so long a payload. -/
  | payloadTooLarge (length : Nat) (form : PushForm)
  deriving DecidableEq

namespace PushForm

def name : PushForm → String
  | minimal => "Minimal"
  | direct => "Direct"
  | data1 => "PushData1"
  | data2 => "PushData2"
  | data4 => "PushData4"

/-- The longest payload that the form can hold. -/
def capacity : PushForm → Nat
  | direct => Op.directMax.toNat
  | data1 => 0xff
  | data2 => 0xffff
  | data4 | minimal => 0xffffffff

/-- The form that a push of the length takes: the minimal one is the first that holds it. -/
def resolve : PushForm → (length : Nat) → PushForm
  | minimal, length =>
    if length ≤ direct.capacity then direct
    else if length ≤ data1.capacity then data1
    else if length ≤ data2.capacity then data2
    else data4
  | form, _ => form

/-- The lead byte of a push of the length. -/
def lead (form : PushForm) (length : Nat) : UInt8 :=
  match form.resolve length with
  | data1 => Op.pushData1
  | data2 => Op.pushData2
  | data4 => Op.pushData4
  | direct | minimal => UInt8.ofNat length

end PushForm

namespace CodecError

def message : CodecError → String
  | truncated offset => s!"truncated script operation at offset {offset}"
  | payloadTooLarge length form => s!"payload of {length} bytes does not fit {form.name} push"

end CodecError

/-- The push of a payload in the given form. An empty payload pushed directly is the opcode that
pushes the empty string. -/
def encodePush (payload : Bytes) (form : PushForm) : Except CodecError Bytes :=
  if payload.length ≤ form.capacity then
    .ok (Operation.push (form.lead payload.length) payload).bytes
  else .error (.payloadTooLarge payload.length form)

end CoinScript
