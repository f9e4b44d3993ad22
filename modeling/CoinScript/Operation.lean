/-
One operation of a script and its bytes. A lead byte from 1 to 75 announces that many payload bytes;
three lead bytes announce a little-endian length field of one, two or four bytes and then the
payload; every other byte is an opcode by itself. The bytes of an operation keep the lead byte it
was read with, so a push that takes a longer form than it needs is written back as it was.
-/
import CoinScript.Opcode

namespace CoinScript

/-- An opcode, or a push with the lead byte that announced its payload. -/
inductive Operation where
  | opcode (op : UInt8)
  | push (lead : UInt8) (payload : Bytes)
  deriving DecidableEq

namespace Operation

/-! ## Parts -/

/-- The first byte. -/
def lead : Operation → UInt8
  | opcode op => op
  | push lead _ => lead

/-- What a push puts on the stack. -/
def payload? : Operation → Option Bytes
  | opcode _ => none
  | push _ payload => some payload

/-- The opcode, or the invalid one for a push. -/
def asOpcode : Operation → UInt8
  | opcode op => op
  | push _ _ => Op.invalid

def isPush : Operation → Bool
  | opcode _ => false
  | push _ _ => true

/-- The token of an operation in a script's text: a name, or the payload in hexadecimal. -/
def text : Operation → String
  | opcode op => Op.token op
  | push _ payload => Hex.encode payload

/-! ## Writing -/

/-- The width of the length field that follows a lead byte. -/
def fieldWidth (lead : UInt8) : Nat :=
  if lead = Op.pushData1 then 1
  else if lead = Op.pushData2 then 2
  else if lead = Op.pushData4 then 4
  else 0

/-- The number of bytes of an operation. -/
def size : Operation → Nat
  | opcode _ => 1
  | push lead payload => 1 + fieldWidth lead + payload.length

/-- The bytes of an operation. A payload too long for its length field has the low bytes of its
length there. -/
def bytes : Operation → Bytes
  | opcode op => [op]
  | push lead payload => lead :: Bytes.ofNatLE (fieldWidth lead) payload.length ++ payload

@[simp] theorem length_bytes (op : Operation) : op.bytes.length = op.size := by
  cases op with
  | opcode op => rfl
  | push lead payload =>
    simp only [bytes, size, List.length_append, List.length_cons, Bytes.length_ofNatLE]
    omega

theorem size_pos (op : Operation) : 0 < op.size := by
  cases op with
  | opcode op => exact Nat.one_pos
  | push lead payload =>
    simp only [size]
    omega

/-! ## Reading -/

/-- The push of the next `length` bytes, and what follows them. -/
def readPayload? (lead : UInt8) (length : Nat) (input : Bytes) : Option (Operation × Bytes) :=
  let payload := input.take length
  if payload.length = length then some (push lead payload, input.drop length) else none

/-- The first operation of the input, and what follows it. There is none in the empty input, nor
where a length field or a payload is cut short. -/
def read? : Bytes → Option (Operation × Bytes)
  | [] => none
  | lead :: rest =>
    if Op.isPushDataLead lead then
      let field := rest.take (fieldWidth lead)
      if field.length = fieldWidth lead then
        readPayload? lead (Bytes.toNatLE field) (rest.drop (fieldWidth lead))
      else none
    else if Op.zero < lead ∧ lead ≤ Op.directMax then readPayload? lead lead.toNat rest
    else some (opcode lead, rest)

/-- Reading takes the first `length` bytes as payload and leaves the rest. -/
theorem readPayload?_eq_some {lead : UInt8} {length : Nat} {input rest : Bytes} {op : Operation}
    (h : readPayload? lead length input = some (op, rest)) :
    ∃ payload, op = push lead payload ∧ payload.length = length ∧ input = payload ++ rest := by
  simp only [readPayload?] at h
  split at h
  · next hlen =>
    cases h
    exact ⟨_, rfl, hlen, (List.take_append_drop length input).symm⟩
  · cases h

/-- What is read is a prefix of the input, byte for byte. -/
theorem bytes_append_of_read? {input rest : Bytes} {op : Operation}
    (h : read? input = some (op, rest)) : input = op.bytes ++ rest := by
  cases input with
  | nil => cases h
  | cons lead tail =>
    simp only [read?] at h
    split at h
    · split at h
      · next hfield =>
        obtain ⟨payload, rfl, hlen, hdrop⟩ := readPayload?_eq_some h
        have hle := Bytes.ofNatLE_toNatLE (tail.take (fieldWidth lead))
        rw [hfield] at hle
        rw [bytes, hlen, hle, List.cons_append, List.cons_append, List.append_assoc, ← hdrop,
          List.take_append_drop]
      · cases h
    · split at h
      · next hlead hdirect =>
        obtain ⟨payload, rfl, -, rfl⟩ := readPayload?_eq_some h
        have hwidth : fieldWidth lead = 0 := by
          simp only [Op.isPushDataLead, Bool.or_eq_true, beq_iff_eq, not_or] at hlead
          simp [fieldWidth, hlead.1.1, hlead.1.2, hlead.2]
        simp [bytes, hwidth, Bytes.ofNatLE]
      · cases h; rfl

theorem length_rest_of_read? {input rest : Bytes} {op : Operation}
    (h : read? input = some (op, rest)) : rest.length < input.length := by
  have hpos := op.size_pos
  rw [bytes_append_of_read? h, List.length_append, length_bytes]
  omega

end Operation

end CoinScript
