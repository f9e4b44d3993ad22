/-
Decoding by offsets that are kept in words of sixty-four bits. The operation at an offset can be found
by offsets alone: where its length field starts and stops, and where its payload does. A sum of offsets
may be more than a word holds, so each sum is taken only if it fits; in a buffer of fewer than 2^63 bytes,
and memory holds no longer one, every sum does, because an operation is looked for only behind a byte of the
buffer and announces fewer than 2^32 bytes more. So decoding by offsets always has an outcome, which is that
of reading.
-/
import CoinScript.Proofs.Codec.Operation

namespace CoinScript

open Operation

/-! ## Offsets -/

/-- The sum of two offsets, if a word holds it. -/
def wordSum? (a b : Nat) : Option Nat := if a + b < 2 ^ 64 then some (a + b) else none

/-- The distance from one offset to another, if it does not lead back. -/
def distance? (start stop : Nat) : Option Nat := if start ≤ stop then some (stop - start) else none

/-- The bytes from one offset to another, if the buffer has them all. -/
def window? (buffer : Bytes) (start stop : Nat) : Option Bytes :=
  if start ≤ stop ∧ stop ≤ buffer.length then some (buffer.extract start stop) else none

/-- The push whose lead byte stands at an offset and announces so many bytes. There is no outcome if a
sum is more than a word holds; where the payload would stop is the one sum that may be. -/
def pushByOffsets? (buffer : Bytes) (offset : Nat) (lead : UInt8) (length : Nat) :
    Option (Except CodecError (Chunk × Nat)) := do
  let start ← wordSum? (← wordSum? offset 1) (fieldWidth lead)
  match (wordSum? start length).bind fun stop => (window? buffer start stop).map fun payload => (payload, stop) with
  | none => return .error (.truncated offset)
  | some (payload, stop) => return .ok (⟨.push lead payload, offset, stop⟩, ← distance? offset stop)

/-- The operation at an offset and the number of bytes it takes, found by offsets. There is no outcome
if a sum of offsets is more than a word holds. -/
def decodeByOffsets? (buffer : Bytes) (offset : Nat) : Option (Except CodecError (Chunk × Nat)) := do
  match buffer[offset]? with
  | none => return .error (.truncated offset)
  | some lead =>
    if Op.isPushDataLead lead then
      let start ← wordSum? offset 1
      let stop ← wordSum? (← wordSum? offset 1) (fieldWidth lead)
      match window? buffer start stop with
      | none => return .error (.truncated offset)
      | some field => pushByOffsets? buffer offset lead (Bytes.toNatLE field)
    else if Op.zero < lead ∧ lead ≤ Op.directMax then pushByOffsets? buffer offset lead lead.toNat
    else return .ok (⟨.opcode lead, offset, ← wordSum? offset 1⟩, 1)

variable {buffer : Bytes} {offset : Nat} {lead : UInt8}

theorem wordSum?_eq_some {a b : Nat} (h : a + b < 2 ^ 64) : wordSum? a b = some (a + b) := if_pos h

theorem distance?_eq_some {start stop : Nat} (h : start ≤ stop) : distance? start stop = some (stop - start) :=
  if_pos h

/-- A window is what is taken behind its start, if that is as long as it should be. -/
theorem window?_eq {start : Nat} (hstart : start ≤ buffer.length) (width : Nat) :
    window? buffer start (start + width) =
      if ((buffer.drop start).take width).length = width then some ((buffer.drop start).take width) else none := by
  have htaken : buffer.extract start (start + width) = (buffer.drop start).take width := by
    rw [List.extract_eq_take_drop, Nat.add_sub_cancel_left]
  have hiff : (start ≤ start + width ∧ start + width ≤ buffer.length) ↔
      ((buffer.drop start).take width).length = width := by
    rw [List.length_take, List.length_drop]
    omega
  rw [window?, htaken]
  simp only [hiff]

/-! ## Both ways of decoding -/

/-- What reading an operation at an offset comes to. -/
def found (offset : Nat) : Option (Operation × Bytes) → Except CodecError (Chunk × Nat)
  | none => .error (.truncated offset)
  | some (op, _) => .ok (⟨op, offset, offset + op.size⟩, op.size)

theorem decodeOne_eq_found (buffer : Bytes) (offset : Nat) :
    decodeOne buffer offset = found offset (read? (buffer.drop offset)) := by
  unfold decodeOne found
  cases read? (buffer.drop offset) <;> rfl

theorem fieldWidth_le (lead : UInt8) : fieldWidth lead ≤ 4 := by
  simp only [fieldWidth]
  split
  · omega
  · split
    · omega
    · split <;> omega

/-- The payload is where reading looks for it. -/
theorem pushByOffsets?_eq (hbuffer : buffer.length < 2 ^ 63) {length : Nat} (hlength : length < 2 ^ 32)
    (hstart : offset + 1 + fieldWidth lead ≤ buffer.length) :
    pushByOffsets? buffer offset lead length =
      some (found offset (readPayload? lead length (buffer.drop (offset + 1 + fieldWidth lead)))) := by
  have hlead : wordSum? offset 1 = some (offset + 1) := wordSum?_eq_some (by omega)
  have hfield : wordSum? (offset + 1) (fieldWidth lead) = some (offset + 1 + fieldWidth lead) :=
    wordSum?_eq_some (by omega)
  have hstop : wordSum? (offset + 1 + fieldWidth lead) length = some (offset + 1 + fieldWidth lead + length) :=
    wordSum?_eq_some (by omega)
  have hforward : distance? offset (offset + 1 + fieldWidth lead + length) =
      some (1 + fieldWidth lead + length) := by
    rw [distance?_eq_some (by omega)]
    congr 1
    omega
  unfold pushByOffsets? readPayload?
  simp only [hlead, hfield, hstop, Option.bind_eq_bind, Option.bind_some, window?_eq hstart]
  by_cases hall : ((buffer.drop (offset + 1 + fieldWidth lead)).take length).length = length
  · have hsize : (push lead ((buffer.drop (offset + 1 + fieldWidth lead)).take length)).size =
        1 + fieldWidth lead + length := by rw [size, hall]
    simp only [if_pos hall, Option.map_some, hforward]
    rw [found, hsize, ← Nat.add_assoc, ← Nat.add_assoc]
    rfl
  · simp only [if_neg hall, Option.map_none]
    rfl

/-- In a buffer of fewer than 2^63 bytes no sum of offsets is more than a word holds, at whatever offset an
operation is looked for, and what is found is what is read. -/
theorem decodeByOffsets?_eq (hbuffer : buffer.length < 2 ^ 63) (offset : Nat) :
    decodeByOffsets? buffer offset = some (decodeOne buffer offset) := by
  rw [decodeOne_eq_found]
  unfold decodeByOffsets?
  cases hat : buffer[offset]? with
  | none =>
    rw [List.drop_eq_nil_of_le (List.getElem?_eq_none_iff.1 hat)]
    rfl
  | some lead =>
    obtain ⟨hlt, hbyte⟩ := List.getElem?_eq_some_iff.1 hat
    have hone : wordSum? offset 1 = some (offset + 1) := wordSum?_eq_some (by omega)
    have hwidth := fieldWidth_le lead
    rw [List.drop_eq_getElem_cons hlt, hbyte]
    unfold read?
    dsimp only
    cases hlead : Op.isPushDataLead lead with
    | true =>
      have hfield : wordSum? (offset + 1) (fieldWidth lead) = some (offset + 1 + fieldWidth lead) :=
        wordSum?_eq_some (by omega)
      simp only [hone, hfield, Option.bind_eq_bind, Option.bind_some, if_true]
      rw [window?_eq (by omega)]
      by_cases hall : ((buffer.drop (offset + 1)).take (fieldWidth lead)).length = fieldWidth lead
      · -- the field tells a length that its bytes can hold
        have hlength : Bytes.toNatLE ((buffer.drop (offset + 1)).take (fieldWidth lead)) < 2 ^ 32 := by
          have hbound := Bytes.toNatLE_lt ((buffer.drop (offset + 1)).take (fieldWidth lead))
          rw [hall] at hbound
          exact Nat.lt_of_lt_of_le hbound (Nat.pow_le_pow_right (by omega) hwidth)
        have hstart : offset + 1 + fieldWidth lead ≤ buffer.length := by
          rw [List.length_take, List.length_drop] at hall
          omega
        rw [if_pos hall, if_pos hall, List.drop_drop]
        exact pushByOffsets?_eq hbuffer hlength hstart
      · rw [if_neg hall, if_neg hall]
        rfl
    | false =>
      have hnone : fieldWidth lead = 0 := fieldWidth_of_direct hlead
      simp only [Bool.false_eq_true, if_false]
      split
      · have hlength : lead.toNat < 2 ^ 32 := Nat.lt_of_lt_of_le lead.toNat_lt (by decide)
        rw [pushByOffsets?_eq hbuffer hlength (by omega), hnone, Nat.add_zero]
      · rw [hone]
        rfl

end CoinScript
