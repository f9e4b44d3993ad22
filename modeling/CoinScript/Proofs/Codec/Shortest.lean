/-
How a payload is pushed, and how short. A form takes a payload exactly if it has room for the length, and
the bytes of the push read back as that payload in front of anything; an empty payload without a length
field reads back as the opcode that pushes the empty string.

No push of a payload is shorter than the minimal one. Its length field is none up to 75 bytes, and beyond
that the narrowest that holds the length, so a field of another push of the same payload is at least as
wide; and the width tells the lead byte, so a push as short as the minimal one is the same bytes.
-/
import CoinScript.Proofs.Codec.Push
import Mathlib.Tactic.SplitIfs

namespace CoinScript

open Operation

/-! ## Reading back -/

namespace PushForm

theorem lead_eq_zero_iff {form : PushForm} {payload : Bytes} (h : payload.length ≤ form.capacity) :
    form.lead payload.length = Op.zero ↔ payload = [] ∧ (form = minimal ∨ form = direct) := by
  constructor
  · intro hzero
    obtain rfl := eq_nil_of_lead_eq_zero h hzero
    refine ⟨rfl, ?_⟩
    cases form with
    | minimal => exact .inl rfl
    | direct => exact .inr rfl
    | data1 | data2 | data4 => exact absurd hzero (by decide)
  · rintro ⟨rfl, rfl | rfl⟩ <;> rfl

end PushForm

theorem encodePush_of_le {payload : Bytes} {form : PushForm} (h : payload.length ≤ form.capacity) :
    encodePush payload form = .ok (form.operation payload).bytes :=
  encodePush_eq_ok_iff.2 ⟨h, rfl⟩

theorem encodePush_of_lt {payload : Bytes} {form : PushForm} (h : form.capacity < payload.length) :
    encodePush payload form = .error (.payloadTooLarge payload.length form) :=
  if_neg (Nat.not_le.2 h)

theorem wellFormed_of_decodeOne {buffer : Bytes} {offset size : Nat} {c : Chunk}
    (h : decodeOne buffer offset = .ok (c, size)) : c.operation.WellFormed := by
  unfold decodeOne at h
  cases hread : read? (buffer.drop offset) with
  | none => rw [hread] at h; cases h
  | some found =>
    rw [hread] at h
    cases h
    exact wellFormed_of_read? hread

theorem decodeOne_encodePush {payload encoded : Bytes} {form : PushForm} (h : encodePush payload form = .ok encoded)
    (rest : Bytes) :
    decodeOne (encoded ++ rest) 0 = .ok (⟨form.operation payload, 0, encoded.length⟩, encoded.length) := by
  obtain ⟨hroom, rfl⟩ := encodePush_eq_ok_iff.1 h
  have hread := (decodeOne_bytes_iff (form.operation payload) [] rest).2 (PushForm.wellFormed_operation hroom)
  rw [length_bytes]
  simpa using hread

/-! ## The shortest push -/

namespace PushForm

/-- Up to 75 bytes the lead byte of a minimal push is the length, and beyond that it announces the
narrowest length field that holds it. -/
theorem lead_minimal (length : Nat) :
    minimal.lead length =
      if length ≤ 75 then UInt8.ofNat length
      else if length ≤ 0xff then Op.pushData1
      else if length ≤ 0xffff then Op.pushData2
      else Op.pushData4 := by
  have hresolve : minimal.resolve length =
      if length ≤ 75 then direct else if length ≤ 0xff then data1 else if length ≤ 0xffff then data2 else data4 := rfl
  rw [lead, hresolve]
  split_ifs <;> rfl

theorem fieldWidth_lead_minimal (length : Nat) :
    fieldWidth (minimal.lead length) =
      if length ≤ 75 then 0 else if length ≤ 0xff then 1 else if length ≤ 0xffff then 2 else 4 := by
  have hdirect : ∀ n ≤ 75, fieldWidth (UInt8.ofNat n) = 0 := by decide
  rw [lead_minimal]
  split_ifs with h
  · exact hdirect length h
  · rfl
  · rfl
  · rfl

theorem eq_of_fieldWidth_eq {a b : UInt8} (ha : Op.isPushDataLead a = true) (h : fieldWidth a = fieldWidth b) :
    a = b := by
  unfold fieldWidth at h
  rcases Op.isPushDataLead_iff.1 ha with rfl | rfl | rfl
  all_goals
    simp only [reduceIte] at h
    split_ifs at h <;> simp_all

/-- The length field of a minimal push is no wider than that of any other push of the payload, and as wide
only behind the same lead byte. -/
theorem fieldWidth_lead_minimal_le {lead : UInt8} {payload : Bytes} (h : (push lead payload).WellFormed) :
    fieldWidth (minimal.lead payload.length) ≤ fieldWidth lead ∧
      (fieldWidth lead = fieldWidth (minimal.lead payload.length) → lead = minimal.lead payload.length) := by
  cases hfield : Op.isPushDataLead lead with
  | true =>
    have hlen := (wellFormed_push_of_field hfield payload).1 h
    refine ⟨?_, eq_of_fieldWidth_eq hfield⟩
    rw [fieldWidth_lead_minimal]
    rcases Op.isPushDataLead_iff.1 hfield with rfl | rfl | rfl
    · have hwidth : fieldWidth Op.pushData1 = 1 := rfl
      rw [hwidth] at hlen ⊢
      split_ifs <;> omega
    · have hwidth : fieldWidth Op.pushData2 = 2 := rfl
      rw [hwidth] at hlen ⊢
      split_ifs <;> omega
    · have hwidth : fieldWidth Op.pushData4 = 4 := rfl
      rw [hwidth]
      split_ifs <;> omega
  | false =>
    -- a lead byte that is the length is that of the minimal push
    obtain ⟨⟨-, hmax⟩, hlen⟩ := (wellFormed_push_of_direct hfield payload).1 h
    have hle : payload.length ≤ 75 := by
      rw [← hlen]
      exact UInt8.le_iff_toNat_le.1 hmax
    have hlead : minimal.lead payload.length = lead := by
      rw [lead_minimal, if_pos hle, ← hlen, UInt8.ofNat_toNat]
    rw [hlead]
    exact ⟨Nat.le_refl _, fun _ => rfl⟩

end PushForm

/-- Whatever push of a payload is read anywhere, it is no shorter than the minimal one, and as short only if
it is the same bytes. -/
theorem length_encodePush_minimal_le {payload encoded buffer : Bytes} {offset size : Nat} {c : Chunk}
    (hne : payload ≠ []) (h : encodePush payload .minimal = .ok encoded)
    (hread : decodeOne buffer offset = .ok (c, size)) (hpayload : c.operation.payload? = some payload) :
    encoded.length ≤ c.operation.size ∧ (c.operation.size = encoded.length → c.operation.bytes = encoded) := by
  obtain ⟨hroom, rfl⟩ := encodePush_eq_ok_iff.1 h
  have hwf := wellFormed_of_decodeOne hread
  cases hop : c.operation with
  | opcode op => rw [hop] at hpayload; cases hpayload
  | push lead read =>
    rw [hop] at hpayload hwf
    cases hpayload
    obtain ⟨hle, heq⟩ := PushForm.fieldWidth_lead_minimal_le hwf
    rw [length_bytes, PushForm.operation_of_ne_nil hroom hne, Operation.size, Operation.size]
    refine ⟨by omega, fun hsize => ?_⟩
    rw [heq (by omega)]

/-- A payload is pushed exactly if the form has room for it; then the bytes are taken whole in front of
anything and read back as a push of it, or as the opcode that pushes the empty string where an empty payload
has no length field; and no push of a payload that is not empty is shorter than the minimal one, nor as short
without being the same bytes. -/
theorem encodePush_exact_and_minimal :
    (PushForm.direct.capacity = 75 ∧ PushForm.data1.capacity = 255 ∧ PushForm.data2.capacity = 65535 ∧
        PushForm.data4.capacity = 2 ^ 32 - 1 ∧ PushForm.minimal.capacity = 2 ^ 32 - 1) ∧
      (∀ (payload : Bytes) (form : PushForm),
        ((∃ encoded, encodePush payload form = .ok encoded) ↔ payload.length ≤ form.capacity) ∧
          (form.capacity < payload.length →
            encodePush payload form = .error (.payloadTooLarge payload.length form))) ∧
      (∀ (payload encoded rest : Bytes) (form : PushForm), encodePush payload form = .ok encoded →
        ∃ op, decodeOne (encoded ++ rest) 0 = .ok (⟨op, 0, encoded.length⟩, encoded.length) ∧
          if payload = [] ∧ (form = .minimal ∨ form = .direct) then op = .opcode Op.zero ∧ encoded = [Op.zero]
          else ∃ lead, op = .push lead payload) ∧
      ∀ payload : Bytes, payload ≠ [] → payload.length ≤ 2 ^ 32 - 1 →
        ∃ encoded, encodePush payload .minimal = .ok encoded ∧
          ∀ (buffer : Bytes) (offset size : Nat) (c : Chunk), decodeOne buffer offset = .ok (c, size) →
            c.operation.payload? = some payload →
              encoded.length ≤ c.operation.size ∧
                (c.operation.size = encoded.length → c.operation.bytes = encoded) := by
  refine ⟨⟨rfl, rfl, rfl, rfl, rfl⟩, fun payload form => ⟨⟨?_, fun hroom => ?_⟩, encodePush_of_lt⟩,
    fun payload encoded rest form h => ?_, fun payload hne hroom => ?_⟩
  · rintro ⟨encoded, h⟩
    exact (encodePush_eq_ok_iff.1 h).1
  · exact ⟨_, encodePush_of_le hroom⟩
  · refine ⟨_, decodeOne_encodePush h rest, ?_⟩
    obtain ⟨hroom, rfl⟩ := encodePush_eq_ok_iff.1 h
    rw [PushForm.operation]
    simp only [PushForm.lead_eq_zero_iff hroom]
    split
    · exact ⟨rfl, rfl⟩
    · exact ⟨_, rfl⟩
  · have h : encodePush payload .minimal = .ok _ := encodePush_of_le hroom
    exact ⟨_, h, fun buffer offset size c hread hpayload => length_encodePush_minimal_le hne h hread hpayload⟩

/-- A byte behind a length field of two bytes takes two more than behind itself as the length. -/
theorem encodePush_exact_and_minimal_of_wide_field :
    encodePush [0xaa] .minimal = .ok [0x01, 0xaa] ∧
      decodeOne [0x4d, 0x01, 0x00, 0xaa, 0xff] 0 = .ok (⟨.push 0x4d [0xaa], 0, 4⟩, 4) ∧
      ([0x01, 0xaa] : Bytes).length ≤ (push 0x4d [0xaa]).size := by
  obtain ⟨-, -, -, hminimal⟩ := encodePush_exact_and_minimal
  obtain ⟨encoded, hencoded, hshortest⟩ := hminimal [0xaa] (by decide) (by decide)
  have hread : decodeOne [0x4d, 0x01, 0x00, 0xaa, 0xff] 0 = .ok (⟨.push 0x4d [0xaa], 0, 4⟩, 4) := by rfl
  have hbytes : encodePush [0xaa] .minimal = .ok [0x01, 0xaa] := by rfl
  obtain ⟨hle, -⟩ := hshortest _ _ _ _ hread rfl
  rw [hbytes] at hencoded
  cases hencoded
  exact ⟨hbytes, hread, hle⟩

end CoinScript
