/-
Which operations read back. An operation is well formed when its lead byte says what it is and how
long its payload is. Reading gives an operation and a rest exactly when the operation is well formed
and the input is its bytes before the rest, so the bytes of a well-formed operation read back in
front of anything, and those of an ill-formed one in front of nothing.
-/
import CoinScript.Chunk
import Mathlib.Algebra.Group.Nat.Defs

namespace CoinScript

/-! ## Numbers of so many bytes -/

namespace Bytes

theorem toNatLE_lt (bs : Bytes) : toNatLE bs < 256 ^ bs.length := by
  induction bs with
  | nil => simp [toNatLE]
  | cons b bs ih =>
    have hb := b.toNat_lt
    simp only [toNatLE, List.length_cons, Nat.pow_succ]
    omega

theorem toNatLE_ofNatLE (width n : Nat) : toNatLE (ofNatLE width n) = n % 256 ^ width := by
  induction width generalizing n with
  | zero => simp [ofNatLE, toNatLE, Nat.mod_one]
  | succ width ih =>
    have hlow : (UInt8.ofNat n).toNat = n % 256 := UInt8.toNat_ofNat'
    rw [ofNatLE, toNatLE, ih, hlow, Nat.pow_succ, Nat.mul_comm (256 ^ width) 256, Nat.mod_mul]

end Bytes

theorem Op.isPushDataLead_iff {op : UInt8} :
    isPushDataLead op = true ↔ op = pushData1 ∨ op = pushData2 ∨ op = pushData4 := by
  simp [isPushDataLead, or_assoc]

namespace Operation

/-! ## Well-formed operations -/

/-- The lead byte tells the operation: an opcode is no byte that announces a push, the lead byte of
a direct push is its length, and a length field has room for the length. -/
def WellFormed : Operation → Prop
  | opcode op => ¬ (0x01 ≤ op ∧ op ≤ 0x4e)
  | push lead payload =>
    (0x01 ≤ lead ∧ lead ≤ Op.directMax ∧ lead.toNat = payload.length) ∨
    (lead = Op.pushData1 ∧ payload.length < 2 ^ 8) ∨
    (lead = Op.pushData2 ∧ payload.length < 2 ^ 16) ∨
    (lead = Op.pushData4 ∧ payload.length < 2 ^ 32)

instance : DecidablePred WellFormed
  | opcode op => inferInstanceAs (Decidable (¬ (0x01 ≤ op ∧ op ≤ 0x4e)))
  | push lead payload => inferInstanceAs (Decidable
    ((0x01 ≤ lead ∧ lead ≤ Op.directMax ∧ lead.toNat = payload.length) ∨
      (lead = Op.pushData1 ∧ payload.length < 2 ^ 8) ∨
      (lead = Op.pushData2 ∧ payload.length < 2 ^ 16) ∨
      (lead = Op.pushData4 ∧ payload.length < 2 ^ 32)))

theorem wellFormed_push_of_field {lead : UInt8} (h : Op.isPushDataLead lead = true) (payload : Bytes) :
    (push lead payload).WellFormed ↔ payload.length < 256 ^ fieldWidth lead := by
  rcases Op.isPushDataLead_iff.1 h with rfl | rfl | rfl <;>
    simp [WellFormed, fieldWidth, Op.pushData1, Op.pushData2, Op.pushData4, Op.directMax]

theorem wellFormed_push_of_direct {lead : UInt8} (h : Op.isPushDataLead lead = false) (payload : Bytes) :
    (push lead payload).WellFormed ↔
      (Op.zero < lead ∧ lead ≤ Op.directMax) ∧ lead.toNat = payload.length := by
  simp only [Op.isPushDataLead, Bool.or_eq_false_iff, beq_eq_false_iff_ne] at h
  have hpos : 0x01 ≤ lead ↔ Op.zero < lead := by
    rw [UInt8.le_iff_toNat_le, UInt8.lt_iff_toNat_lt]; rfl
  simp only [WellFormed, h.1.1, h.1.2, h.2, false_and, or_false, hpos, and_assoc]

theorem wellFormed_opcode_iff (op : UInt8) :
    (opcode op).WellFormed ↔ Op.isPushDataLead op = false ∧ ¬ (Op.zero < op ∧ op ≤ Op.directMax) := by
  simp only [WellFormed, Op.isPushDataLead, Bool.or_eq_false_iff, beq_eq_false_iff_ne, ne_eq,
    UInt8.le_iff_toNat_le, UInt8.lt_iff_toNat_lt, ← UInt8.toNat_inj]
  -- the three field leads close the gap between the direct ones and the first opcode
  have h1 : Op.pushData1.toNat = 76 := rfl
  have h2 : Op.pushData2.toNat = 77 := rfl
  have h4 : Op.pushData4.toNat = 78 := rfl
  have hmax : Op.directMax.toNat = 75 := rfl
  have hzero : Op.zero.toNat = 0 := rfl
  have hlow : (0x01 : UInt8).toNat = 1 := rfl
  have hhigh : (0x4e : UInt8).toNat = 78 := rfl
  omega

/-! ## Reading back -/

theorem fieldWidth_of_direct {lead : UInt8} (h : Op.isPushDataLead lead = false) : fieldWidth lead = 0 := by
  simp only [Op.isPushDataLead, Bool.or_eq_false_iff, beq_eq_false_iff_ne] at h
  simp [fieldWidth, h.1.1, h.1.2, h.2]

theorem readPayload?_append (lead : UInt8) (payload rest : Bytes) :
    readPayload? lead payload.length (payload ++ rest) = some (push lead payload, rest) := by
  simp [readPayload?]

theorem wellFormed_of_read? {input rest : Bytes} {op : Operation} (h : read? input = some (op, rest)) :
    op.WellFormed := by
  cases input with
  | nil => cases h
  | cons lead tail =>
    rw [read?] at h
    cases hlead : Op.isPushDataLead lead with
    | true =>
      rw [if_pos hlead] at h
      dsimp only at h
      split at h
      · next hfield =>
        -- the length was read from the field, so it fits there
        obtain ⟨payload, rfl, hlen, -⟩ := readPayload?_eq_some h
        have hlt := Bytes.toNatLE_lt (tail.take (fieldWidth lead))
        rw [hfield, ← hlen] at hlt
        exact (wellFormed_push_of_field hlead payload).2 hlt
      · cases h
    | false =>
      rw [if_neg (by simp [hlead])] at h
      split at h
      · next hdirect =>
        obtain ⟨payload, rfl, hlen, -⟩ := readPayload?_eq_some h
        exact (wellFormed_push_of_direct hlead payload).2 ⟨hdirect, hlen.symm⟩
      · next hdirect =>
        cases h
        exact (wellFormed_opcode_iff lead).2 ⟨hlead, hdirect⟩

theorem read?_bytes_append {op : Operation} (h : op.WellFormed) (rest : Bytes) :
    read? (op.bytes ++ rest) = some (op, rest) := by
  cases op with
  | opcode op =>
    obtain ⟨hlead, hdirect⟩ := (wellFormed_opcode_iff op).1 h
    rw [bytes, List.cons_append, read?, if_neg (by simp [hlead]), if_neg hdirect]
    rfl
  | push lead payload =>
    cases hlead : Op.isPushDataLead lead with
    | true =>
      have hlt := (wellFormed_push_of_field hlead payload).1 h
      have hlen : Bytes.toNatLE (Bytes.ofNatLE (fieldWidth lead) payload.length) = payload.length := by
        rw [Bytes.toNatLE_ofNatLE, Nat.mod_eq_of_lt hlt]
      rw [bytes, List.cons_append, List.cons_append, List.append_assoc, read?, if_pos hlead]
      simp only [List.take_left', List.drop_left', Bytes.length_ofNatLE, if_true, hlen,
        readPayload?_append]
    | false =>
      obtain ⟨hdirect, hlen⟩ := (wellFormed_push_of_direct hlead payload).1 h
      rw [bytes, fieldWidth_of_direct hlead, Bytes.ofNatLE, List.cons_append, List.nil_append,
        List.cons_append, read?, if_neg (by simp [hlead]), if_pos hdirect, hlen]
      exact readPayload?_append lead payload rest

/-- Reading undoes writing on the well-formed operations and gives no others. -/
theorem read?_eq_some_iff {input rest : Bytes} {op : Operation} :
    read? input = some (op, rest) ↔ op.WellFormed ∧ input = op.bytes ++ rest := by
  constructor
  · intro h
    exact ⟨wellFormed_of_read? h, bytes_append_of_read? h⟩
  · rintro ⟨h, rfl⟩
    exact read?_bytes_append h rest

/-- What is read off the front does not depend on what stands behind. -/
theorem read?_append {input rest : Bytes} {op : Operation} (h : read? input = some (op, rest)) (after : Bytes) :
    read? (input ++ after) = some (op, rest ++ after) := by
  obtain ⟨hwf, rfl⟩ := read?_eq_some_iff.1 h
  rw [List.append_assoc]
  exact read?_bytes_append hwf _

/-- Induction along the operations that are read off the front: the input is used up, nothing can be read
off it, or an operation is and the rest is shorter. -/
@[elab_as_elim] theorem read_induction {motive : Bytes → Prop} (nil : motive [])
    (stuck : ∀ input, input ≠ [] → read? input = none → motive input)
    (step : ∀ input op rest, read? input = some (op, rest) → motive rest → motive input) :
    ∀ input, motive input := by
  intro input
  induction hlen : input.length using Nat.strongRecOn generalizing input with
  | ind n ih =>
    cases hread : read? input with
    | none =>
      by_cases hne : input = []
      · rw [hne]
        exact nil
      · exact stuck input hne hread
    | some found =>
      have hshorter := length_rest_of_read? hread
      exact step input found.1 found.2 hread (ih _ (by omega) _ rfl)

/-- The bytes of an operation stand at an offset as that operation exactly if it is well formed. -/
theorem decodeOne_bytes_iff (op : Operation) (before after : Bytes) :
    decodeOne (before ++ op.bytes ++ after) before.length =
        .ok (⟨op, before.length, before.length + op.size⟩, op.size) ↔ op.WellFormed := by
  rw [decodeOne, List.append_assoc, List.drop_left]
  constructor
  · intro h
    cases hread : read? (op.bytes ++ after) with
    | none => rw [hread] at h; cases h
    | some found =>
      obtain ⟨op', rest⟩ := found
      rw [hread] at h
      cases h
      exact wellFormed_of_read? hread
  · intro h
    rw [read?_bytes_append h]

end Operation

end CoinScript
