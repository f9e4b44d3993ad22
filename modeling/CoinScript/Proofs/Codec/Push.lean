/-
What the push of a payload reads back as: the same payload behind the lead byte of its form, except
that an empty payload whose lead byte would be its length is the opcode that pushes the empty
string. Either is well formed whenever the form has room for the payload.
-/
import CoinScript.Proofs.Codec.Operation

namespace CoinScript

namespace PushForm

/-- The operation that the push of a payload reads back as. -/
def operation (form : PushForm) (payload : Bytes) : Operation :=
  if form.lead payload.length = Op.zero then .opcode Op.zero
  else .push (form.lead payload.length) payload

theorem le_capacity_resolve {form : PushForm} {length : Nat} (h : length ≤ form.capacity) :
    length ≤ (form.resolve length).capacity := by
  cases form with
  | minimal =>
    simp only [resolve]
    split
    · assumption
    · split
      · assumption
      · split
        · assumption
        · exact h
  | direct | data1 | data2 | data4 => exact h

theorem resolve_ne_minimal (form : PushForm) (length : Nat) : form.resolve length ≠ minimal := by
  cases form with
  | minimal =>
    simp only [resolve]
    split
    · simp
    · split
      · simp
      · split <;> simp
  | direct | data1 | data2 | data4 => simp [resolve]

/-- The lead byte of a push is its length or announces a length field that holds it. -/
theorem lead_cases {form : PushForm} {length : Nat} (h : length ≤ form.capacity) :
    (length ≤ Op.directMax.toNat ∧ (form.lead length).toNat = length) ∨
    (length < 2 ^ 8 ∧ form.lead length = Op.pushData1) ∨
    (length < 2 ^ 16 ∧ form.lead length = Op.pushData2) ∨
    (length < 2 ^ 32 ∧ form.lead length = Op.pushData4) := by
  have hroom := le_capacity_resolve h
  rw [lead]
  cases hform : form.resolve length with
  | minimal => exact absurd hform (resolve_ne_minimal form length)
  | direct =>
    rw [hform] at hroom
    exact .inl ⟨hroom, UInt8.toNat_ofNat_of_lt' (Nat.lt_of_le_of_lt hroom (by decide))⟩
  | data1 =>
    rw [hform, capacity] at hroom
    exact .inr (.inl ⟨by omega, rfl⟩)
  | data2 =>
    rw [hform, capacity] at hroom
    exact .inr (.inr (.inl ⟨by omega, rfl⟩))
  | data4 =>
    rw [hform, capacity] at hroom
    exact .inr (.inr (.inr ⟨by omega, rfl⟩))

theorem eq_nil_of_lead_eq_zero {form : PushForm} {payload : Bytes} (h : payload.length ≤ form.capacity)
    (hzero : form.lead payload.length = Op.zero) : payload = [] := by
  rcases lead_cases h with ⟨-, hlead⟩ | ⟨-, hlead⟩ | ⟨-, hlead⟩ | ⟨-, hlead⟩ <;> rw [hzero] at hlead
  · exact List.length_eq_zero_iff.1 hlead.symm
  -- no lead of a length field is zero
  · exact absurd hlead (by decide)
  · exact absurd hlead (by decide)
  · exact absurd hlead (by decide)

theorem wellFormed_operation {form : PushForm} {payload : Bytes} (h : payload.length ≤ form.capacity) :
    (form.operation payload).WellFormed := by
  rw [operation]
  split
  · decide
  · next hne =>
    rcases lead_cases h with ⟨hlen, hlead⟩ | ⟨hlen, hlead⟩ | ⟨hlen, hlead⟩ | ⟨hlen, hlead⟩
    · refine .inl ⟨?_, ?_, hlead⟩
      -- a direct lead of zero was the opcode above
      · rw [UInt8.le_iff_toNat_le]
        exact Nat.pos_of_ne_zero fun hzero => hne (UInt8.toNat_inj.1 hzero)
      · rw [UInt8.le_iff_toNat_le, hlead]
        exact hlen
    · exact .inr (.inl ⟨hlead, hlen⟩)
    · exact .inr (.inr (.inl ⟨hlead, hlen⟩))
    · exact .inr (.inr (.inr ⟨hlead, hlen⟩))

/-- The bytes of the operation are those of the push, also where it is an opcode. -/
theorem bytes_operation {form : PushForm} {payload : Bytes} (h : payload.length ≤ form.capacity) :
    (form.operation payload).bytes = (Operation.push (form.lead payload.length) payload).bytes := by
  rw [operation]
  split
  · next hzero =>
    rw [hzero, eq_nil_of_lead_eq_zero h hzero]
    rfl
  · rfl

theorem operation_of_ne_nil {form : PushForm} {payload : Bytes} (h : payload.length ≤ form.capacity)
    (hne : payload ≠ []) : form.operation payload = .push (form.lead payload.length) payload :=
  if_neg fun hzero => hne (eq_nil_of_lead_eq_zero h hzero)

theorem payload?_operation {form : PushForm} {payload : Bytes} (h : payload.length ≤ form.capacity)
    (hne : payload ≠ []) : (form.operation payload).payload? = some payload := by
  rw [operation_of_ne_nil h hne]
  rfl

theorem operation_minimal_nil : minimal.operation [] = .opcode Op.zero := rfl

end PushForm

/-- A push is encoded exactly when its form has room for the payload, and then as the operation that
it reads back as. -/
theorem encodePush_eq_ok_iff {payload encoded : Bytes} {form : PushForm} :
    encodePush payload form = .ok encoded ↔
      payload.length ≤ form.capacity ∧ encoded = (form.operation payload).bytes := by
  rw [encodePush]
  split
  · next h =>
    rw [PushForm.bytes_operation h]
    constructor
    · intro hok
      cases hok
      exact ⟨h, rfl⟩
    · rintro ⟨-, rfl⟩
      rfl
  · next h =>
    constructor
    · intro hok
      cases hok
    · rintro ⟨hroom, -⟩
      exact absurd hroom h

end CoinScript
