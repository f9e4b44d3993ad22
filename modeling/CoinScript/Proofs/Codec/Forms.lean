/-
The forms of one push. Operations have the same content if they are the same opcode or push the same payload, so
they differ at most in the lead byte of a push. A push is in its shortest form exactly if it is what the minimal
push of its payload reads back as, which for the empty payload is no push at all. A payload of fewer than 2^16
bytes has forms to choose from; a longer one has a single form, behind a length field of four bytes.
-/
import CoinScript.Proofs.Codec.Shortest
import Mathlib.Control.Monad.Basic

namespace CoinScript.Operation

variable {op other : Operation} {lead : UInt8} {payload : Bytes}

/-! ## Content -/

/-- What an operation does, in whatever form: its opcode, or the payload that it pushes. -/
def content : Operation → UInt8 ⊕ Bytes
  | opcode op => .inl op
  | push _ payload => .inr payload

theorem content_eq_inl_iff {byte : UInt8} : op.content = .inl byte ↔ op = .opcode byte := by
  cases op <;> simp [content]

theorem content_eq_inr_iff : op.content = .inr payload ↔ ∃ lead, op = .push lead payload := by
  cases op <;> simp [content]

theorem payload?_eq_comp : payload? = Sum.getRight? ∘ content := by
  funext op
  cases op <;> rfl

/-- Operations that are told apart by their contents are the same if these are. -/
theorem eq_of_map_content_eq {ops others : List Operation}
    (h : ∀ op ∈ ops, ∀ other ∈ others, op.content = other.content → op = other)
    (heq : ops.map content = others.map content) : ops = others := by
  induction ops generalizing others with
  | nil => exact (List.map_eq_nil_iff.1 heq.symm).symm
  | cons op ops ih =>
    obtain ⟨other, rest, rfl, hother, hrest⟩ := List.map_eq_cons_iff.1 heq.symm
    rw [h op List.mem_cons_self other List.mem_cons_self hother.symm,
      ih (fun op hop other hother => h op (.tail _ hop) other (.tail _ hother)) hrest.symm]

theorem eq_of_bytes_eq (h : op.WellFormed) (hother : other.WellFormed) (heq : op.bytes = other.bytes) :
    op = other := by
  have hread := read?_bytes_append h []
  rw [heq, read?_bytes_append hother] at hread
  cases hread
  rfl

/-! ## The shortest form -/

/-- The operation is as short as one of its content can be: a push is the minimal one of its payload, and an opcode
has no other form. -/
def Shortest : Operation → Prop
  | opcode _ => True
  | push lead payload => encodePush payload .minimal = .ok (push lead payload).bytes

instance : DecidablePred Shortest
  | opcode _ => inferInstanceAs (Decidable True)
  | push lead payload => inferInstanceAs (Decidable (encodePush payload .minimal = .ok (push lead payload).bytes))

/-- Only a length field of four bytes holds the length of more than 2^16 - 1 bytes. -/
theorem length_lt_or_lead_eq (h : (push lead payload).WellFormed) :
    payload.length < 2 ^ 16 ∨ (lead = Op.pushData4 ∧ payload.length < 2 ^ 32) := by
  rcases h with ⟨-, hmax, hlen⟩ | ⟨-, hlen⟩ | ⟨-, hlen⟩ | hlead
  · have hdirect : lead.toNat ≤ 75 := UInt8.le_iff_toNat_le.1 hmax
    omega
  · omega
  · exact .inl hlen
  · exact .inr hlead

theorem length_le_of_wellFormed (h : (push lead payload).WellFormed) :
    payload.length ≤ PushForm.minimal.capacity := by
  have hcapacity : PushForm.minimal.capacity = 2 ^ 32 - 1 := rfl
  rcases length_lt_or_lead_eq h with hlen | ⟨-, hlen⟩ <;> omega

theorem shortest_push_iff (h : (push lead payload).WellFormed) :
    (push lead payload).Shortest ↔ PushForm.minimal.operation payload = .push lead payload := by
  have hroom := length_le_of_wellFormed h
  have hminimal := PushForm.wellFormed_operation hroom
  rw [Shortest, encodePush_of_le hroom, Except.ok.injEq]
  exact ⟨eq_of_bytes_eq hminimal h, congrArg bytes⟩

/-- The minimal push of a payload is in the shortest form, also where it is an opcode. -/
theorem shortest_operation (h : payload.length ≤ PushForm.minimal.capacity) :
    (PushForm.minimal.operation payload).Shortest := by
  have hwf := PushForm.wellFormed_operation h
  by_cases hne : payload = []
  · rw [hne]
    trivial
  · have hop := PushForm.operation_of_ne_nil h hne
    rw [hop] at hwf ⊢
    exact (shortest_push_iff hwf).2 hop

/-- Operations in the shortest form are told apart by what they do. -/
theorem Shortest.eq_of_content_eq (hshortest : op.Shortest) (hother : other.Shortest) (h : op.WellFormed)
    (hwf : other.WellFormed) (heq : op.content = other.content) : op = other := by
  cases op with
  | opcode byte => exact (content_eq_inl_iff.1 heq.symm).symm
  | push lead payload =>
    obtain ⟨lead', rfl⟩ := content_eq_inr_iff.1 heq.symm
    rw [← (shortest_push_iff h).1 hshortest, ← (shortest_push_iff hwf).1 hother]

/-! ## Other forms -/

/-- A payload of fewer than 2^16 bytes can be pushed behind another lead byte. -/
theorem exists_other_form (lead : UInt8) (h : payload.length < 2 ^ 16) :
    ∃ lead', lead' ≠ lead ∧ (push lead' payload).WellFormed := by
  by_cases hfour : lead = Op.pushData4
  · exact ⟨Op.pushData2, by rw [hfour]; decide, .inr (.inr (.inl ⟨rfl, h⟩))⟩
  · exact ⟨Op.pushData4, Ne.symm hfour, .inr (.inr (.inr ⟨rfl, by omega⟩))⟩

/-- A longer payload leaves no choice. -/
theorem eq_of_content_eq (h : op.WellFormed) (hother : other.WellFormed) (heq : op.content = other.content)
    (hlong : ∀ payload, op.payload? = some payload → 2 ^ 16 ≤ payload.length) : op = other := by
  cases op with
  | opcode byte => exact (content_eq_inl_iff.1 heq.symm).symm
  | push lead payload =>
    obtain ⟨lead', rfl⟩ := content_eq_inr_iff.1 heq.symm
    have hlen := Nat.not_lt.2 (hlong payload rfl)
    obtain ⟨hlead, -⟩ := (length_lt_or_lead_eq h).resolve_left hlen
    obtain ⟨hlead', -⟩ := (length_lt_or_lead_eq hother).resolve_left hlen
    rw [hlead, hlead']

end CoinScript.Operation
