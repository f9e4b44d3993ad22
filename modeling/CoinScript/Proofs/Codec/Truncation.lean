/-
Where decoding fails. The lead byte of an operation and its length field tell how many bytes it takes,
and an operation is read off the front of some bytes exactly if there are as many. So a buffer fails at
the one offset before which it decodes and at which an operation takes more bytes than are left, and
putting bytes in front of it moves that offset along.
-/
import CoinScript.Proofs.Codec.Concatenation
import CoinScript.Proofs.Codec.WordOffsets

namespace CoinScript

/-! ## Bytes that an operation takes -/

namespace Operation

/-- The number of bytes that the operation at the front takes. A length field that is itself cut short
counts as far as it goes, and where there is no lead byte one is missing. -/
def needed : Bytes → Nat
  | [] => 1
  | lead :: rest =>
    if Op.isPushDataLead lead then 1 + fieldWidth lead + Bytes.toNatLE (rest.take (fieldWidth lead))
    else if Op.zero < lead ∧ lead ≤ Op.directMax then 1 + lead.toNat
    else 1

theorem readPayload?_eq_none_iff {lead : UInt8} {length : Nat} {input : Bytes} :
    readPayload? lead length input = none ↔ input.length < length := by
  unfold readPayload?
  dsimp only
  rw [List.length_take]
  split
  · next hall => exact iff_of_false (by simp) (by omega)
  · next hfew => exact iff_of_true rfl (by omega)

theorem read?_eq_none_iff {input : Bytes} : read? input = none ↔ input.length < needed input := by
  cases input with
  | nil => exact iff_of_true rfl Nat.one_pos
  | cons lead rest =>
    rw [read?, needed, List.length_cons]
    split
    · dsimp only
      rw [List.length_take]
      split
      · next hfield =>
        rw [readPayload?_eq_none_iff, List.length_drop]
        omega
      · next hfield => exact iff_of_true rfl (by omega)
    · split
      · rw [readPayload?_eq_none_iff]
        omega
      · exact iff_of_false (by simp) (by omega)

end Operation

/-! ## The offset of a failure -/

theorem exists_stuck_of_decodeFrom {start offset : Nat} {buffer : Bytes}
    (h : decodeFrom start buffer = .error (.truncated offset)) :
    ∃ before after, buffer = before ++ after ∧ offset = start + before.length ∧
      (∃ chunks, decodeFrom start before = .ok chunks) ∧ after ≠ [] ∧ Operation.read? after = none := by
  induction buffer using Operation.read_induction generalizing start with
  | nil =>
    rw [decodeFrom_nil] at h
    cases h
  | stuck input hne hread =>
    rw [decodeFrom_of_read?_none start hne hread] at h
    cases h
    exact ⟨[], input, rfl, rfl, ⟨[], decodeFrom_nil _⟩, hne, hread⟩
  | step input op rest hread ih =>
    rw [decodeFrom_of_read?_some start hread] at h
    cases hrest : decodeFrom (start + op.size) rest with
    | ok chunks => rw [hrest] at h; cases h
    | error cause =>
      rw [hrest] at h
      cases h
      obtain ⟨before, after, rfl, hoffset, ⟨chunks, hbefore⟩, hne, hstuck⟩ := ih hrest
      obtain ⟨hwf, hinput⟩ := Operation.read?_eq_some_iff.1 hread
      refine ⟨op.bytes ++ before, after, ?_, ?_, ⟨⟨op, start, start + op.size⟩ :: chunks, ?_⟩, hne, hstuck⟩
      · rw [hinput, List.append_assoc]
      · rw [hoffset, List.length_append, Operation.length_bytes, Nat.add_assoc]
      · exact decodeFrom_eq_ok_cons_iff.2 ⟨before, Operation.read?_bytes_append hwf before, rfl, hbefore⟩

/-- A buffer fails at an offset exactly if it decodes up to there and the operation there takes more bytes
than are left. -/
theorem decodeAll_eq_error_iff {buffer : Bytes} {offset : Nat} :
    decodeAll buffer = .error (.truncated offset) ↔
      offset < buffer.length ∧ (∃ chunks, decodeAll (buffer.take offset) = .ok chunks) ∧
        (buffer.drop offset).length < Operation.needed (buffer.drop offset) := by
  constructor
  · intro h
    obtain ⟨before, after, rfl, hoffset, hbefore, hne, hstuck⟩ := exists_stuck_of_decodeFrom h
    rw [Nat.zero_add] at hoffset
    subst hoffset
    rw [List.take_left, List.drop_left, List.length_append]
    exact ⟨Nat.lt_add_of_pos_right (List.length_pos_iff.2 hne), hbefore, Operation.read?_eq_none_iff.1 hstuck⟩
  · rintro ⟨hlt, ⟨chunks, hbefore⟩, hneeded⟩
    have hne : buffer.drop offset ≠ [] := by simpa using hlt
    have hstuck : decodeAll (buffer.drop offset) = .error (.truncated 0) :=
      decodeFrom_of_read?_none 0 hne (Operation.read?_eq_none_iff.2 hneeded)
    have hfails := decodeAll_append_error hbefore hstuck
    rw [List.take_append_drop, List.length_take, Nat.min_eq_left (Nat.le_of_lt hlt)] at hfails
    exact hfails

theorem decodeOne_of_length_le {buffer : Bytes} {offset : Nat} (h : buffer.length ≤ offset) :
    decodeOne buffer offset = .error (.truncated offset) := by
  rw [decodeOne, List.drop_eq_nil_of_le h]
  rfl

/-- A buffer behind one that decodes keeps its chunks, or the offset at which it fails, moved along; a
buffer fails at an offset exactly if it decodes up to there and the operation there takes more bytes than
are left; in a buffer of fewer than 2^63 bytes an operation is found by offsets that a word holds, wherever
it is looked for; and none is found at the end or past it. -/
theorem decoding_composes_and_fails_in_place :
    (∀ (a b : Bytes) (chunks : List Chunk), decodeAll a = .ok chunks →
      (∀ more, decodeAll b = .ok more → decodeAll (a ++ b) = .ok (chunks ++ more.map (Chunk.shift a.length))) ∧
        ∀ offset, decodeAll b = .error (.truncated offset) →
          decodeAll (a ++ b) = .error (.truncated (a.length + offset))) ∧
      (∀ (buffer : Bytes) (offset : Nat),
        decodeAll buffer = .error (.truncated offset) ↔
          offset < buffer.length ∧ (∃ chunks, decodeAll (buffer.take offset) = .ok chunks) ∧
            (buffer.drop offset).length < Operation.needed (buffer.drop offset)) ∧
      (∀ (buffer : Bytes) (offset : Nat), buffer.length < 2 ^ 63 →
        decodeByOffsets? buffer offset = some (decodeOne buffer offset)) ∧
      ∀ (buffer : Bytes) (offset : Nat), buffer.length ≤ offset →
        decodeOne buffer offset = .error (.truncated offset) := by
  refine ⟨fun a b chunks ha => ⟨fun more hb => ?_, fun offset hb => ?_⟩, fun buffer offset => ?_,
    fun buffer offset hbuffer => ?_, fun buffer offset hpast => ?_⟩
  · exact decodeAll_append_ok ha hb
  · exact decodeAll_append_error ha hb
  · exact decodeAll_eq_error_iff
  · exact decodeByOffsets?_eq hbuffer offset
  · exact decodeOne_of_length_le hpast

/-- Behind an opcode and a push stand a push whose payload lacks a byte, and one whose length field does; an
operation is looked for at the last offset that a word holds. -/
theorem decoding_composes_and_fails_in_place_of_short_field :
    let before : Bytes := [0x76, 0x01, 0xaa]
    let after : Bytes := [0x51, 0x4d, 0x02, 0x00, 0xbb]
    decodeAll before = .ok [⟨.opcode 0x76, 0, 1⟩, ⟨.push 0x01 [0xaa], 1, 3⟩] ∧
      decodeAll after = .error (.truncated 1) ∧ decodeAll (before ++ after) = .error (.truncated 4) ∧
      decodeAll [0x51, 0x4e, 0x00] = .error (.truncated 1) ∧
      decodeByOffsets? before (2 ^ 64 - 1) = some (.error (.truncated (2 ^ 64 - 1))) := by
  intro before after
  obtain ⟨hcompose, hfails, hwords, hpast⟩ := decoding_composes_and_fails_in_place
  have hbefore : decodeAll before = .ok [⟨.opcode 0x76, 0, 1⟩, ⟨.push 0x01 [0xaa], 1, 3⟩] :=
    decodeAll_eq_ok_iff.2 ⟨by decide, rfl⟩
  have hone : decodeAll [0x51] = .ok [⟨.opcode 0x51, 0, 1⟩] := decodeAll_eq_ok_iff.2 ⟨by decide, rfl⟩
  have hafter : decodeAll after = .error (.truncated 1) := (hfails after 1).2 ⟨by decide, ⟨_, hone⟩, by decide⟩
  refine ⟨hbefore, hafter, (hcompose before after _ hbefore).2 1 hafter,
    (hfails [0x51, 0x4e, 0x00] 1).2 ⟨by decide, ⟨_, hone⟩, by decide⟩, ?_⟩
  rw [hwords before _ (by decide), hpast before _ (by decide)]

end CoinScript
