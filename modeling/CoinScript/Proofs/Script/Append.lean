/-
What appending does to the chunks of a script. The bytes of a coherent script decode to its chunks, so
with a tail behind them they decode to its chunks and those of the tail moved along, or fail where the
tail fails. A tail is an opcode, a minimal push or the bytes of another script; of these only a byte that
is the length of a push does not decode. So an edit that appends adds what it was given to the end of the
list of chunks, or fails for a cause that its argument alone decides.
-/
import CoinScript.Proofs.Codec.Shortest
import CoinScript.Proofs.Codec.Truncation
import CoinScript.Proofs.Script.Rejection

namespace CoinScript.Script

variable {s other : Script}

/-! ## Tails -/

theorem decodeAll_bytes {op : Operation} (h : op.WellFormed) : decodeAll op.bytes = .ok [⟨op, 0, op.size⟩] := by
  refine decodeAll_eq_ok_iff.2 ⟨⟨?_, ?_, trivial⟩, ?_⟩
  · simpa using h
  · rw [Nat.zero_add]
  · rw [serialize_cons, serialize_nil, List.append_nil]

theorem not_unappendable_of_direct {op : UInt8} (h : Op.zero < op ∧ op ≤ Op.directMax) :
    ¬ (Op.isPushDataLead op = true ∨ op = Op.invalid) := by
  have hmax : op.toNat ≤ 75 := UInt8.le_iff_toNat_le.1 h.2
  rintro (hlead | rfl)
  · rcases Op.isPushDataLead_iff.1 hlead with rfl | rfl | rfl <;> exact absurd hmax (by decide)
  · exact absurd hmax (by decide)

/-- The length byte of a push is cut short without the payload. -/
theorem decodeAll_of_direct {op : UInt8} (h : Op.zero < op ∧ op ≤ Op.directMax) :
    decodeAll [op] = .error (.truncated 0) := by
  have hlead : ¬ Op.isPushDataLead op = true := fun hlead => not_unappendable_of_direct h (.inl hlead)
  have hpos : 0 < op.toNat := UInt8.lt_iff_toNat_lt.1 h.1
  refine decodeAll_eq_error_iff.2 ⟨Nat.one_pos, ⟨[], decodeFrom_nil 0⟩, ?_⟩
  rw [List.drop_zero, Operation.needed, if_neg hlead, if_pos h, List.length_singleton]
  omega

theorem Coherent.decodeAll_data (h : Coherent s) : decodeAll s.data = .ok s.chunks := by
  rw [h.data_eq]
  exact h.chunks

theorem Coherent.data_eq_nil_iff (h : Coherent s) : s.data = [] ↔ s.chunks = [] := by
  rw [h.data_eq]
  cases hchunks : s.chunks with
  | nil => simp
  | cons c rest =>
    have hpos := c.operation.size_pos
    refine iff_of_false (fun hnil => ?_) (List.cons_ne_nil _ _)
    have hlen := congrArg List.length hnil
    rw [serialize_cons, List.length_append, Operation.length_bytes, List.length_nil] at hlen
    omega

/-! ## Rebuilding with a tail -/

/-- The chunks of a tail follow those of the script. -/
theorem Coherent.run_rebuild_append (h : Coherent s) {tail : Bytes} {more : List Chunk}
    (htail : decodeAll tail = .ok more) :
    (Script.rebuild (s.data ++ tail)).run s =
      ⟨.ok (), ofDecoded (s.chunks ++ more.map (Chunk.shift s.size)) (s.data ++ tail), []⟩ :=
  run_rebuild_ok (decodeAll_append_ok h.decodeAll_data htail) s

/-- A tail that fails does so behind the bytes of the script. -/
theorem Coherent.run_rebuild_append_error (h : Coherent s) {tail : Bytes} {offset : Nat}
    (htail : decodeAll tail = .error (.truncated offset)) :
    (Script.rebuild (s.data ++ tail)).run s =
      ⟨.error (.codec (.truncated (s.size + offset))), s.invalidate, [rejectedEdit (.truncated (s.size + offset))]⟩ :=
  run_rebuild_error (decodeAll_append_error h.decodeAll_data htail) s

/-- A single operation as the tail is the last chunk. -/
theorem Coherent.run_rebuild_bytes (h : Coherent s) {op : Operation} (hop : op.WellFormed) :
    (Script.rebuild (s.data ++ op.bytes)).run s =
      ⟨.ok (), ofDecoded (s.chunks ++ [⟨op, s.size, s.size + op.size⟩]) (s.data ++ op.bytes), []⟩ :=
  h.run_rebuild_append (decodeAll_bytes hop)

/-! ## Appending -/

theorem isUnappendable_iff {op : UInt8} :
    isUnappendable op = true ↔ Op.isPushDataLead op = true ∨ op = Op.invalid := by
  simp [isUnappendable]

theorem Coherent.run_appendOpcode_of_direct (h : Coherent s) {op : UInt8} (hop : isUnappendable op = false)
    (hdirect : Op.zero < op ∧ op ≤ Op.directMax) :
    ((appendOpcode op).run s).result = .error (.codec (.truncated s.size)) := by
  rw [run_appendOpcode hop, h.run_rebuild_append_error (decodeAll_of_direct hdirect)]
  rfl

theorem Coherent.run_appendOpcode_of_opcode (h : Coherent s) {op : UInt8} (hop : isUnappendable op = false)
    (hdirect : ¬ (Op.zero < op ∧ op ≤ Op.directMax)) :
    (appendOpcode op).run s =
      ⟨.ok (), ofDecoded (s.chunks ++ [⟨.opcode op, s.size, s.size + 1⟩]) (s.data ++ [op]), []⟩ := by
  have hlead : Op.isPushDataLead op = false :=
    Bool.eq_false_iff.2 fun hfield => Bool.eq_false_iff.1 hop (isUnappendable_iff.2 (.inl hfield))
  rw [run_appendOpcode hop]
  exact h.run_rebuild_bytes ((Operation.wellFormed_opcode_iff op).2 ⟨hlead, hdirect⟩)

theorem Coherent.result_appendOpcode (h : Coherent s) (op : UInt8) :
    ((appendOpcode op).run s).result =
      if Op.isPushDataLead op = true ∨ op = Op.invalid then .error (.invalidOpcode op)
      else if Op.zero < op ∧ op ≤ Op.directMax then .error (.codec (.truncated s.size))
      else .ok () := by
  split
  · next hop => rw [run_appendOpcode_of_unappendable (isUnappendable_iff.2 hop)]
  · next hop =>
    have hop : isUnappendable op = false := Bool.eq_false_iff.2 fun hbad => hop (isUnappendable_iff.1 hbad)
    split
    · next hdirect => exact h.run_appendOpcode_of_direct hop hdirect
    · next hdirect => rw [h.run_appendOpcode_of_opcode hop hdirect]

theorem Coherent.appendOpcode_eq_invalidOpcode_iff (h : Coherent s) {op : UInt8} :
    ((appendOpcode op).run s).result = .error (.invalidOpcode op) ↔
      Op.isPushDataLead op = true ∨ op = Op.invalid := by
  rw [h.result_appendOpcode]
  split_ifs with hop hdirect
  · exact iff_of_true rfl hop
  · exact iff_of_false (by simp) hop
  · exact iff_of_false (by simp) hop

theorem Coherent.appendOpcode_eq_truncated_iff (h : Coherent s) {op : UInt8} :
    ((appendOpcode op).run s).result = .error (.codec (.truncated s.size)) ↔ Op.zero < op ∧ op ≤ Op.directMax := by
  rw [h.result_appendOpcode]
  split_ifs with hop hdirect
  · exact iff_of_false (by simp) fun hdirect => not_unappendable_of_direct hdirect hop
  · exact iff_of_true rfl hdirect
  · exact iff_of_false (by simp) hdirect

/-- A payload that a push can hold is appended as the minimal push of it. -/
theorem Coherent.run_appendData_of_le (h : Coherent s) {payload : Bytes} (hne : payload ≠ [])
    (hroom : payload.length ≤ PushForm.minimal.capacity) :
    (appendData payload).run s =
      ⟨.ok (), ofDecoded (s.chunks ++ [⟨PushForm.minimal.operation payload, s.size,
          s.size + (PushForm.minimal.operation payload).size⟩])
        (s.data ++ (PushForm.minimal.operation payload).bytes), []⟩ := by
  rw [run_appendData hne (encodePush_of_le hroom)]
  exact h.run_rebuild_bytes (PushForm.wellFormed_operation hroom)

theorem Coherent.result_appendData (h : Coherent s) (payload : Bytes) :
    ((appendData payload).run s).result =
      if payload = [] then .error .emptyData
      else if PushForm.minimal.capacity < payload.length then
        .error (.codec (.payloadTooLarge payload.length .minimal))
      else .ok () := by
  split
  · next hnil => rw [hnil, run_appendData_nil]
  · next hne =>
    split
    · next hlarge => rw [run_appendData_of_error hne (encodePush_of_lt hlarge)]
    · next hroom => rw [h.run_appendData_of_le hne (Nat.not_lt.1 hroom)]

theorem Coherent.appendData_eq_emptyData_iff (h : Coherent s) {payload : Bytes} :
    ((appendData payload).run s).result = .error .emptyData ↔ payload = [] := by
  rw [h.result_appendData]
  split_ifs with hnil hlarge
  · exact iff_of_true rfl hnil
  · exact iff_of_false (by simp) hnil
  · exact iff_of_false (by simp) hnil

theorem Coherent.appendData_eq_payloadTooLarge_iff (h : Coherent s) {payload : Bytes} :
    ((appendData payload).run s).result = .error (.codec (.payloadTooLarge payload.length .minimal)) ↔
      PushForm.minimal.capacity < payload.length := by
  rw [h.result_appendData]
  split_ifs with hnil hlarge
  · rw [hnil]
    exact iff_of_false (by simp) (Nat.not_lt_zero _)
  · exact iff_of_true rfl hlarge
  · exact iff_of_false (by simp) hlarge

/-- The chunks of a script that has some are appended. -/
theorem Coherent.run_appendScript_of_chunks (h : Coherent s) (hother : Coherent other) (hne : other.chunks ≠ []) :
    (appendScript other).run s =
      ⟨.ok (), ofDecoded (s.chunks ++ other.chunks.map (Chunk.shift s.size)) (s.data ++ other.data), []⟩ := by
  rw [run_appendScript fun hnil => hne (hother.data_eq_nil_iff.1 hnil)]
  exact h.run_rebuild_append hother.decodeAll_data

theorem Coherent.result_appendScript (h : Coherent s) (hother : Coherent other) :
    ((appendScript other).run s).result = if other.chunks = [] then .error .emptyScript else .ok () := by
  split
  · next hnil => rw [run_appendScript_of_nil (hother.data_eq_nil_iff.2 hnil)]
  · next hne => rw [h.run_appendScript_of_chunks hother hne]

theorem Coherent.appendScript_eq_emptyScript_iff (h : Coherent s) (hother : Coherent other) :
    ((appendScript other).run s).result = .error .emptyScript ↔ other.chunks = [] := by
  rw [h.result_appendScript hother]
  split_ifs with hnil
  · exact iff_of_true rfl hnil
  · exact iff_of_false (by simp) hnil

theorem Coherent.keeps_of_error (h : Coherent s) {appending : Appending} {cause : ScriptError}
    (hfail : (appending.edit.run s).result = .error cause) :
    (appending.edit.run s).state.chunks = s.chunks ∧ (appending.edit.run s).state.data = s.data := by
  rcases run_appending_of_error hfail with ⟨hstate, -⟩ | ⟨hstate, -⟩
  · rw [hstate]
    exact ⟨rfl, rfl⟩
  · rw [hstate]
    exact ⟨rfl, h.data_eq.symm⟩

/-- An opcode, a payload or a script (also the script itself) is added to the end of the chunks of a
reachable script, or the edit fails for the cause that is stated and leaves chunks and bytes as they were:
a byte that announces a length field or is the invalid opcode is refused, a byte that is the length of a
push is cut short where the script ends, a payload must be neither empty nor longer than any push can hold,
and a script must have chunks. -/
theorem appending_extends_chunks_or_fails (hs : Reachable s) :
    (∀ op : UInt8,
      let outcome := (appendOpcode op).run s
      (outcome.result = .error (.invalidOpcode op) ↔ Op.isPushDataLead op = true ∨ op = Op.invalid) ∧
        (outcome.result = .error (.codec (.truncated s.size)) ↔ 1 ≤ op.toNat ∧ op.toNat ≤ 75) ∧
        (¬ (Op.isPushDataLead op = true ∨ op = Op.invalid) → ¬ (1 ≤ op.toNat ∧ op.toNat ≤ 75) →
          outcome.result = .ok () ∧
            outcome.state.chunks = s.chunks ++ [⟨.opcode op, s.size, s.size + 1⟩])) ∧
      (∀ payload : Bytes,
        let outcome := (appendData payload).run s
        (outcome.result = .error .emptyData ↔ payload = []) ∧
          (outcome.result = .error (.codec (.payloadTooLarge payload.length .minimal)) ↔
            2 ^ 32 - 1 < payload.length) ∧
          (payload ≠ [] → payload.length ≤ 2 ^ 32 - 1 →
            outcome.result = .ok () ∧ ∃ lead encoded, encodePush payload .minimal = .ok encoded ∧
              (Operation.push lead payload).bytes = encoded ∧
              outcome.state.chunks = s.chunks ++ [⟨.push lead payload, s.size, s.size + encoded.length⟩])) ∧
      (∀ other, Reachable other →
        let outcome := (appendScript other).run s
        (outcome.result = .error .emptyScript ↔ other.chunks = []) ∧
          (other.chunks ≠ [] →
            outcome.result = .ok () ∧
              outcome.state.chunks = s.chunks ++ other.chunks.map (Chunk.shift s.size))) ∧
      ∀ (appending : Appending) (cause : ScriptError), (appending.edit.run s).result = .error cause →
        (appending.edit.run s).state.chunks = s.chunks ∧ (appending.edit.run s).state.data = s.data := by
  have h := hs.coherent
  have hdirect (op : UInt8) : 1 ≤ op.toNat ∧ op.toNat ≤ 75 ↔ Op.zero < op ∧ op ≤ Op.directMax := by
    rw [UInt8.lt_iff_toNat_lt, UInt8.le_iff_toNat_le]
    rfl
  have hcapacity : PushForm.minimal.capacity = 2 ^ 32 - 1 := rfl
  refine ⟨fun op => ?_, fun payload => ?_, fun other hreach => ?_, fun appending cause => h.keeps_of_error⟩
  · rw [hdirect]
    refine ⟨h.appendOpcode_eq_invalidOpcode_iff, h.appendOpcode_eq_truncated_iff, fun hop hlong => ?_⟩
    have hrun := h.run_appendOpcode_of_opcode
      (Bool.eq_false_iff.2 fun hbad => hop (isUnappendable_iff.1 hbad)) hlong
    rw [hrun]
    exact ⟨rfl, rfl⟩
  · refine ⟨h.appendData_eq_emptyData_iff, h.appendData_eq_payloadTooLarge_iff, fun hne hroom => ?_⟩
    rw [← hcapacity] at hroom
    have hop := PushForm.operation_of_ne_nil hroom hne
    rw [h.run_appendData_of_le hne hroom]
    refine ⟨rfl, _, _, encodePush_of_le hroom, by rw [hop], ?_⟩
    rw [Operation.length_bytes, ← hop]
    rfl
  · have hother := hreach.coherent
    refine ⟨h.appendScript_eq_emptyScript_iff hother, fun hne => ?_⟩
    rw [h.run_appendScript_of_chunks hother hne]
    exact ⟨rfl, rfl⟩

/-- A script that pushes a byte behind a needlessly long length field is appended to itself, and the length
of a push is cut short behind it. -/
theorem appending_extends_chunks_or_fails_of_itself :
    let s := ofDecoded [⟨.push 0x4c [0xaa], 0, 3⟩, ⟨.opcode 0x76, 3, 4⟩] [0x4c, 0x01, 0xaa, 0x76]
    Reachable s ∧
      ((appendScript s).run s).state.chunks =
        [⟨.push 0x4c [0xaa], 0, 3⟩, ⟨.opcode 0x76, 3, 4⟩, ⟨.push 0x4c [0xaa], 4, 7⟩, ⟨.opcode 0x76, 7, 8⟩] ∧
      ((appendOpcode 0x05).run s).result = .error (.codec (.truncated 4)) := by
  intro s
  have hs : Reachable s := .parse (parse_eq_ok_iff.2 ⟨_, decodeAll_eq_ok_iff.2 ⟨by decide, rfl⟩, rfl⟩)
  obtain ⟨hopcode, -, hscript, -⟩ := appending_extends_chunks_or_fails hs
  refine ⟨hs, ((hscript s hs).2 (List.cons_ne_nil _ _)).2, (hopcode 0x05).2.1.2 (by decide)⟩

end CoinScript.Script
