/-
A script through its operations. The chunks of a coherent script are its operations, placed one behind the
other from the start, and its bytes are theirs. Well-formed operations decode from their bytes whichever they
are and in whatever order, so every choice among the operations of coherent scripts is again what a coherent
script consists of; what an edit or a cut does to a script is said by what it does to its operations.
-/
import CoinScript.Proofs.Script.Append

namespace CoinScript

/-- Chunks that stand one behind the other are where their operations would be placed. -/
theorem Tiled.place_eq : ∀ {start : Nat} {chunks : List Chunk}, Tiled start chunks →
    place start (chunks.map Chunk.operation) = chunks
  | _, [], _ => rfl
  | start, c :: rest, ⟨hspan, hrest⟩ => by
    rw [List.map_cons, place, hrest.place_eq, ← hspan]

namespace Script

variable {s other : Script} {ops : List Operation}

/-- What a script consists of, without the places. -/
def operations (s : Script) : List Operation := s.chunks.map Chunk.operation

@[simp] theorem length_operations (s : Script) : s.operations.length = s.chunks.length := List.length_map _

/-! ## Scripts of given operations -/

/-- The script of some operations, placed one behind the other, with their bytes held. -/
def ofOperations (ops : List Operation) : Script := ofDecoded (place 0 ops) (ops.flatMap Operation.bytes)

@[simp] theorem operations_ofOperations (ops : List Operation) : (ofOperations ops).operations = ops :=
  map_operation_place 0 ops

@[simp] theorem chunks_ofOperations (ops : List Operation) : (ofOperations ops).chunks = place 0 ops := rfl

theorem length_chunks_ofOperations (ops : List Operation) : (ofOperations ops).chunks.length = ops.length :=
  length_place 0 ops

@[simp] theorem data_ofOperations (ops : List Operation) : (ofOperations ops).data = ops.flatMap Operation.bytes := rfl

/-- The bytes of well-formed operations decode to the script of those operations. -/
theorem parse_eq_ofOperations (h : ∀ op ∈ ops, op.WellFormed) :
    parse (ops.flatMap Operation.bytes) = .ok (ofOperations ops) :=
  parse_flatMap_bytes h

theorem coherent_ofOperations (h : ∀ op ∈ ops, op.WellFormed) : Coherent (ofOperations ops) :=
  coherent_of_parse (parse_eq_ofOperations h)

/-- Rebuilding from the bytes of well-formed operations gives the script of those operations. -/
theorem run_rebuild_flatMap (h : ∀ op ∈ ops, op.WellFormed) (s : Script) :
    (rebuild (ops.flatMap Operation.bytes)).run s = ⟨.ok (), ofOperations ops, []⟩ :=
  run_rebuild_ok (decodeFrom_flatMap_bytes 0 h) s

/-! ## Operations of a coherent script -/

theorem Coherent.wellFormed (h : Coherent s) : ∀ op ∈ s.operations, op.WellFormed := by
  intro op hop
  obtain ⟨c, hc, rfl⟩ := List.mem_map.1 hop
  exact (decodeAll_eq_ok_iff.1 h.chunks).1.1 c hc

theorem Coherent.chunks_eq_place (h : Coherent s) : s.chunks = place 0 s.operations :=
  (decodeAll_eq_ok_iff.1 h.chunks).1.2.place_eq.symm

theorem Coherent.data_eq_flatMap (h : Coherent s) : s.data = s.operations.flatMap Operation.bytes := by
  rw [h.data_eq, serialize_eq_flatMap, operations]

/-- Coherent scripts of the same operations have the same chunks and the same bytes. -/
theorem Coherent.eq_of_operations (h : Coherent s) (hother : Coherent other)
    (heq : s.operations = other.operations) : s.chunks = other.chunks ∧ s.data = other.data := by
  rw [h.chunks_eq_place, hother.chunks_eq_place, h.data_eq_flatMap, hother.data_eq_flatMap, heq]
  exact ⟨rfl, rfl⟩

theorem data_of_parse {bytes : Bytes} (h : parse bytes = .ok s) : s.data = bytes := by
  obtain ⟨chunks, -, rfl⟩ := parse_eq_ok_iff.1 h
  rfl

/-- The bytes that a script was parsed from are those of its operations. -/
theorem eq_flatMap_of_parse {bytes : Bytes} (h : parse bytes = .ok s) :
    bytes = s.operations.flatMap Operation.bytes := by
  rw [← (coherent_of_parse h).data_eq_flatMap, data_of_parse h]

/-! ## Appending -/

theorem Coherent.operations_appendOpcode (h : Coherent s) {op : UInt8} (hop : isUnappendable op = false)
    (hdirect : ¬ (Op.zero < op ∧ op ≤ Op.directMax)) :
    ((appendOpcode op).run s).state.operations = s.operations ++ [.opcode op] := by
  rw [h.run_appendOpcode_of_opcode hop hdirect]
  exact List.map_append

theorem Coherent.operations_appendData (h : Coherent s) {payload : Bytes} (hne : payload ≠ [])
    (hroom : payload.length ≤ PushForm.minimal.capacity) :
    ((appendData payload).run s).state.operations = s.operations ++ [PushForm.minimal.operation payload] := by
  rw [h.run_appendData_of_le hne hroom]
  exact List.map_append

theorem Coherent.operations_appendScript (h : Coherent s) (hother : Coherent other) (hne : other.chunks ≠ []) :
    ((appendScript other).run s).state.operations = s.operations ++ other.operations := by
  rw [h.run_appendScript_of_chunks hother hne]
  show (s.chunks ++ other.chunks.map (Chunk.shift s.size)).map Chunk.operation = _
  rw [List.map_append, List.map_map]
  rfl

end Script

end CoinScript
