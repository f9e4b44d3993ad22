/-
Decoding a buffer and serializing its chunks are inverse to each other. The chunks of a buffer are
well formed and tile it, each over exactly its own bytes, so that their bytes in order are the
buffer again in whatever forms its pushes are; and every list of well-formed chunks that tile a
buffer is what its bytes decode to.

The proof is an induction over the chunks: an operation is read off the front of the buffer exactly
if it is well formed and its bytes stand there, and the rest of the buffer starts where it stops.
-/
import CoinScript.Proofs.Codec.Operation
import Mathlib.Data.Set.Function

namespace CoinScript

/-! ## Places of chunks -/

namespace Span

def length (s : Span) : Nat := s.stop - s.start

/-- The bytes of a buffer that stand within the span. -/
def slice (s : Span) (buffer : Bytes) : Bytes := buffer.extract s.start s.stop

/-- The spans lead from one offset to another, each starting where the one before it stops. -/
def Contiguous : (start : Nat) → List Span → (stop : Nat) → Prop
  | start, [], stop => start = stop
  | start, s :: rest, stop => s.start = start ∧ Contiguous s.stop rest stop

end Span

/-- The chunks stand one behind the other from an offset on, each over as many bytes as its
operation has. -/
def Tiled : (start : Nat) → List Chunk → Prop
  | _, [] => True
  | start, c :: rest => c.span = ⟨start, start + c.operation.size⟩ ∧ Tiled (start + c.operation.size) rest

instance decidableTiled : (start : Nat) → (chunks : List Chunk) → Decidable (Tiled start chunks)
  | _, [] => inferInstanceAs (Decidable True)
  | start, c :: rest =>
    have := decidableTiled (start + c.operation.size) rest
    inferInstanceAs (Decidable (c.span = ⟨start, start + c.operation.size⟩ ∧ _))

/-- Chunks as a buffer can give them: well formed, and tiled from its start. -/
def Canonical (chunks : List Chunk) : Prop := (∀ c ∈ chunks, c.operation.WellFormed) ∧ Tiled 0 chunks

instance : DecidablePred Canonical := fun _ => inferInstanceAs (Decidable (_ ∧ _))

@[simp] theorem serialize_nil : serialize [] = [] := rfl

@[simp] theorem serialize_cons (c : Chunk) (rest : List Chunk) :
    serialize (c :: rest) = c.operation.bytes ++ serialize rest := rfl

/-- Tiled chunks lead from their start to the end of their bytes. -/
theorem Tiled.contiguous : ∀ {start : Nat} {chunks : List Chunk}, Tiled start chunks →
    Span.Contiguous start (chunks.map Chunk.span) (start + (serialize chunks).length)
  | start, [], _ => rfl
  | start, c :: rest, ⟨hspan, hrest⟩ => by
    have hlen : start + (serialize (c :: rest)).length =
        start + c.operation.size + (serialize rest).length := by
      rw [serialize_cons, List.length_append, Operation.length_bytes, Nat.add_assoc]
    rw [List.map_cons, hlen, hspan]
    exact ⟨rfl, hrest.contiguous⟩

/-- Behind as many bytes as their offset says, tiled chunks stand over their own bytes. -/
theorem Tiled.slice_eq : ∀ {chunks : List Chunk} {before : Bytes}, Tiled before.length chunks →
    ∀ c ∈ chunks, c.span.length = c.operation.size ∧
      c.span.slice (before ++ serialize chunks) = c.operation.bytes
  | c :: rest, before, ⟨hspan, hrest⟩, c', hc' => by
    rw [← Operation.length_bytes, ← List.length_append] at hrest
    rw [serialize_cons, ← List.append_assoc]
    rcases List.mem_cons.1 hc' with rfl | hc'
    -- the first chunk stands right behind what was before, the others behind its bytes as well
    · refine ⟨by simp [hspan, Span.length], ?_⟩
      simp [hspan, Span.slice, List.extract_eq_take_drop, ← Operation.length_bytes]
    · exact hrest.slice_eq c' hc'

/-- The chunks of operations that stand one behind the other from an offset on. -/
def place : (start : Nat) → List Operation → List Chunk
  | _, [] => []
  | start, op :: ops => ⟨op, start, start + op.size⟩ :: place (start + op.size) ops

@[simp] theorem map_operation_place (start : Nat) (ops : List Operation) :
    (place start ops).map Chunk.operation = ops := by
  induction ops generalizing start with
  | nil => rfl
  | cons op ops ih => rw [place, List.map_cons, ih]

theorem length_place (start : Nat) (ops : List Operation) : (place start ops).length = ops.length := by
  rw [← List.length_map Chunk.operation, map_operation_place]

theorem tiled_place (start : Nat) (ops : List Operation) : Tiled start (place start ops) := by
  induction ops generalizing start with
  | nil => trivial
  | cons op ops ih => exact ⟨rfl, ih _⟩

theorem serialize_eq_flatMap (chunks : List Chunk) :
    serialize chunks = (chunks.map Chunk.operation).flatMap Operation.bytes := by
  rw [serialize, List.flatMap_map]

/-! ## Decoding from an offset -/

theorem decodeFrom_eq_ok_nil_iff {start : Nat} {buffer : Bytes} :
    decodeFrom start buffer = .ok [] ↔ buffer = [] := by
  constructor
  · intro h
    by_contra hne
    cases hread : Operation.read? buffer with
    | none => rw [decodeFrom_of_read?_none start hne hread] at h; cases h
    | some found =>
      rw [decodeFrom_of_read?_some start hread] at h
      cases hrest : decodeFrom (start + found.1.size) found.2 <;> rw [hrest] at h <;> cases h
  · rintro rfl
    exact decodeFrom_nil start

/-- The first chunk is the operation read at the offset, and the others follow behind it. -/
theorem decodeFrom_eq_ok_cons_iff {start : Nat} {buffer : Bytes} {c : Chunk} {chunks : List Chunk} :
    decodeFrom start buffer = .ok (c :: chunks) ↔
      ∃ rest, Operation.read? buffer = some (c.operation, rest) ∧
        c.span = ⟨start, start + c.operation.size⟩ ∧
        decodeFrom (start + c.operation.size) rest = .ok chunks := by
  constructor
  · intro h
    have hne : buffer ≠ [] := by rintro rfl; rw [decodeFrom_nil] at h; cases h
    cases hread : Operation.read? buffer with
    | none => rw [decodeFrom_of_read?_none start hne hread] at h; cases h
    | some found =>
      obtain ⟨op, rest⟩ := found
      rw [decodeFrom_of_read?_some start hread] at h
      cases hrest : decodeFrom (start + op.size) rest with
      | error e => rw [hrest] at h; cases h
      | ok decoded =>
        rw [hrest] at h
        cases h
        exact ⟨rest, rfl, rfl, hrest⟩
  · rintro ⟨rest, hread, hspan, hrest⟩
    rw [decodeFrom_of_read?_some start hread, hrest, ← hspan]
    rfl

/-- Decoding from an offset gives exactly the well-formed chunks that are tiled from there and have
the bytes of the buffer. -/
theorem decodeFrom_eq_ok_iff {start : Nat} {buffer : Bytes} {chunks : List Chunk} :
    decodeFrom start buffer = .ok chunks ↔
      (∀ c ∈ chunks, c.operation.WellFormed) ∧ Tiled start chunks ∧ serialize chunks = buffer := by
  induction chunks generalizing start buffer with
  | nil => simp [decodeFrom_eq_ok_nil_iff, Tiled, eq_comm]
  | cons c chunks ih =>
    rw [decodeFrom_eq_ok_cons_iff]
    constructor
    · rintro ⟨rest, hread, hspan, hrest⟩
      obtain ⟨hwf, hinput⟩ := Operation.read?_eq_some_iff.1 hread
      obtain ⟨hwfs, htiled, hbytes⟩ := ih.1 hrest
      refine ⟨List.forall_mem_cons.2 ⟨hwf, hwfs⟩, ⟨hspan, htiled⟩, ?_⟩
      rw [serialize_cons, hbytes, hinput]
    · rintro ⟨hwf, ⟨hspan, htiled⟩, rfl⟩
      obtain ⟨hwf, hwfs⟩ := List.forall_mem_cons.1 hwf
      exact ⟨serialize chunks, Operation.read?_bytes_append hwf _, hspan, ih.2 ⟨hwfs, htiled, rfl⟩⟩

theorem decodeFrom_flatMap_bytes (start : Nat) {ops : List Operation} (h : ∀ op ∈ ops, op.WellFormed) :
    decodeFrom start (ops.flatMap Operation.bytes) = .ok (place start ops) := by
  refine decodeFrom_eq_ok_iff.2 ⟨fun c hc => h _ ?_, tiled_place start ops, ?_⟩
  · rw [← map_operation_place start ops]
    exact List.mem_map_of_mem hc
  · rw [serialize_eq_flatMap, map_operation_place]

/-- Decoding gives exactly the canonical chunks with the bytes of the buffer. -/
theorem decodeAll_eq_ok_iff {buffer : Bytes} {chunks : List Chunk} :
    decodeAll buffer = .ok chunks ↔ Canonical chunks ∧ serialize chunks = buffer := by
  rw [decodeAll, decodeFrom_eq_ok_iff, Canonical, and_assoc]

theorem serialize_of_decodeAll {buffer : Bytes} {chunks : List Chunk} (h : decodeAll buffer = .ok chunks) :
    serialize chunks = buffer :=
  (decodeAll_eq_ok_iff.1 h).2

theorem decodeAll_serialize_of_decodeAll {buffer : Bytes} {chunks : List Chunk}
    (h : decodeAll buffer = .ok chunks) : decodeAll (serialize chunks) = .ok chunks := by
  rw [serialize_of_decodeAll h, h]

theorem exists_truncated_of_decodeFrom {start : Nat} {buffer : Bytes} {cause : CodecError}
    (h : decodeFrom start buffer = .error cause) : ∃ offset, cause = .truncated offset := by
  induction buffer using Operation.read_induction generalizing start with
  | nil =>
    rw [decodeFrom_nil] at h
    cases h
  | stuck input hne hread =>
    rw [decodeFrom_of_read?_none start hne hread] at h
    cases h
    exact ⟨start, rfl⟩
  | step input op rest hread ih =>
    rw [decodeFrom_of_read?_some start hread] at h
    cases hrest : decodeFrom (start + op.size) rest with
    | ok chunks => rw [hrest] at h; cases h
    | error cause' =>
      rw [hrest] at h
      cases h
      exact ih hrest

/-! ## Nothing is lost, and nothing else decodes -/

/-- Decoding loses nothing: the spans of the chunks lead from the start of the buffer to its end,
each chunk stands over exactly its own bytes, of which there is at least one, and the bytes of all
chunks in order are the buffer. -/
theorem decodeAll_lossless {buffer : Bytes} {chunks : List Chunk} (h : decodeAll buffer = .ok chunks) :
    Span.Contiguous 0 (chunks.map Chunk.span) buffer.length ∧
      (∀ c ∈ chunks, c.span.length = c.operation.size ∧ c.operation.size = c.operation.bytes.length ∧
        1 ≤ c.operation.size ∧ c.span.slice buffer = c.operation.bytes) ∧
      serialize chunks = buffer := by
  obtain ⟨⟨-, htiled⟩, rfl⟩ := decodeAll_eq_ok_iff.1 h
  refine ⟨by simpa using htiled.contiguous, fun c hc => ?_, rfl⟩
  obtain ⟨hlen, hslice⟩ := @Tiled.slice_eq chunks [] htiled c hc
  exact ⟨hlen, (Operation.length_bytes _).symm, c.operation.size_pos, hslice⟩

/-- An opcode, a direct push and the same payload behind needlessly long length fields. -/
theorem decodeAll_lossless_of_mixed_forms :
    let buffer : Bytes := [0x76, 0x01, 0xaa, 0x4c, 0x01, 0xaa, 0x4d, 0x01, 0x00, 0xaa]
    let chunks : List Chunk := [⟨.opcode 0x76, 0, 1⟩, ⟨.push 0x01 [0xaa], 1, 3⟩,
      ⟨.push 0x4c [0xaa], 3, 6⟩, ⟨.push 0x4d [0xaa], 6, 10⟩]
    decodeAll buffer = .ok chunks ∧
      Span.Contiguous 0 (chunks.map Chunk.span) buffer.length ∧
      (∀ c ∈ chunks, c.span.length = c.operation.size ∧ c.operation.size = c.operation.bytes.length ∧
        1 ≤ c.operation.size ∧ c.span.slice buffer = c.operation.bytes) ∧
      serialize chunks = buffer := by
  intro buffer chunks
  have h : decodeAll buffer = .ok chunks := decodeAll_eq_ok_iff.2 ⟨by decide, rfl⟩
  exact ⟨h, decodeAll_lossless h⟩

/-- Exactly the well-formed chunks decode back: at any place of any buffer the bytes of an operation
are read as that operation if and only if it is well formed, so the chunks that their own bytes
decode to are the canonical ones, and decoding and serializing are inverse bijections between the
buffers that decode and the canonical lists of chunks. -/
theorem decodes_back_iff_wellFormed :
    (∀ (c : Chunk) (before after : Bytes),
      c.operation.size = c.operation.bytes.length ∧
        (decodeOne (before ++ c.operation.bytes ++ after) before.length =
            .ok (⟨c.operation, before.length, before.length + c.operation.size⟩, c.operation.size) ↔
          c.operation.WellFormed)) ∧
      (∀ chunks, decodeAll (serialize chunks) = .ok chunks ↔ Canonical chunks) ∧
      (∀ buffer chunks, decodeAll buffer = .ok chunks ↔ Canonical chunks ∧ serialize chunks = buffer) ∧
      Set.BijOn serialize {chunks | Canonical chunks} {buffer | ∃ chunks, decodeAll buffer = .ok chunks} := by
  have hback : ∀ chunks, decodeAll (serialize chunks) = .ok chunks ↔ Canonical chunks := fun chunks => by
    rw [decodeAll_eq_ok_iff, and_iff_left rfl]
  refine ⟨fun c before after => ⟨(Operation.length_bytes _).symm, Operation.decodeOne_bytes_iff _ _ _⟩,
    hback, fun _ _ => decodeAll_eq_ok_iff, ?_, ?_, ?_⟩
  · intro chunks hchunks
    exact ⟨chunks, (hback chunks).2 hchunks⟩
  · intro a ha b hb hab
    -- both lists are what their common bytes decode to
    have hdecoded := (hback a).2 ha
    rw [hab, (hback b).2 hb] at hdecoded
    cases hdecoded
    rfl
  · rintro buffer ⟨chunks, h⟩
    exact ⟨chunks, (decodeAll_eq_ok_iff.1 h).1, serialize_of_decodeAll h⟩

end CoinScript
