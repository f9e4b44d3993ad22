/-
Decoding: the operations of a buffer, each with the span of bytes it occupies. Decoding a whole
buffer tiles it with the spans of its chunks, and fails at the first operation that is cut short.
-/
import CoinScript.Push

namespace CoinScript

/-- The bytes from `start` up to but not including `stop`. -/
structure Span where
  start : Nat
  stop : Nat
  deriving DecidableEq

/-- An operation and where it stands. -/
structure Chunk where
  operation : Operation
  span : Span
  deriving DecidableEq

/-! ## Serial forms -/

/-- The bytes of chunks, in order. -/
def serialize (chunks : List Chunk) : Bytes := chunks.flatMap fun c => c.operation.bytes

/-- The tokens of chunks, in order, with a space between two. -/
def disassemble (chunks : List Chunk) : String :=
  " ".intercalate (chunks.map fun c => c.operation.text)

/-! ## Decoding -/

/-- The operation at an offset, and the number of bytes it takes. -/
def decodeOne (buffer : Bytes) (offset : Nat) : Except CodecError (Chunk × Nat) :=
  match Operation.read? (buffer.drop offset) with
  | none => .error (.truncated offset)
  | some (op, _) => .ok (⟨op, offset, offset + op.size⟩, op.size)

/-- Decodes the rest of a buffer from an offset on; `done` holds the chunks before it, last first. -/
def decodeOnto (done : List Chunk) (offset : Nat) (input : Bytes) : Except CodecError (List Chunk) :=
  if input.isEmpty then .ok done.reverse
  else
    match h : Operation.read? input with
    | none => .error (.truncated offset)
    | some (op, rest) =>
      have := Operation.length_rest_of_read? h
      decodeOnto (⟨op, offset, offset + op.size⟩ :: done) (offset + op.size) rest
termination_by input.length

/-- The chunks of a whole buffer, whose first byte stands at `offset`. -/
def decodeFrom (offset : Nat) (buffer : Bytes) : Except CodecError (List Chunk) :=
  decodeOnto [] offset buffer

/-- The chunks of a whole buffer. -/
def decodeAll (buffer : Bytes) : Except CodecError (List Chunk) := decodeFrom 0 buffer

/-! ## How decoding goes on -/

/-- The chunks before the offset come first in the result. -/
theorem decodeOnto_eq (done : List Chunk) (offset : Nat) (input : Bytes) :
    decodeOnto done offset input = (decodeFrom offset input).map (done.reverse ++ ·) := by
  induction hn : input.length using Nat.strongRecOn generalizing done offset input with
  | ind n ih =>
    unfold decodeFrom
    rw [decodeOnto, decodeOnto]
    split
    · simp [Except.map]
    · split
      · rfl
      · next op rest h =>
        have hlt := Operation.length_rest_of_read? h
        rw [ih rest.length (by omega) _ _ rest rfl, ih rest.length (by omega) [_] _ rest rfl]
        cases decodeFrom (offset + op.size) rest <;> simp [Except.map]

@[simp] theorem decodeFrom_nil (offset : Nat) : decodeFrom offset [] = .ok [] := by
  simp [decodeFrom, decodeOnto]

theorem decodeFrom_of_read?_none {input : Bytes} (offset : Nat) (hne : input ≠ [])
    (h : Operation.read? input = none) : decodeFrom offset input = .error (.truncated offset) := by
  rw [decodeFrom, decodeOnto]
  split
  · next he => exact absurd (by simpa using he) hne
  · split
    · rfl
    · next h' => rw [h] at h'; cases h'

theorem decodeFrom_of_read?_some {input rest : Bytes} {op : Operation} (offset : Nat)
    (h : Operation.read? input = some (op, rest)) :
    decodeFrom offset input =
      (decodeFrom (offset + op.size) rest).map (⟨op, offset, offset + op.size⟩ :: ·) := by
  have hlt := Operation.length_rest_of_read? h
  rw [decodeFrom, decodeOnto]
  split
  · next he =>
    have : input = [] := by simpa using he
    subst this
    cases h
  · split
    · next h' => rw [h] at h'; cases h'
    · next op' rest' h' =>
      rw [h] at h'
      cases h'
      rw [decodeOnto_eq]
      rfl

end CoinScript
