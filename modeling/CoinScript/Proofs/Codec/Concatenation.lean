/-
Decoding bytes that stand behind others. A buffer that decodes keeps its chunks whatever is put behind
it: the bytes behind it decode as they do alone, only that their chunks, or the offset of the operation
that is cut short, are moved along by the length of what stands in front.

Both facts follow the reading of operations off the front of a buffer: what is read there does not
depend on the bytes behind it, and reading does not ask where the buffer stands.
-/
import CoinScript.Proofs.Codec.Buffer

namespace CoinScript

/-! ## Moving along -/

/-- The span of the same bytes behind so many more. -/
def Span.shift (distance : Nat) (s : Span) : Span := ⟨distance + s.start, distance + s.stop⟩

/-- The chunk of the same bytes behind so many more. -/
def Chunk.shift (distance : Nat) (c : Chunk) : Chunk := { c with span := c.span.shift distance }

/-- The cause of the same failure behind so many more bytes. -/
def CodecError.shift (distance : Nat) : CodecError → CodecError
  | truncated offset => truncated (distance + offset)
  | payloadTooLarge length form => payloadTooLarge length form

/-- Bytes decode alike wherever they stand. -/
theorem decodeFrom_add (distance start : Nat) (buffer : Bytes) :
    decodeFrom (distance + start) buffer =
      ((decodeFrom start buffer).map (List.map (Chunk.shift distance))).mapError (CodecError.shift distance) := by
  induction buffer using Operation.read_induction generalizing start with
  | nil => rw [decodeFrom_nil, decodeFrom_nil]; rfl
  | stuck input hne hread =>
    rw [decodeFrom_of_read?_none _ hne hread, decodeFrom_of_read?_none _ hne hread]
    rfl
  | step input op rest hread ih =>
    rw [decodeFrom_of_read?_some _ hread, decodeFrom_of_read?_some _ hread, Nat.add_assoc, ih]
    cases decodeFrom (start + op.size) rest with
    | error cause => rfl
    | ok chunks =>
      simp only [Except.map, Except.mapError, List.map_cons, Chunk.shift, Span.shift]

/-! ## One buffer behind another -/

theorem decodeFrom_append {start : Nat} {a : Bytes} {chunks : List Chunk} (h : decodeFrom start a = .ok chunks)
    (b : Bytes) : decodeFrom start (a ++ b) = (decodeFrom (start + a.length) b).map (chunks ++ ·) := by
  induction chunks generalizing start a with
  | nil =>
    rw [decodeFrom_eq_ok_nil_iff.1 h]
    cases hb : decodeFrom start b <;> simp [hb, Except.map]
  | cons c chunks ih =>
    obtain ⟨rest, hread, hspan, hrest⟩ := decodeFrom_eq_ok_cons_iff.1 h
    have hlen : start + a.length = start + c.operation.size + rest.length := by
      rw [Operation.bytes_append_of_read? hread, List.length_append, Operation.length_bytes, Nat.add_assoc]
    rw [decodeFrom_of_read?_some start (Operation.read?_append hread b), ih hrest, hlen, ← hspan]
    cases decodeFrom (start + c.operation.size + rest.length) b <;> rfl

/-- Behind a buffer that decodes, another decodes as it does alone, moved along by the length of the first. -/
theorem decodeAll_append {a : Bytes} {chunks : List Chunk} (h : decodeAll a = .ok chunks) (b : Bytes) :
    decodeAll (a ++ b) = ((decodeAll b).map fun more => chunks ++ more.map (Chunk.shift a.length)).mapError
      (CodecError.shift a.length) := by
  have hmoved := decodeFrom_add a.length 0 b
  rw [Nat.add_zero] at hmoved
  rw [decodeAll, decodeFrom_append h, Nat.zero_add, hmoved, decodeAll]
  cases decodeFrom 0 b <;> rfl

theorem decodeAll_append_ok {a b : Bytes} {chunks more : List Chunk} (ha : decodeAll a = .ok chunks)
    (hb : decodeAll b = .ok more) : decodeAll (a ++ b) = .ok (chunks ++ more.map (Chunk.shift a.length)) := by
  rw [decodeAll_append ha, hb]
  rfl

theorem decodeAll_append_error {a b : Bytes} {chunks : List Chunk} {offset : Nat} (ha : decodeAll a = .ok chunks)
    (hb : decodeAll b = .error (.truncated offset)) :
    decodeAll (a ++ b) = .error (.truncated (a.length + offset)) := by
  rw [decodeAll_append ha, hb]
  rfl

end CoinScript
