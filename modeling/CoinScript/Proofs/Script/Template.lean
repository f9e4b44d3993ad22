/-
Parsed scripts, and the operations of the two hash templates. The bytes of each template are those of
its operations, which are well formed, so they decode to them, one behind the other; and the script
that pays to the hash of a key, written out chunk by chunk, is what its bytes decode to.
-/
import CoinScript.Proofs.Codec.Buffer
import CoinScript.Script.Build

namespace CoinScript

/-- A parsed script has the chunks that its bytes decode to, and holds the bytes. -/
theorem Script.parse_eq_ok_iff {bytes : Bytes} {s : Script} :
    parse bytes = .ok s ↔ ∃ chunks, decodeAll bytes = .ok chunks ∧ s = ofDecoded chunks bytes := by
  rw [parse]
  cases decodeAll bytes with
  | error cause => simp [Except.map]
  | ok chunks => simp [Except.map, eq_comm]

/-- The bytes of well-formed operations parse to those operations, one behind the other. -/
theorem Script.parse_flatMap_bytes {ops : List Operation} (h : ∀ op ∈ ops, op.WellFormed) :
    parse (ops.flatMap Operation.bytes) = .ok (ofDecoded (place 0 ops) (ops.flatMap Operation.bytes)) :=
  parse_eq_ok_iff.2 ⟨place 0 ops, decodeFrom_flatMap_bytes 0 h, rfl⟩

namespace Output

/-- What pays to the hash of a key does. -/
def p2pkhOps (hash : Hash160) : List Operation :=
  [.opcode Op.dup, .opcode Op.hash160, .push hashLead hash.bytes, .opcode Op.equalVerify,
    .opcode Op.checkSig]

/-- What pays to the hash of a script does. -/
def p2shOps (hash : Hash160) : List Operation :=
  [.opcode Op.hash160, .push hashLead hash.bytes, .opcode Op.equal]

theorem wellFormed_hashPush (hash : Hash160) : (Operation.push hashLead hash.bytes).WellFormed :=
  .inl ⟨by decide, by decide, by rw [Digest.length_bytes]; rfl⟩

theorem size_hashPush (hash : Hash160) : (Operation.push hashLead hash.bytes).size = 21 := by
  rw [Operation.size, Digest.length_bytes]
  rfl

theorem encodePush_hash (hash : Hash160) :
    encodePush hash.bytes .minimal = .ok (Operation.push hashLead hash.bytes).bytes := by
  unfold encodePush
  rw [Digest.length_bytes, if_pos (by decide)]
  rfl

theorem wellFormed_p2pkhOps (hash : Hash160) : ∀ op ∈ p2pkhOps hash, op.WellFormed := by
  simp only [p2pkhOps, List.forall_mem_cons, List.not_mem_nil, false_imp_iff, implies_true, and_true]
  exact ⟨by decide, by decide, wellFormed_hashPush hash, by decide, by decide⟩

theorem wellFormed_p2shOps (hash : Hash160) : ∀ op ∈ p2shOps hash, op.WellFormed := by
  simp only [p2shOps, List.forall_mem_cons, List.not_mem_nil, false_imp_iff, implies_true, and_true]
  exact ⟨by decide, wellFormed_hashPush hash, by decide⟩

end Output

/-- The script written out chunk by chunk is the one that its bytes parse to. -/
theorem Script.parse_p2pkh (hash : Hash160) : parse (Output.p2pkh hash) = .ok (Script.p2pkh hash) := by
  have hparse := parse_flatMap_bytes (Output.wellFormed_p2pkhOps hash)
  simp only [Output.p2pkhOps, place, Output.size_hashPush] at hparse
  exact hparse

theorem Script.parse_p2sh (hash : Hash160) :
    parse (Output.p2sh hash) = .ok (ofDecoded (place 0 (Output.p2shOps hash)) (Output.p2sh hash)) :=
  parse_flatMap_bytes (Output.wellFormed_p2shOps hash)

end CoinScript
