/-
Parts of a script. The chunks before a position, and those from it on, are written as bytes and decoded anew;
any run of the operations of a coherent script decodes to itself, in whatever forms its pushes are, so the part
is the script of those operations. What is true of parts is then true of lists: two parts make up the whole, and
a part of a part is the same whichever end is cut off first.
-/
import CoinScript.Proofs.Script.Operations

namespace CoinScript.Script

variable {s : Script} {position : Nat} {chunks : List Chunk}

/-! ## Chunks cut out -/

/-- Well-formed chunks from anywhere decode again, one behind the other. -/
theorem decodeAll_serialize (h : ∀ op ∈ chunks.map Chunk.operation, op.WellFormed) :
    decodeAll (serialize chunks) = .ok (place 0 (chunks.map Chunk.operation)) := by
  rw [serialize_eq_flatMap]
  exact decodeFrom_flatMap_bytes 0 h

/-- A script is some chunks cut out of another: their bytes decode, to them one behind the other from the start,
and are its bytes. -/
structure CutOut (chunks : List Chunk) (part : Script) : Prop where
  decodes : decodeAll (serialize chunks) = .ok part.chunks
  placed : part.chunks = place 0 (chunks.map Chunk.operation)
  data : part.data = serialize chunks

theorem cutOut_ofOperations (h : ∀ op ∈ chunks.map Chunk.operation, op.WellFormed) :
    CutOut chunks (ofOperations (chunks.map Chunk.operation)) where
  decodes := decodeAll_serialize h
  placed := rfl
  data := (serialize_eq_flatMap chunks).symm

theorem ofRun_eq_ofOperations (h : ∀ op ∈ chunks.map Chunk.operation, op.WellFormed) :
    ofRun chunks = ofOperations (chunks.map Chunk.operation) := by
  unfold ofRun
  dsimp only
  rw [decodeAll_serialize h, ofOperations, serialize_eq_flatMap]

/-! ## The parts before and behind a position -/

theorem map_operation_take (s : Script) (position : Nat) :
    (s.chunks.take position).map Chunk.operation = s.operations.take position := List.map_take

theorem map_operation_drop (s : Script) (position : Nat) :
    (s.chunks.drop position).map Chunk.operation = s.operations.drop position := List.map_drop

theorem Coherent.wellFormed_take (h : Coherent s) (position : Nat) :
    ∀ op ∈ s.operations.take position, op.WellFormed :=
  fun op hop => h.wellFormed op (List.mem_of_mem_take hop)

theorem Coherent.wellFormed_drop (h : Coherent s) (position : Nat) :
    ∀ op ∈ s.operations.drop position, op.WellFormed :=
  fun op hop => h.wellFormed op (List.mem_of_mem_drop hop)

theorem Coherent.subScriptTo?_eq (h : Coherent s) (hle : position ≤ s.chunks.length) :
    s.subScriptTo? position = some (ofOperations (s.operations.take position)) := by
  have hwf := h.wellFormed_take position
  rw [← map_operation_take] at hwf
  rw [subScriptTo?, if_pos hle, ofRun_eq_ofOperations hwf, map_operation_take]

theorem Coherent.subScriptFrom?_eq (h : Coherent s) (hle : position ≤ s.chunks.length) :
    s.subScriptFrom? position = some (ofOperations (s.operations.drop position)) := by
  have hwf := h.wellFormed_drop position
  rw [← map_operation_drop] at hwf
  rw [subScriptFrom?, if_pos hle, ofRun_eq_ofOperations hwf, map_operation_drop]

/-- There is no part at a position behind the last chunk. -/
theorem subScript?_eq_none (h : s.chunks.length < position) :
    s.subScriptTo? position = none ∧ s.subScriptFrom? position = none :=
  ⟨if_neg (Nat.not_le.2 h), if_neg (Nat.not_le.2 h)⟩

theorem Coherent.cutOut_take (h : Coherent s) (position : Nat) :
    CutOut (s.chunks.take position) (ofOperations (s.operations.take position)) := by
  have hwf := h.wellFormed_take position
  rw [← map_operation_take] at hwf ⊢
  exact cutOut_ofOperations hwf

theorem Coherent.cutOut_drop (h : Coherent s) (position : Nat) :
    CutOut (s.chunks.drop position) (ofOperations (s.operations.drop position)) := by
  have hwf := h.wellFormed_drop position
  rw [← map_operation_drop] at hwf ⊢
  exact cutOut_ofOperations hwf

/-! ## Parts of parts, and parts joined -/

/-- Cutting off both ends gives the operations between, whichever is cut off first. -/
theorem Coherent.subScript?_of_part (h : Coherent s) {j k : Nat} (hjk : j ≤ k) (hk : k ≤ s.chunks.length) :
    let between := ofOperations ((s.operations.take k).drop j)
    (ofOperations (s.operations.take k)).subScriptFrom? j = some between ∧
      (ofOperations (s.operations.drop j)).subScriptTo? (k - j) = some between := by
  intro between
  have hfront : Coherent (ofOperations (s.operations.take k)) := coherent_ofOperations (h.wellFormed_take k)
  have hback : Coherent (ofOperations (s.operations.drop j)) := coherent_ofOperations (h.wellFormed_drop j)
  have hj : j ≤ (ofOperations (s.operations.take k)).chunks.length := by
    rw [length_chunks_ofOperations, List.length_take, length_operations]
    omega
  have hrest : k - j ≤ (ofOperations (s.operations.drop j)).chunks.length := by
    rw [length_chunks_ofOperations, List.length_drop, length_operations]
    omega
  refine ⟨?_, ?_⟩
  · rw [hfront.subScriptFrom?_eq hj, operations_ofOperations]
  · rw [hback.subScriptTo?_eq hrest, operations_ofOperations, ← List.drop_take]

/-- The parts before and behind a position, appended to each other, are the script. -/
theorem Coherent.appendScript_parts (h : Coherent s) (hlt : position < s.chunks.length) :
    let front := ofOperations (s.operations.take position)
    let joined := (appendScript (ofOperations (s.operations.drop position))).run front
    joined.result = .ok () ∧ joined.state.chunks = s.chunks ∧ joined.state.data = s.data := by
  intro front joined
  have hfront : Coherent front := coherent_ofOperations (h.wellFormed_take position)
  have hback : Coherent (ofOperations (s.operations.drop position)) :=
    coherent_ofOperations (h.wellFormed_drop position)
  have hne : (ofOperations (s.operations.drop position)).chunks ≠ [] := by
    rw [← List.length_pos_iff, length_chunks_ofOperations, List.length_drop, length_operations]
    omega
  have hresult : joined.result = .ok () := by
    show ((appendScript _).run front).result = _
    rw [hfront.result_appendScript hback, if_neg hne]
  have hops : joined.state.operations = s.operations := by
    show ((appendScript _).run front).state.operations = _
    rw [hfront.operations_appendScript hback hne, operations_ofOperations, operations_ofOperations,
      List.take_append_drop]
  have hjoined : Coherent joined.state := hfront.rebuilt (rebuilt_appendScript _ front)
  exact ⟨hresult, hjoined.eq_of_operations h hops⟩

/-- A reachable script splits at every position up to its number of chunks without loss. The bytes of the chunks
before it and of those from it on decode to these chunks, placed from the start; they are the chunks of the two
parts, whose bytes make up those of the script; the second part, if it has chunks, appended to the first gives a
script equal to it; and cutting a part of a part gives equal scripts whichever end is cut off first. There are no
parts at a position further on. -/
theorem parts_split_without_loss (hs : Reachable s) :
    (∀ k ≤ s.chunks.length, ∃ front back,
      s.subScriptTo? k = some front ∧ s.subScriptFrom? k = some back ∧
        CutOut (s.chunks.take k) front ∧ CutOut (s.chunks.drop k) back ∧ front.data ++ back.data = s.data ∧
        (k < s.chunks.length →
          let joined := (appendScript back).run front
          joined.result = .ok () ∧ (joined.state == s) = true ∧ joined.state.chunks = s.chunks) ∧
        ∀ j ≤ k, ∃ rest inner inner', front.subScriptFrom? j = some inner ∧ s.subScriptFrom? j = some rest ∧
          rest.subScriptTo? (k - j) = some inner' ∧ (inner == inner') = true ∧ inner.chunks = inner'.chunks) ∧
      ∀ k, s.chunks.length < k → s.subScriptTo? k = none ∧ s.subScriptFrom? k = none := by
  have h := hs.coherent
  refine ⟨fun k hk => ⟨_, _, h.subScriptTo?_eq hk, h.subScriptFrom?_eq hk, h.cutOut_take k, h.cutOut_drop k,
    ?_, fun hlt => ?_, fun j hj => ?_⟩, fun k => subScript?_eq_none⟩
  · rw [data_ofOperations, data_ofOperations, ← List.flatMap_append, List.take_append_drop, h.data_eq_flatMap]
  · obtain ⟨hresult, hchunks, hdata⟩ := h.appendScript_parts hlt
    exact ⟨hresult, beq_iff_data_eq.2 hdata, hchunks⟩
  · obtain ⟨hinner, hinner'⟩ := h.subScript?_of_part hj hk
    exact ⟨_, _, _, hinner, h.subScriptFrom?_eq (hj.trans hk), hinner', beq_iff_data_eq.2 rfl, rfl⟩

/-- A script with a push in a needlessly long form splits behind its first chunk. -/
theorem parts_split_without_loss_of_longer_push :
    let s := ofDecoded [⟨.opcode 0x76, 0, 1⟩, ⟨.push 0x4d [0x09], 1, 5⟩] [0x76, 0x4d, 0x01, 0x00, 0x09]
    Reachable s ∧ 1 < s.chunks.length ∧
      (∃ front back, s.subScriptTo? 1 = some front ∧ s.subScriptFrom? 1 = some back ∧
        back.chunks = [⟨.push 0x4d [0x09], 0, 4⟩] ∧ front.data ++ back.data = [0x76, 0x4d, 0x01, 0x00, 0x09] ∧
        (((appendScript back).run front).state == s) = true) ∧
      s.subScriptTo? 3 = none ∧ s.subScriptFrom? 3 = none := by
  intro s
  have hs : Reachable s := .parse (parse_eq_ok_iff.2 ⟨_, decodeAll_eq_ok_iff.2 ⟨by decide, rfl⟩, rfl⟩)
  obtain ⟨hparts, hnone⟩ := parts_split_without_loss hs
  obtain ⟨front, back, hfront, hback, -, hcut, hdata, hjoined, -⟩ := hparts 1 (by decide)
  have hlt : 1 < s.chunks.length := by decide
  exact ⟨hs, hlt, ⟨front, back, hfront, hback, hcut.placed, hdata, (hjoined hlt).2.1⟩, hnone 3 (by decide)⟩

end CoinScript.Script
