/-
Templates and the forms of pushes. The contents of a script are its opcodes and the payloads that it pushes; they
leave open in which form a payload is pushed. The templates that pay to a hash take it from its shortest push
alone, so their contents fix their bytes. The templates that name keys take a key from any push: however such a
script pushes its keys, it is recognised as the same template with the same terms, and every key of fewer than
2^16 bytes can be pushed in another form.
-/
import CoinScript.Proofs.Codec.Forms
import CoinScript.Proofs.Script.Operations
import CoinScript.Proofs.Script.Recognition

namespace CoinScript

/-- Which terms operations spell depends on their contents alone. -/
theorem Multisig.Spelt.of_content {terms : Multisig} {ops others : List Operation} (h : terms.Spelt ops)
    (heq : others.map Operation.content = ops.map Operation.content) : terms.Spelt others := by
  obtain ⟨requiredOp, countOp, keyOps, rfl, hrequired, hcount, hle, hkeys⟩ := h
  rw [List.map_cons, List.map_append] at heq
  obtain ⟨first, rest, rfl, hfirst, hrest⟩ := List.map_eq_cons_iff.1 heq
  obtain ⟨keyOps', last, rfl, hkeyOps, hlast⟩ := List.map_eq_append_iff.1 hrest
  obtain ⟨count, check, rfl⟩ : ∃ count check, last = [count, check] :=
    List.length_eq_two.1 (by simpa using congrArg List.length hlast)
  simp only [List.map_cons, List.map_nil, List.cons.injEq, and_true] at hlast
  have hlen : keyOps'.length = keyOps.length := by simpa using congrArg List.length hkeyOps
  refine ⟨requiredOp, countOp, keyOps', ?_, hrequired, hlen ▸ hcount, hlen ▸ hle, ?_⟩
  · rw [Operation.content_eq_inl_iff.1 hfirst, Operation.content_eq_inl_iff.1 hlast.1,
      Operation.content_eq_inl_iff.1 hlast.2]
  · rw [← hkeys, Operation.payload?_eq_comp, ← List.map_map, ← List.map_map, hkeyOps]

theorem Output.shortest_hashPush (hash : Hash160) : (Operation.push hashLead hash.bytes).Shortest :=
  encodePush_hash hash

namespace Script

variable {bytes bytes' : Bytes} {s other : Script}

/-- The opcodes and the payloads of a script, in whatever form these are pushed. -/
def contents (s : Script) : List (UInt8 ⊕ Bytes) := s.operations.map Operation.content

/-- Bytes that parse to a script with the contents of another: a way to write it, with its pushes in some form. -/
structure Writing (s : Script) (bytes : Bytes) (written : Script) : Prop where
  parses : parse bytes = .ok written
  contents : written.contents = s.contents

/-! ## Templates that name keys -/

theorem isPayToPublicKey_iff :
    s.isPayToPublicKey = true ↔ ∃ key, 1 < key.length ∧ s.contents = [.inr key, .inl Op.checkSig] := by
  unfold isPayToPublicKey contents operations
  constructor
  · intro h
    split at h
    · next lead key span check hchunks =>
      rw [Bool.and_eq_true, decide_eq_true_iff, Chunk.isOp_iff (by decide)] at h
      exact ⟨key, h.1, by rw [hchunks, List.map_cons, List.map_singleton, h.2]; rfl⟩
    · cases h
  · rintro ⟨key, hlen, heq⟩
    rw [List.map_map] at heq
    obtain ⟨push, rest, hchunks, hpush, hrest⟩ := List.map_eq_cons_iff.1 heq
    obtain ⟨check, rfl, hcheck⟩ := List.map_eq_singleton_iff.1 hrest
    obtain ⟨lead, hlead⟩ := Operation.content_eq_inr_iff.1 hpush
    obtain ⟨op, start, stop⟩ := push
    subst hlead
    rw [hchunks]
    simp only [Bool.and_eq_true, decide_eq_true_iff, Chunk.isOp_iff (show Op.checkSig ≠ Op.invalid by decide)]
    exact ⟨hlen, Operation.content_eq_inl_iff.1 hcheck⟩

theorem Writing.multisig?_eq (hw : Writing s bytes' other) (h : parse bytes = .ok s) :
    other.multisig? = s.multisig? := by
  rw [multisig?_of_parse hw.parses, multisig?_of_parse h]
  refine Option.ext fun terms => ?_
  rw [Multisig.ofChunks?_eq_some_iff, Multisig.ofChunks?_eq_some_iff]
  exact ⟨fun hother => hother.of_content hw.contents.symm, fun hs => hs.of_content hw.contents⟩

theorem Writing.kind_eq (hw : Writing s bytes' other) (h : parse bytes = .ok s)
    (hkind : s.kind = .p2pk ∨ s.kind = .multisig) : other.kind = s.kind := by
  rcases hkind with hk | hk
  · have hshape : s.isPayToPublicKey = true := hasShape_of_kind_eq hk (by decide)
    rw [isPayToPublicKey_iff, ← hw.contents, ← isPayToPublicKey_iff] at hshape
    have hother : other.hasShape .p2pk = true := hshape
    rw [hk, kind_eq_of_hasShape hw.parses hother]
  · have hshape : s.isMultisig = true := hasShape_of_kind_eq hk (by decide)
    rw [isMultisig, ← hw.multisig?_eq h] at hshape
    have hother : other.hasShape .multisig = true := hshape
    rw [hk, kind_eq_of_hasShape hw.parses hother]

/-! ## Templates that pay to a hash -/

theorem shortest_of_kind (h : parse bytes = .ok s) (hkind : s.kind = .p2pkh ∨ s.kind = .p2sh) :
    ∀ op ∈ s.operations, op.Shortest := by
  rcases hkind with hk | hk
  · have hshape := hasShape_of_kind_eq hk (by decide)
    obtain ⟨hash, hops⟩ := (isPayToPublicKeyHash_iff (wellFormed_of_parse h)).1 hshape
    rw [operations, hops, Output.p2pkhOps]
    simp only [List.forall_mem_cons, List.not_mem_nil, false_imp_iff, implies_true, and_true]
    exact ⟨trivial, trivial, Output.shortest_hashPush hash, trivial, trivial⟩
  · have hshape := hasShape_of_kind_eq hk (by decide)
    obtain ⟨hash, hops⟩ := (isPayToScriptHash_iff (wellFormed_of_parse h)).1 hshape
    rw [operations, hops, Output.p2shOps]
    simp only [List.forall_mem_cons, List.not_mem_nil, false_imp_iff, implies_true, and_true]
    exact ⟨trivial, Output.shortest_hashPush hash, trivial⟩

/-! ## One writing or several -/

theorem Writing.eq_of_shortest (hw : Writing s bytes' other) (h : parse bytes = .ok s)
    (hs : ∀ op ∈ s.operations, op.Shortest) (hother : ∀ op ∈ other.operations, op.Shortest) : bytes' = bytes := by
  have hwf := (coherent_of_parse h).wellFormed
  have hwf' := (coherent_of_parse hw.parses).wellFormed
  have hops : other.operations = s.operations :=
    Operation.eq_of_map_content_eq (fun op hop op' hop' =>
      (hother op hop).eq_of_content_eq (hs op' hop') (hwf' op hop) (hwf op' hop')) hw.contents
  rw [eq_flatMap_of_parse h, eq_flatMap_of_parse hw.parses, hops]

/-- A script has another writing exactly if one of its payloads is shorter than 2^16 bytes. -/
theorem exists_other_writing_iff (h : parse bytes = .ok s) :
    (∃ bytes' other, Writing s bytes' other ∧ bytes' ≠ bytes) ↔
      ∃ payload, .inr payload ∈ s.contents ∧ payload.length < 2 ^ 16 := by
  have hwf := (coherent_of_parse h).wellFormed
  constructor
  · rintro ⟨bytes', other, hw, hne⟩
    by_contra! hlong
    have hwf' := (coherent_of_parse hw.parses).wellFormed
    have hops : s.operations = other.operations := by
      refine Operation.eq_of_map_content_eq (fun op hop op' hop' heq => ?_) hw.contents.symm
      refine Operation.eq_of_content_eq (hwf op hop) (hwf' op' hop') heq fun payload hpayload => ?_
      refine hlong payload (List.mem_map.2 ⟨op, hop, ?_⟩)
      rwa [Operation.payload?_eq_comp, Function.comp_apply, Sum.getRight?_eq_some_iff] at hpayload
    exact hne (by rw [eq_flatMap_of_parse h, eq_flatMap_of_parse hw.parses, hops])
  · rintro ⟨payload, hmem, hlen⟩
    obtain ⟨op, hop, hcontent⟩ := List.mem_map.1 hmem
    obtain ⟨lead, rfl⟩ := Operation.content_eq_inr_iff.1 hcontent
    obtain ⟨before, after, hsplit⟩ := List.append_of_mem hop
    obtain ⟨lead', hlead, hform⟩ := Operation.exists_other_form lead hlen
    -- the same operations with the one push behind another lead byte
    have hwf' : ∀ op ∈ before ++ .push lead' payload :: after, op.WellFormed := by
      rw [hsplit, List.forall_mem_append, List.forall_mem_cons] at hwf
      rw [List.forall_mem_append, List.forall_mem_cons]
      exact ⟨hwf.1, hform, hwf.2.2⟩
    have hparse := parse_eq_ofOperations hwf'
    refine ⟨_, _, ⟨hparse, ?_⟩, fun hbytes => ?_⟩
    · rw [contents, contents, operations_ofOperations, hsplit, List.map_append, List.map_append]
      rfl
    · rw [hbytes, h] at hparse
      cases hparse
      rw [operations_ofOperations] at hsplit
      cases List.append_cancel_left hsplit
      exact hlead rfl

/-! ## What recognition says about the forms -/

/-- A script that is recognised as paying to a hash has all its pushes in the shortest form, and no other writing
of it is recognised as the same. A script that is recognised by its keys is recognised with the same terms however
it is written, and it has another writing exactly if one of its payloads is shorter than 2^16 bytes. Only among
scripts with all pushes in the shortest form do the contents fix the bytes. -/
theorem push_forms_of_templates (h : parse bytes = .ok s) :
    (s.kind = .p2pkh ∨ s.kind = .p2sh →
      (∀ op ∈ s.operations, op.Shortest) ∧
        ∀ bytes' other, Writing s bytes' other → other.kind = s.kind → bytes' = bytes) ∧
      (s.kind = .p2pk ∨ s.kind = .multisig →
        (∀ bytes' other, Writing s bytes' other → other.kind = s.kind ∧ other.multisig? = s.multisig?) ∧
          ((∃ bytes' other, Writing s bytes' other ∧ bytes' ≠ bytes) ↔
            ∃ payload, .inr payload ∈ s.contents ∧ payload.length < 2 ^ 16)) ∧
      ∀ bytes' other, Writing s bytes' other → (∀ op ∈ s.operations, op.Shortest) →
        (∀ op ∈ other.operations, op.Shortest) → bytes' = bytes := by
  refine ⟨fun hkind => ?_, fun hkind => ?_, fun bytes' other hw => hw.eq_of_shortest h⟩
  · have hs := shortest_of_kind h hkind
    refine ⟨hs, fun bytes' other hw hsame => hw.eq_of_shortest h hs ?_⟩
    rw [← hsame] at hkind
    exact shortest_of_kind hw.parses hkind
  · exact ⟨fun bytes' other hw => ⟨hw.kind_eq h hkind, hw.multisig?_eq h⟩, exists_other_writing_iff h⟩

/-- The output of a hash has one writing; a script with two keys has others, and all of them show the same
terms. -/
theorem push_forms_of_templates_of_two_keys :
    let hash : Hash160 := ⟨List.replicate 20 0x07, rfl⟩
    let output := ofDecoded (place 0 (Output.p2shOps hash)) (Output.p2sh hash)
    let keys := ofOperations
      [.opcode 0x51, .push 0x01 [0xaa], .push 0x4d [0xbb], .opcode 0x52, .opcode Op.checkMultisig]
    (∀ bytes' other, Writing output bytes' other → other.kind = .p2sh → bytes' = Output.p2sh hash) ∧
      parse [0x51, 0x01, 0xaa, 0x4d, 0x01, 0x00, 0xbb, 0x52, 0xae] = .ok keys ∧
      (∀ bytes' other, Writing keys bytes' other → other.multisig? = some ⟨1, [⟨[0xaa]⟩, ⟨[0xbb]⟩]⟩) ∧
      ∃ bytes' other, Writing keys bytes' other ∧
        bytes' ≠ [0x51, 0x01, 0xaa, 0x4d, 0x01, 0x00, 0xbb, 0x52, 0xae] := by
  intro hash output keys
  have houtput : output.kind = .p2sh := by decide +kernel
  obtain ⟨hhash, -⟩ := push_forms_of_templates (parse_p2sh hash)
  have hwf : ∀ op ∈ keys.operations, op.WellFormed := by decide
  have hparse : parse [0x51, 0x01, 0xaa, 0x4d, 0x01, 0x00, 0xbb, 0x52, 0xae] = .ok keys := parse_eq_ofOperations hwf
  have hkeys : keys.kind = .multisig := by decide +kernel
  obtain ⟨-, hforms, -⟩ := push_forms_of_templates hparse
  obtain ⟨hsame, hother⟩ := hforms (.inr hkeys)
  refine ⟨fun bytes' other hw hkind => ?_, hparse, fun bytes' other hw => ?_, hother.2 ⟨[0xaa], ?_, by decide⟩⟩
  · exact (hhash (.inr houtput)).2 bytes' other hw (hkind.trans houtput.symm)
  · exact (hsame bytes' other hw).2
  · exact .tail _ (.head _)

/-- One key behind a length field is pushed in a longer form than it needs, and still the output is recognised as
the same template as in the shortest form, alone and as the terms of a multisignature script. -/
theorem longer_push_of_key_recognised :
    let key (lead : UInt8) := ofOperations [.push lead [0xaa, 0xbb], .opcode Op.checkSig]
    let terms (lead : UInt8) :=
      ofOperations [.opcode 0x51, .push lead [0xaa, 0xbb], .opcode 0x51, .opcode Op.checkMultisig]
    (parse [0x4c, 0x02, 0xaa, 0xbb, 0xac] = .ok (key 0x4c) ∧ Writing (key 0x4c) [0x02, 0xaa, 0xbb, 0xac] (key 0x02) ∧
        (key 0x4c).kind = .p2pk ∧ (key 0x02).kind = .p2pk ∧ ¬ ∀ op ∈ (key 0x4c).operations, op.Shortest) ∧
      parse [0x51, 0x4c, 0x02, 0xaa, 0xbb, 0x51, 0xae] = .ok (terms 0x4c) ∧
        Writing (terms 0x4c) [0x51, 0x02, 0xaa, 0xbb, 0x51, 0xae] (terms 0x02) ∧
        (terms 0x4c).kind = .multisig ∧ (terms 0x02).kind = .multisig ∧
        (terms 0x4c).multisig? = (terms 0x02).multisig? ∧ ¬ ∀ op ∈ (terms 0x4c).operations, op.Shortest := by
  intro key terms
  have hkey : ∀ op ∈ (key 0x4c).operations, op.WellFormed := by decide
  have hkey' : ∀ op ∈ (key 0x02).operations, op.WellFormed := by decide
  have hterms : ∀ op ∈ (terms 0x4c).operations, op.WellFormed := by decide
  have hterms' : ∀ op ∈ (terms 0x02).operations, op.WellFormed := by decide
  refine ⟨⟨parse_eq_ofOperations hkey, ⟨parse_eq_ofOperations hkey', rfl⟩, ?_⟩, parse_eq_ofOperations hterms,
    ⟨parse_eq_ofOperations hterms', rfl⟩, ?_⟩
  · decide +kernel
  · decide +kernel

end Script

end CoinScript
