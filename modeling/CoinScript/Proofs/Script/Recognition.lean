/-
Two ways to recognise an output agree. The hash templates are recognised in raw bytes by position and
in a script by its chunks; on bytes that parse both find the same templates and the same hash, and on
bytes that do not parse neither template is found. The first operation of a script tells which shape
it can have, so no script has two shapes and the order in which shapes are tried does not matter.
-/
import CoinScript.Proofs.Script.Multisig
import Mathlib.Data.List.Find

namespace CoinScript

/-! ## Templates by position -/

namespace Output

variable {script : Bytes}

/-- A byte string with the right bytes before and after twenty others has a hash between them. -/
theorem exists_hash_iff (before after : Bytes) :
    (script.length = before.length + 20 + after.length ∧ script.take before.length = before ∧
        script.drop (before.length + 20) = after) ↔
      ∃ hash : Hash160, script = before ++ hash.bytes ++ after := by
  constructor
  · rintro ⟨hlen, hbefore, hafter⟩
    have hpart : ((script.drop before.length).take 20).length = 20 := by
      rw [List.length_take, List.length_drop]
      omega
    refine ⟨⟨(script.drop before.length).take 20, hpart⟩, ?_⟩
    have hrest := List.take_append_drop 20 (script.drop before.length)
    rw [List.drop_drop, hafter] at hrest
    calc script = script.take before.length ++ script.drop before.length := (List.take_append_drop _ _).symm
      _ = before ++ ((script.drop before.length).take 20 ++ after) := by rw [hbefore, hrest]
      _ = before ++ (script.drop before.length).take 20 ++ after := (List.append_assoc _ _ _).symm
  · rintro ⟨hash, rfl⟩
    have hlen := Digest.length_bytes hash
    refine ⟨by simp [hlen]; omega, by simp, ?_⟩
    exact List.drop_left' (by rw [List.length_append, hlen])

/-- The hash between them is read back. -/
theorem ofBytes?_slice (before after : Bytes) (hash : Hash160) :
    Digest.ofBytes? 20 (((before ++ hash.bytes ++ after).drop before.length).take 20) = some hash := by
  have hlen := Digest.length_bytes hash
  rw [List.append_assoc, List.drop_left, List.take_left' hlen]
  exact Digest.ofBytes?_bytes hash

theorem isP2pkh_iff : isP2pkh script = true ↔ ∃ hash, script = p2pkh hash := by
  simp only [isP2pkh, Bool.and_eq_true, beq_iff_eq, and_assoc]
  exact exists_hash_iff [Op.dup, Op.hash160, hashLead] [Op.equalVerify, Op.checkSig]

theorem isP2sh_iff : isP2sh script = true ↔ ∃ hash, script = p2sh hash := by
  simp only [isP2sh, Bool.and_eq_true, beq_iff_eq, and_assoc]
  exact exists_hash_iff [Op.hash160, hashLead] [Op.equal]

theorem p2pkhHash?_p2pkh (hash : Hash160) : p2pkhHash? (p2pkh hash) = some hash := by
  rw [p2pkhHash?, if_pos (isP2pkh_iff.2 ⟨hash, rfl⟩)]
  exact ofBytes?_slice [Op.dup, Op.hash160, hashLead] [Op.equalVerify, Op.checkSig] hash

theorem p2shHash?_p2sh (hash : Hash160) : p2shHash? (p2sh hash) = some hash := by
  rw [p2shHash?, if_pos (isP2sh_iff.2 ⟨hash, rfl⟩)]
  exact ofBytes?_slice [Op.hash160, hashLead] [Op.equal] hash

end Output

/-! ## Templates by chunks -/

namespace Operation

theorem asOpcode_eq_iff {op : Operation} {byte : UInt8} (h : byte ≠ Op.invalid) :
    op.asOpcode = byte ↔ op = .opcode byte := by
  cases op with
  | opcode b => simp [asOpcode]
  | push lead payload => simp [asOpcode, h.symm]

/-- A push of twenty bytes that takes one byte more is the direct one. -/
theorem exists_hashPush_iff {op : Operation} (hwf : op.WellFormed) :
    (op.payload?.any (fun payload => payload.length == 20) = true ∧ op.size = 21) ↔
      ∃ hash : Hash160, op = .push Output.hashLead hash.bytes := by
  constructor
  · rintro ⟨hpayload, hsize⟩
    cases op with
    | opcode b => cases hpayload
    | push lead payload =>
      have hlen : payload.length = 20 := by simpa [payload?] using hpayload
      have hwidth : fieldWidth lead = 0 := by
        simp only [size] at hsize
        omega
      have hdirect : Op.isPushDataLead lead = false := by
        -- a byte with a length field would make the push longer
        by_contra hlead
        simp only [Bool.not_eq_false, Op.isPushDataLead, Bool.or_eq_true, beq_iff_eq] at hlead
        rcases hlead with (rfl | rfl) | rfl <;> exact absurd hwidth (by decide)
      obtain ⟨-, hlead⟩ := (wellFormed_push_of_direct hdirect payload).1 hwf
      rw [hlen] at hlead
      have hlead : lead = Output.hashLead := UInt8.toNat_inj.1 hlead
      exact ⟨⟨payload, hlen⟩, by rw [hlead]; rfl⟩
  · rintro ⟨hash, rfl⟩
    have hlen := Digest.length_bytes hash
    exact ⟨by simp [payload?, hlen], Output.size_hashPush hash⟩

end Operation

namespace Chunk

theorem isOp_iff {c : Chunk} {byte : UInt8} (h : byte ≠ Op.invalid) :
    c.isOp byte = true ↔ c.operation = .opcode byte := by
  rw [isOp, beq_iff_eq, Operation.asOpcode_eq_iff h]

theorem isHashPush_iff {c : Chunk} (hwf : c.operation.WellFormed) :
    c.isHashPush = true ↔ ∃ hash : Hash160, c.operation = .push Output.hashLead hash.bytes := by
  rw [isHashPush, Bool.and_eq_true, beq_iff_eq, Operation.exists_hashPush_iff hwf]

end Chunk

namespace Script

variable {bytes : Bytes} {s : Script}

theorem wellFormed_of_parse (h : parse bytes = .ok s) : ∀ c ∈ s.chunks, c.operation.WellFormed := by
  obtain ⟨chunks, hchunks, rfl⟩ := parse_eq_ok_iff.1 h
  exact (decodeAll_eq_ok_iff.1 hchunks).1.1

theorem serialize_of_parse (h : parse bytes = .ok s) : serialize s.chunks = bytes := by
  obtain ⟨chunks, hchunks, rfl⟩ := parse_eq_ok_iff.1 h
  exact serialize_of_decodeAll hchunks

/-- A parsed script holds no terms, so its chunks spell those that it shows. -/
theorem multisig?_of_parse (h : parse bytes = .ok s) : s.multisig? = Multisig.ofChunks? s.chunks := by
  obtain ⟨chunks, -, rfl⟩ := parse_eq_ok_iff.1 h
  rfl

/-- A script has given operations exactly if its bytes are theirs. -/
theorem operations_eq_iff_of_parse (h : parse bytes = .ok s) {ops : List Operation}
    (hops : ∀ op ∈ ops, op.WellFormed) :
    s.chunks.map Chunk.operation = ops ↔ bytes = ops.flatMap Operation.bytes := by
  constructor
  · intro heq
    rw [← heq, ← serialize_eq_flatMap, serialize_of_parse h]
  · rintro rfl
    rw [parse_flatMap_bytes hops] at h
    cases h
    exact map_operation_place 0 ops

/-- The chunks of a script that pays to the hash of a key do what the template does. -/
theorem isPayToPublicKeyHash_iff (hwf : ∀ c ∈ s.chunks, c.operation.WellFormed) :
    s.isPayToPublicKeyHash = true ↔ ∃ hash, s.chunks.map Chunk.operation = Output.p2pkhOps hash := by
  unfold isPayToPublicKeyHash
  constructor
  · intro h
    split at h
    · next dup hash160 push equalVerify check hchunks =>
      have hpush : push.operation.WellFormed := hwf push (by simp [hchunks])
      simp only [Bool.and_eq_true, Chunk.isHashPush_iff hpush] at h
      obtain ⟨⟨⟨⟨hdup, hhash160⟩, hash, hhash⟩, hequal⟩, hcheck⟩ := h
      rw [Chunk.isOp_iff (by decide)] at hdup hhash160 hequal hcheck
      exact ⟨hash, by simp [Output.p2pkhOps, *]⟩
    · cases h
  · rintro ⟨hash, hops⟩
    simp only [Output.p2pkhOps, List.map_eq_cons_iff, List.map_eq_nil_iff] at hops
    obtain ⟨dup, _, hchunks, hdup, hash160, _, rfl, hhash160, push, _, rfl, hpush, equalVerify, _, rfl,
      hequal, check, _, rfl, hcheck, rfl⟩ := hops
    have hwfPush : push.operation.WellFormed := hwf push (by simp [hchunks])
    rw [hchunks]
    simp only [Bool.and_eq_true, Chunk.isHashPush_iff hwfPush]
    rw [Chunk.isOp_iff (by decide), Chunk.isOp_iff (by decide), Chunk.isOp_iff (by decide),
      Chunk.isOp_iff (by decide)]
    exact ⟨⟨⟨⟨hdup, hhash160⟩, hash, hpush⟩, hequal⟩, hcheck⟩

theorem isPayToScriptHash_iff (hwf : ∀ c ∈ s.chunks, c.operation.WellFormed) :
    s.isPayToScriptHash = true ↔ ∃ hash, s.chunks.map Chunk.operation = Output.p2shOps hash := by
  unfold isPayToScriptHash endsWithPayToScriptHash
  constructor
  · intro h
    simp only [Bool.and_eq_true, beq_iff_eq] at h
    obtain ⟨hlen, h⟩ := h
    rw [hlen, Nat.sub_self, List.drop_zero] at h
    split at h
    · next hash160 push equal hchunks =>
      have hpush : push.operation.WellFormed := hwf push (by simp [hchunks])
      simp only [Bool.and_eq_true, Chunk.isHashPush_iff hpush] at h
      obtain ⟨⟨hhash160, hash, hhash⟩, hequal⟩ := h
      rw [Chunk.isOp_iff (by decide)] at hhash160 hequal
      exact ⟨hash, by simp [Output.p2shOps, *]⟩
    · cases h
  · rintro ⟨hash, hops⟩
    simp only [Output.p2shOps, List.map_eq_cons_iff, List.map_eq_nil_iff] at hops
    obtain ⟨hash160, _, hchunks, hhash160, push, _, rfl, hpush, equal, _, rfl, hequal, rfl⟩ := hops
    have hwfPush : push.operation.WellFormed := hwf push (by simp [hchunks])
    rw [hchunks]
    simp only [List.length_cons, List.length_nil, Nat.zero_add, Nat.reduceAdd, beq_self_eq_true,
      Nat.sub_self, List.drop_zero, Bool.and_eq_true, Chunk.isHashPush_iff hwfPush, true_and]
    rw [Chunk.isOp_iff (by decide), Chunk.isOp_iff (by decide)]
    exact ⟨⟨hhash160, hash, hpush⟩, hequal⟩

/-! ## One shape at most -/

/-- The script has the shape of a kind; no shape makes a script unknown. -/
def hasShape (s : Script) : ScriptKind → Bool
  | .p2pk => s.isPayToPublicKey
  | .p2pkh => s.isPayToPublicKeyHash
  | .p2sh => s.isPayToScriptHash
  | .multisig => s.isMultisig
  | .nullData => s.isNullData
  | .unknown => false

/-- The kinds that have a shape, in the order in which the shapes are tried. -/
def shapes : List ScriptKind := [.p2pkh, .p2sh, .p2pk, .multisig, .nullData]

theorem kind_eq_find? (s : Script) : s.kind = (shapes.find? s.hasShape).getD .unknown := by
  simp only [kind, shapes, List.find?_cons, List.find?_nil, hasShape]
  -- both sides ask the same five questions
  cases s.isPayToPublicKeyHash <;> cases s.isPayToScriptHash <;> cases s.isPayToPublicKey <;>
    cases s.isMultisig <;> cases s.isNullData <;> rfl

/-- The shape that is left to a script by its first operation. -/
def shapeOfFirst : Option Operation → ScriptKind
  | none => .unknown
  | some (.push _ _) => .p2pk
  | some (.opcode op) =>
    if op = Op.dup then .p2pkh else if op = Op.hash160 then .p2sh else if op = Op.ret then .nullData
    else .multisig

theorem isNullData_iff : s.isNullData = true ↔ (s.chunks.map Chunk.operation).head? = some (.opcode Op.ret) := by
  rw [isNullData, List.head?_map]
  cases s.chunks.head? with
  | none => simp
  | some c => simp [Chunk.isOp_iff (c := c) (show Op.ret ≠ Op.invalid by decide)]

/-- A shape that a parsed script has is the one that its first operation leaves to it. -/
theorem eq_shapeOfFirst_of_hasShape (h : parse bytes = .ok s) {k : ScriptKind} (hk : s.hasShape k = true) :
    k = shapeOfFirst (s.chunks.map Chunk.operation).head? := by
  have hwf := wellFormed_of_parse h
  cases k with
  | p2pk =>
    simp only [hasShape, isPayToPublicKey] at hk
    split at hk
    · next lead payload span check hchunks => rw [hchunks]; rfl
    · cases hk
  | p2pkh =>
    obtain ⟨hash, hops⟩ := (isPayToPublicKeyHash_iff hwf).1 hk
    rw [hops]
    rfl
  | p2sh =>
    obtain ⟨hash, hops⟩ := (isPayToScriptHash_iff hwf).1 hk
    rw [hops]
    rfl
  | multisig =>
    simp only [hasShape, isMultisig, multisig?_of_parse h] at hk
    obtain ⟨terms, hterms⟩ := Option.isSome_iff_exists.1 hk
    obtain ⟨requiredOp, countOp, keyOps, hops, hrequired, -⟩ := Multisig.ofChunks?_eq_some_iff.1 hterms
    have hne : ∀ op, Op.toSmallInt? op = none → requiredOp ≠ op := by
      rintro op hop rfl
      rw [hrequired] at hop
      cases hop
    rw [hops, List.head?_cons, shapeOfFirst, if_neg (hne _ (by decide)), if_neg (hne _ (by decide)),
      if_neg (hne _ (by decide))]
  | nullData =>
    rw [isNullData_iff.1 hk]
    rfl
  | unknown => cases hk

theorem eq_of_hasShape (h : parse bytes = .ok s) {k k' : ScriptKind} (hk : s.hasShape k = true)
    (hk' : s.hasShape k' = true) : k = k' := by
  rw [eq_shapeOfFirst_of_hasShape h hk, eq_shapeOfFirst_of_hasShape h hk']

/-- In whatever order the shapes are tried, the kind is the first that fits. -/
theorem find?_of_perm_shapes (h : parse bytes = .ok s) {order : List ScriptKind} (horder : order.Perm shapes) :
    (order.find? s.hasShape).getD .unknown = s.kind := by
  rw [kind_eq_find?, List.find?_eq_find?_of_perm horder fun k hk k' hk' => eq_of_hasShape h hk.2 hk'.2]

theorem kind_eq_of_hasShape (h : parse bytes = .ok s) {k : ScriptKind} (hk : s.hasShape k = true) :
    s.kind = k := by
  rw [kind_eq_find?]
  cases hfind : shapes.find? s.hasShape with
  | none =>
    rw [List.find?_eq_none] at hfind
    have hmem : k ∈ shapes := by cases k <;> first | decide | cases hk
    exact absurd hk (hfind k hmem)
  | some k' => exact eq_of_hasShape h (List.find?_some hfind) hk

theorem hasShape_of_kind_eq {k : ScriptKind} (h : s.kind = k) (hk : k ≠ .unknown) : s.hasShape k = true := by
  rw [kind_eq_find?] at h
  cases hfind : shapes.find? s.hasShape with
  | none => rw [hfind] at h; exact absurd h.symm hk
  | some k' =>
    rw [hfind, Option.getD_some] at h
    exact h ▸ List.find?_some hfind

theorem isStandard_eq_isStandard_kind (s : Script) : s.isStandard = s.kind.isStandard := by
  simp only [isStandard, kind]
  cases s.isPayToPublicKeyHash <;> cases s.isPayToScriptHash <;> cases s.isPayToPublicKey <;>
    cases s.isMultisig <;> cases s.isNullData <;> rfl

end Script

/-! ## Both ways agree -/

namespace Output

variable {bytes : Bytes} {s : Script}

theorem isP2pkh_eq_of_parse (h : Script.parse bytes = .ok s) : isP2pkh bytes = s.isPayToPublicKeyHash := by
  rw [Bool.eq_iff_iff, isP2pkh_iff, Script.isPayToPublicKeyHash_iff (Script.wellFormed_of_parse h)]
  exact exists_congr fun hash =>
    (Script.operations_eq_iff_of_parse h (wellFormed_p2pkhOps hash)).symm

theorem isP2sh_eq_of_parse (h : Script.parse bytes = .ok s) : isP2sh bytes = s.isPayToScriptHash := by
  rw [Bool.eq_iff_iff, isP2sh_iff, Script.isPayToScriptHash_iff (Script.wellFormed_of_parse h)]
  exact exists_congr fun hash =>
    (Script.operations_eq_iff_of_parse h (wellFormed_p2shOps hash)).symm

theorem isP2pkh_of_parse_error {cause : CodecError} (h : Script.parse bytes = .error cause) :
    isP2pkh bytes = false := by
  by_contra hshape
  obtain ⟨hash, rfl⟩ := isP2pkh_iff.1 (Bool.eq_true_of_not_eq_false hshape)
  rw [Script.parse_p2pkh] at h
  cases h

theorem isP2sh_of_parse_error {cause : CodecError} (h : Script.parse bytes = .error cause) :
    isP2sh bytes = false := by
  by_contra hshape
  obtain ⟨hash, rfl⟩ := isP2sh_iff.1 (Bool.eq_true_of_not_eq_false hshape)
  rw [Script.parse_p2sh] at h
  cases h

/-- A script whose first byte gives up starts with that operation: no push has such a lead byte. -/
theorem isNullData_of_head? (h : Script.parse bytes = .ok s) (hhead : bytes.head? = some Op.ret) :
    s.isNullData = true := by
  have hwf := Script.wellFormed_of_parse h
  rw [← Script.serialize_of_parse h] at hhead
  rw [Script.isNullData_iff]
  cases hchunks : s.chunks with
  | nil => rw [hchunks] at hhead; cases hhead
  | cons c rest =>
    rw [hchunks, serialize_cons] at hhead
    cases hop : c.operation with
    | opcode op =>
      rw [hop] at hhead
      cases hhead
      simp [hop]
    | push lead payload =>
      have hlead := hwf c (by simp [hchunks])
      rw [hop] at hhead hlead
      cases hhead
      exact absurd hlead (by simp [Operation.WellFormed, Op.ret, Op.directMax, Op.pushData1, Op.pushData2,
        Op.pushData4])

theorem classify_eq_kind (h : Script.parse bytes = .ok s) : classify bytes = s.kind := by
  rw [classify, isP2pkh_eq_of_parse h, isP2sh_eq_of_parse h, h]
  split
  · next hshape => exact (Script.kind_eq_of_hasShape h (k := .p2pkh) hshape).symm
  · split
    · next hshape => exact (Script.kind_eq_of_hasShape h (k := .p2sh) hshape).symm
    · split
      · next hhead => exact (Script.kind_eq_of_hasShape h (k := .nullData) (isNullData_of_head? h hhead)).symm
      · rfl

/-- The hash that is read by position is the one that the script pushes. -/
theorem p2pkhHash?_spec (h : Script.parse bytes = .ok s) :
    (p2pkhHash? bytes).isSome = s.isPayToPublicKeyHash ∧
      ∀ hash, p2pkhHash? bytes = some hash → s.pushedDataAt 2 = .ok (some hash.bytes) := by
  rw [← isP2pkh_eq_of_parse h]
  by_cases hshape : isP2pkh bytes = true
  · obtain ⟨hash, rfl⟩ := isP2pkh_iff.1 hshape
    rw [Script.parse_p2pkh] at h
    cases h
    rw [p2pkhHash?_p2pkh, hshape]
    refine ⟨rfl, fun hash' heq => ?_⟩
    cases heq
    rfl
  · rw [p2pkhHash?, if_neg hshape]
    exact ⟨by simpa using hshape, fun _ heq => by cases heq⟩

theorem p2shHash?_spec (h : Script.parse bytes = .ok s) :
    (p2shHash? bytes).isSome = s.isPayToScriptHash ∧
      ∀ hash, p2shHash? bytes = some hash → s.pushedDataAt 1 = .ok (some hash.bytes) := by
  rw [← isP2sh_eq_of_parse h]
  by_cases hshape : isP2sh bytes = true
  · obtain ⟨hash, rfl⟩ := isP2sh_iff.1 hshape
    rw [Script.parse_p2sh] at h
    cases h
    rw [p2shHash?_p2sh, hshape]
    refine ⟨rfl, fun hash' heq => ?_⟩
    cases heq
    rfl
  · rw [p2shHash?, if_neg hshape]
    exact ⟨by simpa using hshape, fun _ heq => by cases heq⟩

/-- Recognition by position agrees with recognition by chunks. On bytes that parse, the kind, the two
hash templates and their hashes are those of the parsed script, which has at most one shape, so that
trying the shapes in any order gives its kind, and which is standard exactly if its kind is. On bytes
that do not parse there is no template, and only a first byte that gives up makes them more than
unknown. -/
theorem position_agrees_with_chunks (bytes : Bytes) :
    match Script.parse bytes with
    | .ok s =>
      classify bytes = s.kind ∧ isP2pkh bytes = s.isPayToPublicKeyHash ∧ isP2sh bytes = s.isPayToScriptHash ∧
        ((p2pkhHash? bytes).isSome = s.isPayToPublicKeyHash ∧
          ∀ hash, p2pkhHash? bytes = some hash → s.pushedDataAt 2 = .ok (some hash.bytes)) ∧
        ((p2shHash? bytes).isSome = s.isPayToScriptHash ∧
          ∀ hash, p2shHash? bytes = some hash → s.pushedDataAt 1 = .ok (some hash.bytes)) ∧
        (∀ k k', s.hasShape k = true → s.hasShape k' = true → k = k') ∧
        (∀ order : List ScriptKind, order.Perm Script.shapes →
          (order.find? s.hasShape).getD .unknown = s.kind) ∧
        s.isStandard = s.kind.isStandard
    | .error _ =>
      isP2pkh bytes = false ∧ isP2sh bytes = false ∧ p2pkhHash? bytes = none ∧ p2shHash? bytes = none ∧
        classify bytes = if bytes.head? = some Op.ret then .nullData else .unknown := by
  cases h : Script.parse bytes with
  | ok s =>
    exact ⟨classify_eq_kind h, isP2pkh_eq_of_parse h, isP2sh_eq_of_parse h, p2pkhHash?_spec h,
      p2shHash?_spec h, fun _ _ => Script.eq_of_hasShape h, fun _ => Script.find?_of_perm_shapes h,
      s.isStandard_eq_isStandard_kind⟩
  | error cause =>
    have hp2pkh := isP2pkh_of_parse_error h
    have hp2sh := isP2sh_of_parse_error h
    refine ⟨hp2pkh, hp2sh, by simp [p2pkhHash?, hp2pkh], by simp [p2shHash?, hp2sh], ?_⟩
    rw [classify, hp2pkh, hp2sh, h]
    rfl

end Output

end CoinScript
