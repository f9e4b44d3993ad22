/-
The grammar of multisignature scripts. Terms are read off exactly the chunks "required number, keys,
number of keys, check" in which both numbers are small integers, every key is a push and no more
keys are required than there are. A script built from terms has these chunks when no key is empty;
an empty key is pushed by an opcode, so a script with one spells no terms.
-/
import CoinScript.Proofs.Codec.Push
import CoinScript.Proofs.Script.Template
import Mathlib.Data.List.Basic
import Mathlib.Data.Option.Basic

namespace CoinScript

namespace Op

theorem toSmallInt?_bounds {op : UInt8} {n : Nat} (h : toSmallInt? op = some n) : 1 ≤ n ∧ n ≤ 16 := by
  unfold toSmallInt? at h
  split at h
  · next hop =>
    cases h
    have hone : one.toNat = 81 := rfl
    have hsixteen : sixteen.toNat = 96 := rfl
    have := UInt8.le_iff_toNat_le.1 hop.2
    omega
  · cases h

/-- The opcode of a number from 1 to 16 stands so many places behind 0x50. -/
theorem toSmallInt?_eq_some_iff {op : UInt8} {n : Nat} :
    toSmallInt? op = some n ↔ (1 ≤ n ∧ n ≤ 16) ∧ op = UInt8.ofNat (0x50 + n) := by
  constructor
  · intro h
    refine ⟨toSmallInt?_bounds h, ?_⟩
    unfold toSmallInt? at h
    split at h
    · next hop =>
      cases h
      have hone : one.toNat ≤ op.toNat := UInt8.le_iff_toNat_le.1 hop.1
      have hplace : 0x50 + (op.toNat - one.toNat + 1) = op.toNat := by
        have hbyte : one.toNat = 0x51 := rfl
        omega
      rw [hplace, UInt8.ofNat_toNat]
    · cases h
  · rintro ⟨⟨hone, hsixteen⟩, rfl⟩
    have hall : ∀ n ≤ 16, 1 ≤ n → toSmallInt? (UInt8.ofNat (0x50 + n)) = some n := by decide
    exact hall n hsixteen hone

theorem ofSmallInt?_eq_some_iff {n : Nat} {op : UInt8} :
    ofSmallInt? n = some op ↔ (1 ≤ n ∧ n ≤ 16) ∧ op = UInt8.ofNat (one.toNat + (n - 1)) := by
  unfold ofSmallInt?
  split
  · next h => simp [h, eq_comm]
  · next h => simp [h]

theorem wellFormed_of_ofSmallInt? {n : Nat} {op : UInt8} (h : ofSmallInt? n = some op) :
    (Operation.opcode op).WellFormed := by
  obtain ⟨hn, rfl⟩ := ofSmallInt?_eq_some_iff.1 h
  have hall : ∀ n ≤ 16, 1 ≤ n → (Operation.opcode (UInt8.ofNat (one.toNat + (n - 1)))).WellFormed := by
    decide
  exact hall n hn.2 hn.1

end Op

namespace Multisig

/-! ## The grammar -/

/-- The operations ask for `required` of keys: a small integer, the pushes of the keys, their number
and the check. -/
def Spelt (terms : Multisig) (ops : List Operation) : Prop :=
  ∃ requiredOp countOp keyOps,
    ops = .opcode requiredOp :: (keyOps ++ [.opcode countOp, .opcode Op.checkMultisig]) ∧
    Op.toSmallInt? requiredOp = some terms.required ∧ Op.toSmallInt? countOp = some keyOps.length ∧
    terms.required ≤ keyOps.length ∧
    keyOps.map Operation.payload? = terms.keys.map fun key => some key.bytes

/-- Terms that are spelt out require at least one key and no more than there are, at most sixteen,
and each key has an operation of its own beside three others. -/
theorem Spelt.bounds {terms : Multisig} {ops : List Operation} (h : terms.Spelt ops) :
    1 ≤ terms.required ∧ terms.required ≤ terms.keys.length ∧ terms.keys.length ≤ 16 ∧
      ops.length = terms.keys.length + 3 := by
  obtain ⟨requiredOp, countOp, keyOps, rfl, hrequired, hcount, hle, hkeys⟩ := h
  have hlen : keyOps.length = terms.keys.length := by simpa using congrArg List.length hkeys
  have hone := (Op.toSmallInt?_bounds hrequired).1
  have hsixteen := (Op.toSmallInt?_bounds hcount).2
  refine ⟨hone, by omega, by omega, ?_⟩
  simp [hlen]

theorem eq_opcode_of_toSmallInt? {op : Operation} {n : Nat} (h : Op.toSmallInt? op.asOpcode = some n) :
    ∃ byte, op = .opcode byte ∧ Op.toSmallInt? byte = some n := by
  cases op with
  | opcode byte => exact ⟨byte, rfl, h⟩
  | push lead payload =>
    have hnone : Op.toSmallInt? Op.invalid = none := by decide
    rw [Operation.asOpcode, hnone] at h
    cases h

theorem asOpcode_eq_checkMultisig_iff {op : Operation} :
    op.asOpcode = Op.checkMultisig ↔ op = .opcode Op.checkMultisig := by
  cases op with
  | opcode byte => simp [Operation.asOpcode]
  | push lead payload => simp [Operation.asOpcode, Op.invalid, Op.checkMultisig]

theorem mapM_eq_some_iff {α β : Type} {f : α → Option β} {l : List α} {values : List β} :
    l.mapM f = some values ↔ l.map f = values.map some := by
  induction l generalizing values with
  | nil => cases values <;> simp
  | cons a l ih =>
    rw [List.mapM_cons, List.map_cons]
    simp only [Option.bind_eq_bind, Option.bind_eq_some_iff, Option.pure_def, Option.some.injEq, ih]
    constructor
    · rintro ⟨b, hb, rest, hrest, rfl⟩
      rw [hb, hrest, List.map_cons]
    · intro h
      cases values with
      | nil => cases h
      | cons b rest =>
        obtain ⟨hb, hrest⟩ := List.cons.inj h
        exact ⟨b, hb, rest, hrest, rfl⟩

theorem exists_frame {chunks : List Chunk} (h : 3 ≤ chunks.length) :
    ∃ first middle count check, chunks = first :: (middle ++ [count, check]) := by
  obtain ⟨first, rest, rfl⟩ := List.exists_cons_of_length_pos (l := chunks) (by omega)
  have hlen : (rest.drop (rest.length - 2)).length = 2 := by
    simp only [List.length_cons] at h
    rw [List.length_drop]
    omega
  obtain ⟨count, check, hlast⟩ := List.length_eq_two.1 hlen
  exact ⟨first, rest.take (rest.length - 2), count, check, by rw [← hlast, List.take_append_drop]⟩

theorem four_le_of_ofChunks? {chunks : List Chunk} {terms : Multisig} (h : ofChunks? chunks = some terms) :
    4 ≤ chunks.length := by
  simp only [ofChunks?, Option.bind_eq_bind, Option.bind_eq_some_iff, Option.guard_eq_some'] at h
  obtain ⟨-, -, -, -, -, -, -, hlen, -⟩ := h
  exact hlen

theorem ofChunks?_frame {first count check : Chunk} {middle : List Chunk} {terms : Multisig} :
    ofChunks? (first :: (middle ++ [count, check])) = some terms ↔
      check.operation.asOpcode = Op.checkMultisig ∧
      Op.toSmallInt? first.operation.asOpcode = some terms.required ∧
      Op.toSmallInt? count.operation.asOpcode = some middle.length ∧
      terms.required ≤ middle.length ∧
      (middle.map Chunk.operation).map Operation.payload? = terms.keys.map fun key => some key.bytes := by
  have hlast : (first :: (middle ++ [count, check])).getLast? = some check := by
    rw [← List.cons_append, List.getLast?_append]; rfl
  have hbefore : (first :: (middle ++ [count, check]))[(first :: (middle ++ [count, check])).length - 2]? =
      some count := by simp
  have hlen : (first :: (middle ++ [count, check])).length = middle.length + 3 := by simp
  have hmiddle : ((first :: (middle ++ [count, check])).drop 1).take middle.length = middle := by simp
  rw [ofChunks?, hlast, hbefore]
  simp only [List.head?_cons, Option.bind_eq_bind, Option.bind_some, Option.bind_eq_some_iff,
    Option.guard_eq_some', mapM_eq_some_iff, hlen, Option.pure_def, Option.some.injEq, exists_and_left,
    exists_const]
  constructor
  -- the number of keys that is written is the number of chunks in the middle
  · rintro ⟨-, hcheck, required, hrequired, n, hcount, hle, hn, payloads, hpayloads, rfl⟩
    have hn : middle.length = n := by omega
    subst hn
    rw [hmiddle] at hpayloads
    refine ⟨hcheck, hrequired, hcount, hle, ?_⟩
    rw [List.map_map, List.map_map]
    exact hpayloads
  · rintro ⟨hcheck, hrequired, hcount, hle, hkeys⟩
    have hone := (Op.toSmallInt?_bounds hrequired).1
    refine ⟨by omega, hcheck, terms.required, hrequired, middle.length, hcount, hle, rfl,
      terms.keys.map PublicKey.bytes, ?_, ?_⟩
    · rw [List.map_map] at hkeys
      rw [hmiddle, List.map_map]
      exact hkeys
    · rw [List.map_map]
      exact congrArg (Multisig.mk _) (List.map_id terms.keys)

/-- Terms are read off exactly the chunks that spell them. -/
theorem ofChunks?_eq_some_iff {chunks : List Chunk} {terms : Multisig} :
    ofChunks? chunks = some terms ↔ terms.Spelt (chunks.map Chunk.operation) := by
  constructor
  · intro h
    have hlen : 3 ≤ chunks.length := Nat.le_of_succ_le (four_le_of_ofChunks? h)
    obtain ⟨first, middle, count, check, rfl⟩ := exists_frame hlen
    obtain ⟨hcheck, hrequired, hcount, hle, hkeys⟩ := ofChunks?_frame.1 h
    obtain ⟨requiredOp, hfirst, hrequired⟩ := eq_opcode_of_toSmallInt? hrequired
    obtain ⟨countOp, hlast, hcount⟩ := eq_opcode_of_toSmallInt? hcount
    refine ⟨requiredOp, countOp, middle.map Chunk.operation, ?_, hrequired, by simpa using hcount,
      by simpa using hle, hkeys⟩
    simp [hfirst, hlast, asOpcode_eq_checkMultisig_iff.1 hcheck]
  · rintro ⟨requiredOp, countOp, keyOps, hops, hrequired, hcount, hle, hkeys⟩
    have hlen : 3 ≤ chunks.length := by
      have heq := congrArg List.length hops
      simp only [List.length_map, List.length_cons, List.length_append, List.length_nil] at heq
      omega
    obtain ⟨first, middle, count, check, rfl⟩ := exists_frame hlen
    simp only [List.map_cons, List.map_append, List.cons.injEq] at hops
    obtain ⟨hfirst, hrest⟩ := hops
    obtain ⟨rfl, hends⟩ := List.append_inj' hrest rfl
    simp only [List.map_nil, List.cons.injEq, and_true] at hends
    refine ofChunks?_frame.2 ⟨asOpcode_eq_checkMultisig_iff.2 hends.2, ?_, ?_, by simpa using hle, hkeys⟩
    · rw [hfirst]
      exact hrequired
    · rw [hends.1, Operation.asOpcode, hcount, List.length_map]

end Multisig

namespace Script

/-! ## Scripts built from terms -/

theorem pushKeys_cons (key : PublicKey) (keys : List PublicKey) :
    pushKeys (key :: keys) =
      (encodePush key.bytes .minimal).bind fun push => (pushKeys keys).map (push ++ ·) := by
  rw [pushKeys, pushKeys, List.mapM_cons]
  cases encodePush key.bytes .minimal with
  | error e => rfl
  | ok push => cases keys.mapM fun key => encodePush key.bytes .minimal <;> rfl

theorem pushKeys_eq_ok_iff {keys : List PublicKey} {pushes : Bytes} :
    pushKeys keys = .ok pushes ↔
      (∀ key ∈ keys, key.bytes.length ≤ PushForm.minimal.capacity) ∧
        pushes = (keys.map fun key => PushForm.minimal.operation key.bytes).flatMap Operation.bytes := by
  induction keys generalizing pushes with
  | nil =>
    constructor
    · intro h
      cases h
      exact ⟨by simp, rfl⟩
    · rintro ⟨-, rfl⟩
      rfl
  | cons key keys ih =>
    rw [pushKeys_cons, List.forall_mem_cons, List.map_cons, List.flatMap_cons]
    constructor
    · intro h
      cases hpush : encodePush key.bytes .minimal with
      | error e => rw [hpush] at h; cases h
      | ok push =>
        obtain ⟨hroom, rfl⟩ := encodePush_eq_ok_iff.1 hpush
        cases hrest : pushKeys keys with
        | error e => rw [hpush, hrest] at h; cases h
        | ok rest =>
          rw [hpush, hrest] at h
          cases h
          obtain ⟨hrooms, rfl⟩ := ih.1 hrest
          exact ⟨⟨hroom, hrooms⟩, rfl⟩
    · rintro ⟨⟨hroom, hrooms⟩, rfl⟩
      rw [encodePush_eq_ok_iff.2 ⟨hroom, rfl⟩, ih.2 ⟨hrooms, rfl⟩]
      rfl

/-- The operations of a script built from terms. -/
def multisigOps (keys : List PublicKey) (requiredOp countOp : UInt8) : List Operation :=
  .opcode requiredOp :: (keys.map (fun key => PushForm.minimal.operation key.bytes) ++
    [.opcode countOp, .opcode Op.checkMultisig])

/-- The script that is built from terms: their operations one behind the other, with their bytes and
the terms held. -/
def multisigOf (keys : List PublicKey) (required : Nat) (requiredOp countOp : UInt8) : Script where
  chunks := place 0 (multisigOps keys requiredOp countOp)
  held :=
    { data := some ((multisigOps keys requiredOp countOp).flatMap Operation.bytes)
      multisig := some (some ⟨required, keys⟩) }

theorem wellFormed_multisigOps {keys : List PublicKey} {required : Nat} {requiredOp countOp : UInt8}
    (hrequired : Op.ofSmallInt? required = some requiredOp) (hcount : Op.ofSmallInt? keys.length = some countOp)
    (hroom : ∀ key ∈ keys, key.bytes.length ≤ PushForm.minimal.capacity) :
    ∀ op ∈ multisigOps keys requiredOp countOp, op.WellFormed := by
  intro op hop
  simp only [multisigOps, List.mem_cons, List.mem_append, List.mem_map, List.not_mem_nil, or_false] at hop
  rcases hop with rfl | ⟨key, hkey, rfl⟩ | rfl | rfl
  · exact Op.wellFormed_of_ofSmallInt? hrequired
  · exact PushForm.wellFormed_operation (hroom key hkey)
  · exact Op.wellFormed_of_ofSmallInt? hcount
  · decide

theorem flatMap_bytes_multisigOps (keys : List PublicKey) (requiredOp countOp : UInt8) :
    (multisigOps keys requiredOp countOp).flatMap Operation.bytes =
      requiredOp :: (keys.map fun key => PushForm.minimal.operation key.bytes).flatMap Operation.bytes ++
        [countOp, Op.checkMultisig] := by
  rw [multisigOps, List.flatMap_cons, List.flatMap_append]
  rfl

/-- A script is built from terms exactly if both numbers are small integers, no more keys are required
than there are and every key can be pushed. -/
theorem ofMultisig_eq_ok_iff {keys : List PublicKey} {required : Nat} {s : Script} :
    ofMultisig keys required = .ok s ↔
      required ≤ keys.length ∧ (∀ key ∈ keys, key.bytes.length ≤ PushForm.minimal.capacity) ∧
        ∃ requiredOp countOp, Op.ofSmallInt? required = some requiredOp ∧
          Op.ofSmallInt? keys.length = some countOp ∧ s = multisigOf keys required requiredOp countOp := by
  constructor
  · intro h
    rw [ofMultisig] at h
    split at h
    · next requiredOp countOp hrequired hcount =>
      split at h
      · next hle =>
        split at h
        · cases h
        · next pushes hpushes =>
          obtain ⟨hroom, rfl⟩ := pushKeys_eq_ok_iff.1 hpushes
          rw [← flatMap_bytes_multisigOps, parse_flatMap_bytes (wellFormed_multisigOps hrequired hcount hroom)] at h
          cases h
          exact ⟨hle, hroom, requiredOp, countOp, hrequired, hcount, rfl⟩
      · cases h
    · cases h
  · rintro ⟨hle, hroom, requiredOp, countOp, hrequired, hcount, rfl⟩
    rw [ofMultisig, hrequired, hcount]
    dsimp only
    rw [if_pos hle, pushKeys_eq_ok_iff.2 ⟨hroom, rfl⟩]
    dsimp only
    rw [← flatMap_bytes_multisigOps, parse_flatMap_bytes (wellFormed_multisigOps hrequired hcount hroom)]
    rfl

/-- The chunks of a script built from terms spell them if no key is empty. -/
theorem ofChunks?_multisigOf {keys : List PublicKey} {required : Nat} {requiredOp countOp : UInt8}
    (hrequired : Op.ofSmallInt? required = some requiredOp) (hcount : Op.ofSmallInt? keys.length = some countOp)
    (hle : required ≤ keys.length) (hroom : ∀ key ∈ keys, key.bytes.length ≤ PushForm.minimal.capacity)
    (hne : ∀ key ∈ keys, key.bytes ≠ []) :
    Multisig.ofChunks? (multisigOf keys required requiredOp countOp).chunks = some ⟨required, keys⟩ := by
  rw [Multisig.ofChunks?_eq_some_iff, multisigOf, map_operation_place]
  refine ⟨requiredOp, countOp, keys.map fun key => PushForm.minimal.operation key.bytes, rfl,
    Op.toSmallInt?_of_ofSmallInt? hrequired, ?_, by simpa using hle, ?_⟩
  · rw [List.length_map]
    exact Op.toSmallInt?_of_ofSmallInt? hcount
  · rw [List.map_map]
    exact List.map_congr_left fun key hkey => PushForm.payload?_operation (hroom key hkey) (hne key hkey)

/-- They spell nothing if a key is empty, because it has no payload among them. -/
theorem ofChunks?_multisigOf_of_empty_key {keys : List PublicKey} {required : Nat}
    {requiredOp countOp : UInt8} {key : PublicKey} (hkey : key ∈ keys) (hempty : key.bytes = []) :
    Multisig.ofChunks? (multisigOf keys required requiredOp countOp).chunks = none := by
  cases hterms : Multisig.ofChunks? (multisigOf keys required requiredOp countOp).chunks with
  | none => rfl
  | some terms =>
    rw [Multisig.ofChunks?_eq_some_iff, multisigOf, map_operation_place] at hterms
    obtain ⟨requiredOp', countOp', keyOps, hops, -, -, -, hkeys⟩ := hterms
    simp only [multisigOps, List.cons.injEq] at hops
    obtain ⟨rfl, -⟩ := List.append_inj' hops.2 rfl
    -- the empty key is pushed by an opcode, which has no payload, but every key of terms has one
    have hnone : none ∈ (keys.map fun key => PushForm.minimal.operation key.bytes).map Operation.payload? := by
      rw [List.map_map]
      refine List.mem_map.2 ⟨key, hkey, ?_⟩
      rw [Function.comp_apply, hempty, PushForm.operation_minimal_nil]
      rfl
    rw [hkeys] at hnone
    obtain ⟨key', -, hkey'⟩ := List.mem_map.1 hnone
    cases hkey'

end Script

end CoinScript
