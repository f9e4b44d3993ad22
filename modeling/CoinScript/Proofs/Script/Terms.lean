/-
Terms and bytes. The bytes that show terms are spelt out by a grammar: the opcode of the required number, a push of
each key in some form, the opcode of the number of keys, and the check. A script is parsed with given terms from
exactly these bytes. A script is built from terms exactly within the bounds of the grammar, and its bytes show the
terms again unless a key is empty: an empty key is built as the opcode that pushes the empty string, and the grammar
asks for a push.

Reading terms goes by places counted from both ends of the chunks and by a slice between them whose length an opcode
tells. Taken by places that may miss, the reading never misses, so it is that of the chunks.
-/
import CoinScript.Proofs.Script.Operations
import CoinScript.Proofs.Script.Recognition
import Mathlib.Data.List.Forall2

namespace CoinScript

/-- The operation pushes the payload behind a lead byte that announces it. -/
def Operation.Pushes (payload : Bytes) (op : Operation) : Prop := (∃ lead, op = .push lead payload) ∧ op.WellFormed

theorem Operation.pushes_iff {payload : Bytes} {op : Operation} :
    op.Pushes payload ↔ op.payload? = some payload ∧ op.WellFormed := by
  unfold Pushes
  cases op with
  | opcode byte => simp [payload?]
  | push lead other => simp [payload?]

namespace Multisig

/-! ## The grammar in bytes -/

/-- The bytes are the opcode of the required number, a push of each key in some form, the opcode of the number of keys
and the check. At least one key is required and no more than there are, which are at most sixteen. -/
structure WrittenAs (terms : Multisig) (bytes : Bytes) : Prop where
  one_le : 1 ≤ terms.required
  le_length : terms.required ≤ terms.keys.length
  length_le : terms.keys.length ≤ 16
  bytes_eq : ∃ pushes : List Operation, List.Forall₂ (fun key op => op.Pushes key.bytes) terms.keys pushes ∧
    bytes = UInt8.ofNat (0x50 + terms.required) :: pushes.flatMap Operation.bytes ++
      [UInt8.ofNat (0x50 + terms.keys.length), Op.checkMultisig]

variable {terms : Multisig} {ops : List Operation} {bytes : Bytes}

theorem wellFormed_smallInt {n : Nat} (h : 1 ≤ n ∧ n ≤ 16) :
    (Operation.opcode (UInt8.ofNat (0x50 + n))).WellFormed := by
  have hall : ∀ n ≤ 16, 1 ≤ n → (Operation.opcode (UInt8.ofNat (0x50 + n))).WellFormed := by decide
  exact hall n h.2 h.1

theorem spelt_iff : terms.Spelt ops ↔
    (1 ≤ terms.required ∧ terms.required ≤ terms.keys.length ∧ terms.keys.length ≤ 16) ∧
      ∃ pushes, List.Forall₂ (fun key op => Operation.payload? op = some key.bytes) terms.keys pushes ∧
        ops = .opcode (UInt8.ofNat (0x50 + terms.required)) ::
          (pushes ++ [.opcode (UInt8.ofNat (0x50 + terms.keys.length)), .opcode Op.checkMultisig]) := by
  have hpayloads (pushes : List Operation) :
      pushes.map Operation.payload? = terms.keys.map (fun key => some key.bytes) ↔
        List.Forall₂ (fun key op => Operation.payload? op = some key.bytes) terms.keys pushes := by
    rw [eq_comm, ← List.forall₂_eq_eq_eq, List.forall₂_map_left_iff, List.forall₂_map_right_iff]
    simp only [eq_comm]
  constructor
  · intro h
    obtain ⟨hone, hle, hsixteen, -⟩ := h.bounds
    obtain ⟨requiredOp, countOp, pushes, rfl, hrequired, hcount, -, hkeys⟩ := h
    have hkeys := (hpayloads pushes).1 hkeys
    obtain ⟨-, rfl⟩ := Op.toSmallInt?_eq_some_iff.1 hrequired
    obtain ⟨-, rfl⟩ := Op.toSmallInt?_eq_some_iff.1 hcount
    exact ⟨⟨hone, hle, hsixteen⟩, pushes, hkeys, by rw [hkeys.length_eq]⟩
  · rintro ⟨⟨hone, hle, hsixteen⟩, pushes, hkeys, rfl⟩
    have hlen : terms.keys.length = pushes.length := hkeys.length_eq
    refine ⟨_, _, pushes, rfl, ?_, ?_, hlen ▸ hle, (hpayloads pushes).2 hkeys⟩
    · exact Op.toSmallInt?_eq_some_iff.2 ⟨⟨hone, by omega⟩, rfl⟩
    · exact Op.toSmallInt?_eq_some_iff.2 ⟨⟨by omega, by omega⟩, by rw [hlen]⟩

/-- The grammar is that of the bytes of well-formed operations that spell the terms. -/
theorem writtenAs_iff_spelt : terms.WrittenAs bytes ↔
    ∃ ops, terms.Spelt ops ∧ (∀ op ∈ ops, op.WellFormed) ∧ bytes = ops.flatMap Operation.bytes := by
  constructor
  · rintro ⟨hone, hle, hsixteen, pushes, hkeys, rfl⟩
    have hpayloads := hkeys.imp fun _ _ h => (Operation.pushes_iff.1 h).1
    refine ⟨_, spelt_iff.2 ⟨⟨hone, hle, hsixteen⟩, pushes, hpayloads, rfl⟩, ?_, by simp [Operation.bytes]⟩
    rw [List.forall_mem_cons, List.forall_mem_append, List.forall_mem_cons, List.forall_mem_singleton]
    refine ⟨wellFormed_smallInt ⟨hone, by omega⟩, fun op hop => ?_,
      wellFormed_smallInt ⟨by omega, hsixteen⟩, by decide⟩
    obtain ⟨i, hi, rfl⟩ := List.getElem_of_mem hop
    exact ((List.forall₂_iff_get.1 hkeys).2 i (by rw [hkeys.length_eq]; exact hi) hi).2
  · rintro ⟨ops, hspelt, hwf, rfl⟩
    obtain ⟨⟨hone, hle, hsixteen⟩, pushes, hkeys, rfl⟩ := spelt_iff.1 hspelt
    rw [List.forall_mem_cons, List.forall_mem_append] at hwf
    refine ⟨hone, hle, hsixteen, pushes, ?_, by simp [Operation.bytes]⟩
    refine List.forall₂_iff_get.2 ⟨hkeys.length_eq, fun i hkey hpush => ?_⟩
    exact Operation.pushes_iff.2 ⟨(List.forall₂_iff_get.1 hkeys).2 i hkey hpush, hwf.2.1 _ (List.get_mem pushes _)⟩

/-! ## Reading by places -/

/-- The elements from one place on to another, if the list has them all. -/
def slice? {α : Type} (l : List α) (start stop : Nat) : Option (List α) :=
  if start ≤ stop ∧ stop ≤ l.length then some (l.extract start stop) else none

/-- The terms that chunks spell, looked for by places from both ends. There is no outcome if a place or a slice misses
the chunks. -/
def ofChunksByPlaces? (chunks : List Chunk) : Option (Option Multisig) := do
  if chunks.length < 4 then return none
  let check ← chunks[← distance? 1 chunks.length]?
  if check.operation.asOpcode ≠ Op.checkMultisig then return none
  let first ← chunks[0]?
  match Op.toSmallInt? first.operation.asOpcode with
  | none => return none
  | some required =>
    let beforeLast ← chunks[← distance? 2 chunks.length]?
    match Op.toSmallInt? beforeLast.operation.asOpcode with
    | none => return none
    | some count =>
      if count < required ∨ chunks.length ≠ count + 3 then return none
      let pushes ← slice? chunks 1 (count + 1)
      return (pushes.mapM fun c : Chunk => c.operation.payload?).map fun payloads =>
        ⟨required, payloads.map PublicKey.mk⟩

theorem slice?_eq_some {α : Type} {l : List α} {start stop : Nat} (h : start ≤ stop ∧ stop ≤ l.length) :
    slice? l start stop = some ((l.drop start).take (stop - start)) := by
  rw [slice?, if_pos h, List.extract_eq_take_drop]

/-- No place and no slice misses the chunks, whatever they are, and what is found is what they spell. -/
theorem ofChunksByPlaces?_eq (chunks : List Chunk) : ofChunksByPlaces? chunks = some (ofChunks? chunks) := by
  by_cases hfew : chunks.length < 4
  · have hnone : ofChunks? chunks = none := Option.eq_none_iff_forall_not_mem.2 fun terms h => by
      have hfour := four_le_of_ofChunks? h
      omega
    rw [ofChunksByPlaces?, hnone, if_pos hfew]
    rfl
  · have hfour : 4 ≤ chunks.length := Nat.le_of_not_lt hfew
    have hone : distance? 1 chunks.length = some (chunks.length - 1) := distance?_eq_some (by omega)
    have htwo : distance? 2 chunks.length = some (chunks.length - 2) := distance?_eq_some (by omega)
    obtain ⟨first, hfirst⟩ : ∃ c, chunks[0]? = some c := ⟨_, List.getElem?_eq_getElem (by omega)⟩
    obtain ⟨beforeLast, hbeforeLast⟩ : ∃ c, chunks[chunks.length - 2]? = some c := ⟨_, List.getElem?_eq_getElem (by omega)⟩
    obtain ⟨check, hcheck⟩ : ∃ c, chunks[chunks.length - 1]? = some c := ⟨_, List.getElem?_eq_getElem (by omega)⟩
    have hhead : chunks.head? = some first := by rw [List.head?_eq_getElem?, hfirst]
    have hlast : chunks.getLast? = some check := by rw [List.getLast?_eq_getElem?, hcheck]
    unfold ofChunksByPlaces? ofChunks?
    simp only [hone, htwo, hfirst, hbeforeLast, hcheck, hhead, hlast, if_neg hfew, Option.bind_eq_bind,
      Option.bind_some, Option.pure_def, guard, if_pos hfour]
    by_cases hop : check.operation.asOpcode = Op.checkMultisig
    · rw [if_neg (not_not_intro hop), if_pos hop]
      cases Op.toSmallInt? first.operation.asOpcode with
      | none => rfl
      | some required =>
        cases Op.toSmallInt? beforeLast.operation.asOpcode with
        | none => rfl
        | some count =>
          simp only [Option.bind_some]
          by_cases hle : required ≤ count
          · by_cases hcount : chunks.length = count + 3
            · -- the slice ends two chunks before the end
              have hslice : slice? chunks 1 (count + 1) = some ((chunks.drop 1).take count) :=
                slice?_eq_some ⟨by omega, by omega⟩
              rw [if_neg (by omega), if_pos hle, if_pos hcount, hslice]
              simp only [Option.bind_some]
              cases ((chunks.drop 1).take count).mapM fun c : Chunk => c.operation.payload? <;> rfl
            · rw [if_pos (.inr hcount), if_pos hle, if_neg hcount]
              rfl
          · rw [if_pos (.inl (Nat.lt_of_not_le hle)), if_neg hle]
            rfl
    · rw [if_pos hop, if_neg hop]
      rfl

end Multisig

namespace Script

variable {bytes : Bytes} {s : Script} {terms : Multisig} {keys : List PublicKey} {required : Nat}

/-! ## Parsed scripts -/

theorem multisig?_eq_some_iff_writtenAs (h : parse bytes = .ok s) :
    s.multisig? = some terms ↔ terms.WrittenAs bytes := by
  rw [multisig?_of_parse h, Multisig.ofChunks?_eq_some_iff, Multisig.writtenAs_iff_spelt]
  constructor
  · intro hspelt
    exact ⟨s.operations, hspelt, (coherent_of_parse h).wellFormed, eq_flatMap_of_parse h⟩
  · rintro ⟨ops, hspelt, hwf, hbytes⟩
    rwa [(operations_eq_iff_of_parse h hwf).2 hbytes]

theorem parse_of_writtenAs (h : terms.WrittenAs bytes) : ∃ s, parse bytes = .ok s := by
  obtain ⟨ops, -, hwf, rfl⟩ := Multisig.writtenAs_iff_spelt.1 h
  exact ⟨_, parse_eq_ofOperations hwf⟩

/-! ## Built scripts -/

/-- So many of these keys can be asked for: at least one, no more than there are, and there are at most sixteen. -/
def Askable (required : Nat) (keys : List PublicKey) : Prop :=
  1 ≤ required ∧ required ≤ keys.length ∧ keys.length ≤ 16

instance : Decidable (Askable required keys) := inferInstanceAs (Decidable (_ ∧ _ ∧ _))

theorem ofMultisig_of_not_askable (h : ¬ Askable required keys) :
    ofMultisig keys required = .error (.invalidMultisig required keys.length) := by
  unfold ofMultisig
  split
  · next hrequired hcount =>
    have hone := (Op.ofSmallInt?_eq_some_iff.1 hrequired).1.1
    have hsixteen := (Op.ofSmallInt?_eq_some_iff.1 hcount).1.2
    rw [if_neg fun hle => h ⟨hone, hle, hsixteen⟩]
  · rfl

theorem exists_ofMultisig_iff (hroom : ∀ key ∈ keys, key.bytes.length ≤ PushForm.minimal.capacity) :
    (∃ s, ofMultisig keys required = .ok s) ↔ Askable required keys := by
  constructor
  · rintro ⟨s, h⟩
    by_contra hnot
    rw [ofMultisig_of_not_askable hnot] at h
    cases h
  · rintro ⟨hone, hle, hsixteen⟩
    have hrequired := Op.ofSmallInt?_eq_some_iff.2 ⟨⟨hone, hle.trans hsixteen⟩, rfl⟩
    have hcount := Op.ofSmallInt?_eq_some_iff.2 ⟨⟨hone.trans hle, hsixteen⟩, rfl⟩
    exact ⟨_, ofMultisig_eq_ok_iff.2 ⟨hle, hroom, _, _, hrequired, hcount, rfl⟩⟩

/-- The bytes of a built script parse, and show the terms that it was built from unless one of the keys is empty. -/
theorem multisig?_of_ofMultisig (h : ofMultisig keys required = .ok s) :
    ∃ parsed, parse s.data = .ok parsed ∧
      parsed.multisig? = if ∃ key ∈ keys, key.bytes = [] then none else some ⟨required, keys⟩ := by
  obtain ⟨hle, hroom, requiredOp, countOp, hrequired, hcount, rfl⟩ := ofMultisig_eq_ok_iff.1 h
  have hparse := parse_flatMap_bytes (wellFormed_multisigOps hrequired hcount hroom)
  refine ⟨_, hparse, ?_⟩
  rw [multisig?_of_parse hparse]
  split
  · next hempty =>
    obtain ⟨key, hkey, hnil⟩ := hempty
    have hnone : Multisig.ofChunks? (multisigOf keys required requiredOp countOp).chunks = none :=
      ofChunks?_multisigOf_of_empty_key hkey hnil
    exact hnone
  · next hne => exact ofChunks?_multisigOf hrequired hcount hle hroom fun key hkey hnil => hne ⟨key, hkey, hnil⟩

/-! ## Terms and bytes -/

/-- A parsed script shows terms exactly if its bytes are written by the grammar of those terms, and all such bytes
parse. Of keys that fit a push a script is built exactly if so many can be asked for, and refused as such otherwise;
the bytes of what is built show the same terms again, or none if a key is empty. Reading the terms never misses the
chunks by a place or a slice. -/
theorem terms_follow_grammar :
    (∀ (bytes : Bytes) (s : Script) (terms : Multisig), parse bytes = .ok s →
        (s.multisig? = some terms ↔ terms.WrittenAs bytes)) ∧
      (∀ (bytes : Bytes) (terms : Multisig), terms.WrittenAs bytes → ∃ s, parse bytes = .ok s) ∧
      (∀ (keys : List PublicKey) (required : Nat), (∀ key ∈ keys, key.bytes.length ≤ 2 ^ 32 - 1) →
        ((∃ s, ofMultisig keys required = .ok s) ↔ Askable required keys) ∧
          (¬ Askable required keys → ofMultisig keys required = .error (.invalidMultisig required keys.length)) ∧
          ∀ s, ofMultisig keys required = .ok s → ∃ parsed, parse s.data = .ok parsed ∧
            parsed.multisig? = if ∃ key ∈ keys, key.bytes = [] then none else some ⟨required, keys⟩) ∧
      ∀ chunks, Multisig.ofChunksByPlaces? chunks = some (Multisig.ofChunks? chunks) := by
  refine ⟨fun bytes s terms h => multisig?_eq_some_iff_writtenAs h, fun bytes terms h => parse_of_writtenAs h,
    fun keys required hroom => ?_, Multisig.ofChunksByPlaces?_eq⟩
  exact ⟨exists_ofMultisig_iff hroom, ofMultisig_of_not_askable, fun s h => multisig?_of_ofMultisig h⟩

/-- Three keys in three forms of push, one of them empty, are read; a script built with an empty key shows no terms;
and three of two keys are refused. -/
theorem terms_follow_grammar_of_three_forms :
    let bytes : Bytes := [0x52, 0x01, 0xaa, 0x4c, 0x01, 0xbb, 0x4d, 0x00, 0x00, 0x53, 0xae]
    let s := ofOperations [.opcode 0x52, .push 0x01 [0xaa], .push 0x4c [0xbb], .push 0x4d [], .opcode 0x53,
      .opcode Op.checkMultisig]
    let terms : Multisig := ⟨2, [⟨[0xaa]⟩, ⟨[0xbb]⟩, ⟨[]⟩]⟩
    let keys : List PublicKey := [⟨[]⟩, ⟨[0x07]⟩]
    (parse bytes = .ok s ∧ terms.WrittenAs bytes ∧ ∀ key ∈ keys, key.bytes.length ≤ 2 ^ 32 - 1) ∧
      s.multisig? = some terms ∧
      (∃ built parsed, ofMultisig keys 1 = .ok built ∧ parse built.data = .ok parsed ∧ parsed.multisig? = none) ∧
      ofMultisig keys 3 = .error (.invalidMultisig 3 2) := by
  intro bytes s terms keys
  obtain ⟨hread, -, hbuild, -⟩ := terms_follow_grammar
  have hops : ∀ op ∈ s.operations, op.WellFormed := by decide
  have hparse : parse bytes = .ok s := parse_eq_ofOperations hops
  have hwritten : terms.WrittenAs bytes := by
    refine ⟨by decide, by decide, by decide, [.push 0x01 [0xaa], .push 0x4c [0xbb], .push 0x4d []], ?_, rfl⟩
    exact .cons ⟨⟨_, rfl⟩, by decide⟩ (.cons ⟨⟨_, rfl⟩, by decide⟩ (.cons ⟨⟨_, rfl⟩, by decide⟩ .nil))
  have hroom : ∀ key ∈ keys, key.bytes.length ≤ 2 ^ 32 - 1 := by decide
  have hone : Askable 1 keys := by decide
  obtain ⟨hbuilt, -, hshown⟩ := hbuild keys 1 hroom
  obtain ⟨-, hrefused, -⟩ := hbuild keys 3 hroom
  obtain ⟨built, hok⟩ := hbuilt.2 hone
  obtain ⟨parsed, hagain, hnone⟩ := hshown built hok
  exact ⟨⟨hparse, hwritten, hroom⟩, (hread bytes s terms hparse).2 hwritten, ⟨built, parsed, hok, hagain, hnone⟩,
    hrefused (by decide)⟩

end Script

end CoinScript
