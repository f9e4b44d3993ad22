/-
How a multisignature check searches. Signatures and keys can be gone through by two places, that of the
first signature not yet matched and that of the next key, and how many of each are left are distances from
these places to the ends. No place runs past its end, so no distance leads back, and the search by places is
the one by lists. What it asks the checker it asks about the keys in their order, each once, up to the key
behind which too few are left.
-/
import CoinScript.Proofs.Codec.WordOffsets
import CoinScript.Proofs.Machine.Matching

namespace CoinScript.Machine

open CoinScript.Action

/-! ## Searching by places -/

/-- Matches the signatures from one place on with the keys from another on. There is no verdict if a place
runs past its end where it is asked how many are left. -/
def matchByPlaces? (checker : Checker) (signatures keys : List Bytes) (signaturePlace keyPlace : Nat) :
    Exec Machine (Option Bool) :=
  if h : signaturePlace < signatures.length ∧ keyPlace < keys.length then do
    let accepted ← checkSignature checker (signatures.get ⟨signaturePlace, h.1⟩) (keys.get ⟨keyPlace, h.2⟩)
    let unmatchedPlace := if accepted then signaturePlace + 1 else signaturePlace
    match distance? (keyPlace + 1) keys.length, distance? unmatchedPlace signatures.length with
    | some keysLeft, some signaturesLeft =>
      if keysLeft < signaturesLeft then return some (unmatchedPlace == signatures.length)
      else matchByPlaces? checker signatures keys unmatchedPlace (keyPlace + 1)
    | _, _ => return none
  else return some (signaturePlace == signatures.length)
termination_by keys.length - keyPlace

variable {checker : Checker} {signatures keys : List Bytes} {i j : Nat}

/-- From places within the lists there is a verdict, which is that on what is left of the lists. -/
theorem matchByPlaces?_eq (checker : Checker) (hi : i ≤ signatures.length) (hj : j ≤ keys.length) :
    matchByPlaces? checker signatures keys i j =
      some <$> matchSignatures checker (signatures.drop i) (keys.drop j) := by
  induction i, j using matchByPlaces?.induct signatures keys with
  | case1 i j h ih =>
    obtain ⟨hsignature, hkey⟩ := h
    rw [matchByPlaces?, dif_pos ⟨hsignature, hkey⟩, List.drop_eq_getElem_cons hsignature,
      List.drop_eq_getElem_cons hkey, matchSignatures, map_bind]
    refine bind_congr fun accepted => ?_
    -- the place of the first signature that is left, and the signatures from there on
    generalize hplace : (if accepted = true then i + 1 else i) = place
    have hle : place ≤ signatures.length := by
      rw [← hplace]
      split <;> omega
    have hunmatched : (if accepted = true then signatures.drop (i + 1) else
        signatures[i] :: signatures.drop (i + 1)) = signatures.drop place := by
      rw [← hplace, ← List.drop_eq_getElem_cons hsignature]
      split <;> rfl
    dsimp only
    rw [hunmatched, distance?_eq_some hkey, distance?_eq_some hle, List.length_drop, List.length_drop]
    dsimp only
    split
    · next hfew =>
      have hlast : (place == signatures.length) = false := beq_eq_false_iff_ne.2 (by omega)
      rw [hlast, map_pure]
    · rw [← hplace] at hle ⊢
      exact ih accepted hle hkey
  | case2 i j h =>
    rw [matchByPlaces?, dif_neg h]
    rcases Nat.lt_or_eq_of_le hi with hsignature | rfl
    · -- signatures are left, so it is the keys that are not
      have hkeys : keys.length ≤ j := Nat.le_of_not_lt fun hkey => h ⟨hsignature, hkey⟩
      have hlast : (i == signatures.length) = false := beq_eq_false_iff_ne.2 (by omega)
      rw [List.drop_eq_nil_of_le hkeys, List.drop_eq_getElem_cons hsignature, matchSignatures, hlast, map_pure]
    · rw [List.drop_length, matchSignatures, beq_self_eq_true, map_pure]

/-! ## What is asked of the checker -/

/-- A check of one of the signatures against the bytes, with what the checker says of it. -/
structure AskedOf (checker : Checker) (code : Bytes) (signatures : List Bytes) (c : SignatureCheck) : Prop where
  signature : c.signature ∈ signatures
  scriptCode : c.scriptCode = code
  accepted : c.accepted = checker c.signature c.key code

theorem AskedOf.mono {code : Bytes} {others : List Bytes} {c : SignatureCheck}
    (h : AskedOf checker code signatures c) (hsubset : signatures ⊆ others) : AskedOf checker code others c :=
  ⟨hsubset h.signature, h.scriptCode, h.accepted⟩

theorem unmatched_subset {code signature key : Bytes} {later : List Bytes} :
    unmatched checker code signature key later ⊆ signature :: later := by
  rw [unmatched]
  split
  · exact List.subset_cons_self _ _
  · exact List.Subset.refl _

/-- All that is reported is checks of the signatures, and the keys that they are with are the first ones, in
their order. -/
theorem exists_checks_matchSignatures (checker : Checker) (signatures keys : List Bytes) (m : Machine) :
    ∃ checks : List SignatureCheck,
      ((matchSignatures checker signatures keys).run m).reports = checks.map .check ∧
      checks.map SignatureCheck.key <+: keys ∧ ∀ c ∈ checks, AskedOf checker m.scriptCode signatures c := by
  induction keys generalizing signatures with
  | nil =>
    cases signatures with
    | nil => exact ⟨[], rfl, List.nil_prefix, nofun⟩
    | cons signature later => exact ⟨[], rfl, List.nil_prefix, nofun⟩
  | cons key keys ih =>
    cases signatures with
    | nil => exact ⟨[], rfl, List.nil_prefix, nofun⟩
    | cons signature later =>
      let first : SignatureCheck := ⟨signature, key, m.scriptCode, checker signature key m.scriptCode⟩
      have hfirst : AskedOf checker m.scriptCode (signature :: later) first := ⟨List.mem_cons_self, rfl, rfl⟩
      rw [run_matchSignatures_cons]
      split
      · refine ⟨[first], rfl, ?_, List.forall_mem_singleton.2 hfirst⟩
        exact List.prefix_cons_inj key |>.2 List.nil_prefix
      · obtain ⟨checks, hreports, hkeys, hasked⟩ := ih (unmatched checker m.scriptCode signature key later)
        refine ⟨first :: checks, congrArg (.check first :: ·) hreports, ?_, ?_⟩
        · exact List.prefix_cons_inj key |>.2 hkeys
        · exact List.forall_mem_cons.2 ⟨hfirst, fun c hc => (hasked c hc).mono unmatched_subset⟩

/-! ## Multisignature checks -/

/-- A multisignature check leaves exactly what lay below all that it takes, and says whether the signatures
match the keys in order. It asks the checker about the keys in their order, each once and not always all of
them; and the search by places comes to the same verdict after the same checks, no distance leading back. -/
theorem checkMultisig_decides_matching (checker : Checker) (m : Machine) (base signatures keys : List Bytes)
    (extra requiredCount count : Bytes) (hle : signatures.length ≤ keys.length) (hmax : keys.length ≤ 20)
    (hrequired : Number.decode? requiredCount = some signatures.length)
    (hcount : Number.decode? count = some keys.length)
    (hstack : m.stack = (base ++ extra :: signatures ++ requiredCount :: keys ++ [count]).reverse) :
    let left : Machine := { m with stack := base.reverse }
    ∃ (verdict : Bool) (checks : List SignatureCheck),
      (checkMultisig checker).run m = ⟨.ok verdict, left, checks.map .check⟩ ∧
      (verdict = true ↔
        OrderedMatching (fun signature key => checker signature key m.scriptCode) signatures keys) ∧
      checks.map SignatureCheck.key <+: keys ∧
      (∀ c ∈ checks, AskedOf checker m.scriptCode signatures c) ∧
      (matchByPlaces? checker signatures keys 0 0).run left = ⟨.ok (some verdict), left, checks.map .check⟩ := by
  intro left
  have htop : m.stack = count :: (keys.reverse ++ requiredCount :: (signatures.reverse ++ extra :: base.reverse)) := by
    rw [hstack]
    simp
  have hmax' : (keys.length : Int) ≤ maxMultisigKeys := Int.ofNat_le.2 hmax
  obtain ⟨verdict, reports, hrun, hverdict⟩ := run_matchSignatures checker signatures keys left
  obtain ⟨checks, hreports, hkeys, hasked⟩ := exists_checks_matchSignatures checker signatures keys left
  rw [hrun] at hreports
  rw [show reports = checks.map Event.check from hreports] at hrun
  refine ⟨verdict, checks, ?_, hverdict, hkeys, hasked, ?_⟩
  · rw [run_checkMultisig_taken checker htop hcount hmax' hrequired hle]
    exact hrun
  · have hplaces := matchByPlaces?_eq checker (Nat.zero_le signatures.length) (Nat.zero_le keys.length)
    rw [List.drop_zero, List.drop_zero, ← bind_pure_comp] at hplaces
    rw [hplaces, run_bind_ok hrun, run_pure, List.append_nil]

/-- Two signatures and three keys, both counts written longer than they need be. The second signature goes
with every key, the first with the second key only, so the first key is passed over. -/
theorem checkMultisig_decides_matching_of_padded_counts :
    let checker : Checker := fun signature key _ => decide (key.length ≤ signature.length)
    let signatures : List Bytes := [[9], [9, 9, 9]]
    let keys : List Bytes := [[1, 1], [1], [1, 1, 1]]
    let m : Machine := { stack := ([[7]] ++ [] :: signatures ++ [2, 0] :: keys ++ [[3, 0]]).reverse }
    signatures.length ≤ keys.length ∧ keys.length ≤ 20 ∧ Number.decode? [2, 0] = some signatures.length ∧
      Number.decode? [3, 0] = some keys.length ∧ ((checkMultisig checker).run m).result = .ok true ∧
      ((checkMultisig checker).run m).state = { m with stack := [[7]] } := by
  intro checker signatures keys m
  have hle : signatures.length ≤ keys.length := by decide
  have hmax : keys.length ≤ 20 := by decide
  have hrequired : Number.decode? [2, 0] = some signatures.length := by decide
  have hcount : Number.decode? [3, 0] = some keys.length := by decide
  -- the signatures are given the second key and the third
  have hmatching : OrderedMatching (fun signature key => checker signature key m.scriptCode) signatures keys :=
    orderedMatching_iff.2 (.cons_right (.cons rfl (.cons rfl .nil)))
  obtain ⟨verdict, checks, hrun, hverdict, -⟩ := checkMultisig_decides_matching checker m [[7]] signatures keys
    [] [2, 0] [3, 0] hle hmax hrequired hcount rfl
  rw [hverdict.2 hmatching] at hrun
  rw [hrun]
  exact ⟨hle, hmax, hrequired, hcount, rfl, rfl⟩

end CoinScript.Machine
