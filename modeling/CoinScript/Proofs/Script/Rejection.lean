/-
Rejected edits. An edit that appends is refused before the script is touched, or it fails because the bytes
with what is appended do not decode; then the chunks stay, every held view is dropped, and what the script
shows afterwards follows from its chunks. A coherent script shows what its chunks give, so a rejected edit
changes no view, with one exception: the terms that a script with an empty key was built from do not
follow from its chunks, and are gone when its views have been dropped.
-/
import CoinScript.Proofs.Script.Coherence
import CoinScript.Script.Template

namespace CoinScript.Script

/-! ## Edits that append -/

/-- What can be appended to a script. -/
inductive Appending where
  | opcode (op : UInt8)
  | data (payload : Bytes)
  | script (other : Script)

/-- The edit that appends it. -/
def Appending.edit : Appending → Edit Unit
  | opcode op => appendOpcode op
  | data payload => appendData payload
  | script other => appendScript other

/-- The cause of an edit that fails because its new bytes do not decode. -/
def CutShort : ScriptError → Prop
  | .codec (.truncated _) => True
  | _ => False

theorem run_rebuild_of_error {bytes : Bytes} {s : Script} {cause : ScriptError}
    (h : ((rebuild bytes).run s).result = .error cause) :
    ((rebuild bytes).run s).state = s.invalidate ∧ CutShort cause := by
  cases hbytes : decodeAll bytes with
  | ok chunks => rw [run_rebuild_ok hbytes] at h; cases h
  | error found =>
    rw [run_rebuild_error hbytes] at h ⊢
    cases h
    obtain ⟨offset, rfl⟩ := exists_truncated_of_decodeFrom hbytes
    exact ⟨rfl, trivial⟩

theorem run_appending_of_error {s : Script} {appending : Appending} {cause : ScriptError}
    (h : (appending.edit.run s).result = .error cause) :
    ((appending.edit.run s).state = s ∧ ¬ CutShort cause) ∨
      ((appending.edit.run s).state = s.invalidate ∧ CutShort cause) := by
  cases appending with
  | opcode op =>
    unfold Appending.edit at h ⊢
    cases hop : isUnappendable op with
    | true =>
      rw [run_appendOpcode_of_unappendable hop] at h ⊢
      cases h
      exact .inl ⟨rfl, id⟩
    | false =>
      rw [run_appendOpcode hop] at h ⊢
      exact .inr (run_rebuild_of_error h)
  | data payload =>
    unfold Appending.edit at h ⊢
    by_cases hne : payload = []
    · subst hne
      rw [run_appendData_nil] at h ⊢
      cases h
      exact .inl ⟨rfl, id⟩
    · cases hpush : encodePush payload .minimal with
      | error found =>
        rw [run_appendData_of_error hne hpush] at h ⊢
        cases h
        unfold encodePush at hpush
        split at hpush <;> cases hpush
        exact .inl ⟨rfl, id⟩
      | ok push =>
        rw [run_appendData hne hpush] at h ⊢
        exact .inr (run_rebuild_of_error h)
  | script other =>
    unfold Appending.edit at h ⊢
    by_cases hne : other.data = []
    · rw [run_appendScript_of_nil hne] at h ⊢
      cases h
      exact .inl ⟨rfl, id⟩
    · rw [run_appendScript hne] at h ⊢
      exact .inr (run_rebuild_of_error h)

/-! ## Views -/

/-- Two scripts show the same in every view. -/
structure SameViews (a b : Script) : Prop where
  chunks : a.chunks = b.chunks
  data : a.data = b.data
  text : a.text = b.text
  multisig? : a.multisig? = b.multisig?
  isMultisig : a.isMultisig = b.isMultisig
  isStandardMultisig : a.isStandardMultisig = b.isStandardMultisig
  isStandard : a.isStandard = b.isStandard
  kind : a.kind = b.kind

theorem sameViews_of_eq {a b : Script} (hchunks : a.chunks = b.chunks) (hdata : a.data = b.data)
    (htext : a.text = b.text) (hterms : a.multisig? = b.multisig?) : SameViews a b := by
  have hmultisig : a.isMultisig = b.isMultisig := congrArg Option.isSome hterms
  have hkey : a.isPayToPublicKey = b.isPayToPublicKey := by unfold isPayToPublicKey; rw [hchunks]
  have hkeyHash : a.isPayToPublicKeyHash = b.isPayToPublicKeyHash := by
    unfold isPayToPublicKeyHash; rw [hchunks]
  have hscriptHash : a.isPayToScriptHash = b.isPayToScriptHash := by
    unfold isPayToScriptHash endsWithPayToScriptHash; rw [hchunks]
  have hnull : a.isNullData = b.isNullData := by unfold isNullData; rw [hchunks]
  refine ⟨hchunks, hdata, htext, hterms, hmultisig, ?_, ?_, ?_⟩
  · unfold isStandardMultisig; rw [hterms]
  · unfold isStandard; rw [hkey, hkeyHash, hscriptHash, hmultisig]
  · unfold kind; rw [hkey, hkeyHash, hscriptHash, hmultisig, hnull]

/-- Dropping the views of a coherent script changes what it shows exactly if it shows terms that it was
built from and its chunks do not spell. -/
theorem Coherent.sameViews_invalidate_iff {s : Script} (h : Coherent s) :
    SameViews s.invalidate s ↔ ∀ terms, s.multisig? = some terms → ¬ Seeded s.chunks terms := by
  constructor
  · intro hsame terms hterms hseeded
    have hnone : s.invalidate.multisig? = none := hseeded.2.2
    rw [hsame.multisig?, hterms] at hnone
    cases hnone
  · intro hplain
    refine sameViews_of_eq rfl h.data_eq.symm h.text_eq.symm ?_
    rcases h.multisig?_eq with heq | ⟨terms, heq, hseeded⟩
    · exact heq.symm
    · exact absurd hseeded (hplain terms heq)

/-! ## Rejected edits -/

/-- A rejected edit of a reachable script keeps its chunks, its bytes and its text. It keeps every view
exactly if it was refused before new bytes were decoded, or the script does not show terms that it was built
from with an empty key; otherwise the script shows no terms any more. -/
theorem rejected_keeps_views_iff {s : Script} (hs : Reachable s) {appending : Appending} {cause : ScriptError}
    (h : (appending.edit.run s).result = .error cause) :
    let after := (appending.edit.run s).state
    after.chunks = s.chunks ∧ after.data = s.data ∧ after.text = s.text ∧
      (SameViews after s ↔
        ¬ CutShort cause ∨ ∀ terms, s.multisig? = some terms → ¬ Seeded s.chunks terms) ∧
      (¬ SameViews after s → after.multisig? = none) := by
  intro after
  have hcoherent := hs.coherent
  rcases run_appending_of_error h with ⟨hstate, hcause⟩ | ⟨hstate, hcause⟩
  · have hafter : after = s := hstate
    have hsame : SameViews s s := sameViews_of_eq rfl rfl rfl rfl
    rw [hafter]
    exact ⟨rfl, rfl, rfl, ⟨fun _ => .inl hcause, fun _ => hsame⟩, fun hnot => absurd hsame hnot⟩
  · have hafter : after = s.invalidate := hstate
    rw [hafter, hcoherent.sameViews_invalidate_iff]
    refine ⟨rfl, hcoherent.data_eq.symm, hcoherent.text_eq.symm, ?_, fun hseeded => ?_⟩
    · rw [or_iff_right (not_not_intro hcause)]
    · push Not at hseeded
      obtain ⟨terms, -, -, -, hnone⟩ := hseeded
      exact hnone

/-- A length byte without its payload is rejected, and a script that spells the terms it was built from goes
on showing them. -/
theorem rejected_keeps_views_iff_of_spelt_terms :
    let s := multisigOf [⟨[0x02]⟩] 1 0x51 0x51
    let outcome := (Appending.opcode 0x05).edit.run s
    Reachable s ∧ outcome.result = .error (.codec (.truncated 5)) ∧ s.multisig? = some ⟨1, [⟨[0x02]⟩]⟩ ∧
      SameViews outcome.state s := by
  intro s outcome
  have hbuilt : ofMultisig [⟨[0x02]⟩] 1 = .ok s :=
    ofMultisig_eq_ok_iff.2 ⟨by decide, by decide, 0x51, 0x51, by decide, by decide, rfl⟩
  have hresult : outcome.result = .error (.codec (.truncated 5)) := by decide +kernel
  refine ⟨.ofMultisig hbuilt, hresult, rfl, ?_⟩
  obtain ⟨-, -, -, hiff, -⟩ := rejected_keeps_views_iff (.ofMultisig hbuilt) hresult
  refine hiff.2 (.inr fun terms hterms hseeded => ?_)
  obtain ⟨key, hkey, hempty⟩ := hseeded.1
  cases hterms
  cases List.mem_singleton.1 hkey
  cases hempty

/-- The same edit is rejected by a script built with an empty key, and the terms that it showed are gone:
it was a multisignature script, and now it is of no known kind. -/
theorem rejected_edit_loses_terms :
    let s := multisigOf [⟨[]⟩] 1 0x51 0x51
    let outcome := (Appending.opcode 0x05).edit.run s
    Reachable s ∧ outcome.result = .error (.codec (.truncated 4)) ∧
      s.multisig? = some ⟨1, [⟨[]⟩]⟩ ∧ outcome.state.multisig? = none ∧
      s.kind = .multisig ∧ outcome.state.kind = .unknown ∧ ¬ SameViews outcome.state s := by
  intro s outcome
  have hbuilt : ofMultisig [⟨[]⟩] 1 = .ok s :=
    ofMultisig_eq_ok_iff.2 ⟨by decide, by decide, 0x51, 0x51, by decide, by decide, rfl⟩
  have hbefore : s.multisig? = some ⟨1, [⟨[]⟩]⟩ := rfl
  have hafter : outcome.state.multisig? = none := by decide +kernel
  refine ⟨.ofMultisig hbuilt, by decide +kernel, hbefore, hafter, by decide +kernel, by decide +kernel,
    fun hsame => ?_⟩
  have hterms := hsame.multisig?
  rw [hbefore, hafter] at hterms
  cases hterms

end CoinScript.Script
