/-
What edits do to a script. An edit either refuses before it has new bytes, and then leaves the
script as it is, or it rebuilds the script from new bytes: the chunks become those of the bytes, or
stay what they were with every held view dropped. Each edit has one lemma that says how it runs.
-/
import CoinScript.Script.Edit

namespace CoinScript.Script

/-! ## Rebuilding -/

/-- The remark of a rebuilding that fails. -/
def rejectedEdit (cause : CodecError) : Log.Remark :=
  ⟨.undecodableEdit, s!"rejected script edit: {cause.message}"⟩

theorem run_rebuild_ok {bytes : Bytes} {chunks : List Chunk} (h : decodeAll bytes = .ok chunks) (s : Script) :
    (rebuild bytes).run s = ⟨.ok (), ofDecoded chunks bytes, []⟩ := by
  rw [rebuild, h]
  rfl

theorem run_rebuild_error {bytes : Bytes} {cause : CodecError} (h : decodeAll bytes = .error cause)
    (s : Script) :
    (rebuild bytes).run s = ⟨.error (.codec cause), s.invalidate, [rejectedEdit cause]⟩ := by
  rw [rebuild, h]
  rfl

/-! ## Single edits -/

theorem run_extend (tail : Bytes) (s : Script) : (extend tail).run s = (rebuild (s.data ++ tail)).run s := by
  rw [extend, Action.run_bind_ok (Action.run_get s)]
  rfl

/-- A byte that cannot stand by itself is refused with a remark. -/
theorem run_appendOpcode_of_unappendable {op : UInt8} (h : isUnappendable op = true) (s : Script) :
    (appendOpcode op).run s =
      ⟨.error (.invalidOpcode op), s, [⟨.loneOpcode, "rejected standalone opcode " ++ Hex.ofByte op⟩]⟩ := by
  rw [appendOpcode, if_pos h]
  rfl

theorem run_appendOpcode {op : UInt8} (h : isUnappendable op = false) (s : Script) :
    (appendOpcode op).run s = (rebuild (s.data ++ [op])).run s := by
  rw [appendOpcode, if_neg (by simp [h]), run_extend]

theorem run_appendData_nil (s : Script) : (appendData []).run s = ⟨.error .emptyData, s, []⟩ := rfl

/-- A payload that no form has room for is refused. -/
theorem run_appendData_of_error {payload : Bytes} {cause : CodecError} (hne : payload ≠ [])
    (h : encodePush payload .minimal = .error cause) (s : Script) :
    (appendData payload).run s = ⟨.error (.codec cause), s, []⟩ := by
  rw [appendData, if_neg (by simpa using hne), h]
  rfl

theorem run_appendData {payload push : Bytes} (hne : payload ≠ [])
    (h : encodePush payload .minimal = .ok push) (s : Script) :
    (appendData payload).run s = (rebuild (s.data ++ push)).run s := by
  rw [appendData, if_neg (by simpa using hne), h, ← run_extend]
  rfl

theorem run_appendScript_of_nil {other : Script} (h : other.data = []) (s : Script) :
    (appendScript other).run s = ⟨.error .emptyScript, s, []⟩ := by
  rw [appendScript, h]
  rfl

theorem run_appendScript {other : Script} (h : other.data ≠ []) (s : Script) :
    (appendScript other).run s = (rebuild (s.data ++ other.data)).run s := by
  rw [appendScript, if_neg (by simpa using h), run_extend]

/-- A deletion that finds nothing changes nothing. -/
theorem run_retain_of_none {keep : Chunk → Bool} {s : Script}
    (h : s.chunks.length - (s.chunks.filter keep).length = 0) : (retain keep).run s = ⟨.ok 0, s, []⟩ := by
  rw [retain, Action.run_bind_ok (Action.run_get s)]
  dsimp only
  rw [if_pos h]
  rfl

/-- A deletion that finds something rebuilds the script from the chunks that stay. -/
theorem run_retain_of_some {keep : Chunk → Bool} {s : Script}
    (h : s.chunks.length - (s.chunks.filter keep).length ≠ 0) :
    (retain keep).run s =
      (rebuild (serialize (s.chunks.filter keep)) >>= fun _ =>
        pure (s.chunks.length - (s.chunks.filter keep).length)).run s := by
  rw [retain, Action.run_bind_ok (Action.run_get s)]
  dsimp only
  rw [if_neg h]
  rfl

/-! ## What any edit leaves -/

/-- A script after an edit is what it was, or what rebuilding it from some bytes leaves. -/
def Rebuilt (before after : Script) : Prop :=
  after = before ∨ ∃ bytes, after = ((rebuild bytes).run before).state

theorem rebuilt_appendOpcode (op : UInt8) (s : Script) : Rebuilt s ((appendOpcode op).run s).state := by
  cases h : isUnappendable op with
  | true => rw [run_appendOpcode_of_unappendable h]; exact .inl rfl
  | false => rw [run_appendOpcode h]; exact .inr ⟨_, rfl⟩

theorem rebuilt_appendData (payload : Bytes) (s : Script) : Rebuilt s ((appendData payload).run s).state := by
  by_cases hne : payload = []
  · rw [hne, run_appendData_nil]
    exact .inl rfl
  · cases h : encodePush payload .minimal with
    | error cause => rw [run_appendData_of_error hne h]; exact .inl rfl
    | ok push => rw [run_appendData hne h]; exact .inr ⟨_, rfl⟩

theorem rebuilt_appendScript (other s : Script) : Rebuilt s ((appendScript other).run s).state := by
  by_cases h : other.data = []
  · rw [run_appendScript_of_nil h]; exact .inl rfl
  · rw [run_appendScript h]; exact .inr ⟨_, rfl⟩

theorem rebuilt_retain (keep : Chunk → Bool) (s : Script) : Rebuilt s ((retain keep).run s).state := by
  by_cases h : s.chunks.length - (s.chunks.filter keep).length = 0
  · rw [run_retain_of_none h]; exact .inl rfl
  · refine .inr ⟨serialize (s.chunks.filter keep), ?_⟩
    rw [run_retain_of_some h]
    cases hbytes : decodeAll (serialize (s.chunks.filter keep)) with
    | ok chunks => rw [Action.run_bind_ok (run_rebuild_ok hbytes s), run_rebuild_ok hbytes]; rfl
    | error cause => rw [Action.run_bind_error (run_rebuild_error hbytes s), run_rebuild_error hbytes]

theorem rebuilt_deleteData (payload : Bytes) (s : Script) : Rebuilt s ((deleteData payload).run s).state := by
  rw [deleteData]
  split
  · exact .inl rfl
  · exact rebuilt_retain _ s

theorem rebuilt_deleteOpcode (op : UInt8) (s : Script) : Rebuilt s ((deleteOpcode op).run s).state :=
  rebuilt_retain _ s

end CoinScript.Script
