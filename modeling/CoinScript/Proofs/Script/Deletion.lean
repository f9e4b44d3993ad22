/-
Deletions. Deleting data or an opcode takes operations out of a script and leaves the others in their order:
those that stay are well formed, so their bytes decode to them again and no two of them run together. The rest
follows from the operations alone. A deletion takes nothing more the second time; several deletions take the
same operations in whatever order they are made; and of two scripts, one behind the other, a deletion takes
what it takes of each.
-/
import CoinScript.Proofs.Script.Operations

namespace CoinScript.Script

variable {s other : Script}

/-! ## What is deleted -/

/-- What can be deleted from a script. -/
inductive Deletion where
  /-- Every push of the data. -/
  | data (payload : Bytes)
  /-- Every operation that starts with the byte. -/
  | opcode (op : UInt8)

namespace Deletion

/-- The edit that deletes it. -/
def edit : Deletion → Edit Nat
  | data payload => deleteData payload
  | opcode op => deleteOpcode op

/-- The deletion takes the operation: a push of the data in any form, where the data are not empty, or whatever
starts with the byte, a push as well as an opcode. -/
def takes : Deletion → Operation → Bool
  | data payload, op => !payload.isEmpty && op.payload? == some payload
  | opcode byte, op => op.lead == byte

/-- One of the deletions takes the operation. -/
def anyTakes (ds : List Deletion) (op : Operation) : Bool := ds.any fun d => d.takes op

theorem anyTakes_cons (d : Deletion) (ds : List Deletion) (op : Operation) :
    anyTakes (d :: ds) op = (d.takes op || anyTakes ds op) := List.any_cons

/-- Which operations are taken does not depend on the order of the deletions. -/
theorem anyTakes_of_perm {ds ds' : List Deletion} (h : ds.Perm ds') : anyTakes ds = anyTakes ds' :=
  funext fun _ => h.any_eq

/-- Several deletions one after the other, and how many operations they take together. -/
def editAll : List Deletion → Edit Nat
  | [] => pure 0
  | d :: ds => do
    let count ← d.edit
    let more ← editAll ds
    return count + more

end Deletion

/-- What is left of a script without the operations that are taken: the others in their order, and the very
same script if there is none to take. -/
structure Without (takes : Operation → Bool) (before after : Script) : Prop where
  coherent : Coherent after
  operations : after.operations = before.operations.filter fun op => !takes op
  unchanged : before.operations.countP takes = 0 → after = before

theorem without_self (h : Coherent s) {takes : Operation → Bool} (hnone : s.operations.countP takes = 0) :
    Without takes s s where
  coherent := h
  operations := by
    rw [List.countP_eq_zero] at hnone
    rw [eq_comm, List.filter_eq_self]
    intro op hop
    simpa using hnone op hop
  unchanged _ := rfl

theorem Coherent.wellFormed_filter (h : Coherent s) (keep : Operation → Bool) :
    ∀ op ∈ s.operations.filter keep, op.WellFormed :=
  fun op hop => h.wellFormed op (List.mem_of_mem_filter hop)

theorem without_ofOperations (h : Coherent s) {takes : Operation → Bool} (hsome : s.operations.countP takes ≠ 0) :
    Without takes s (ofOperations (s.operations.filter fun op => !takes op)) where
  coherent := coherent_ofOperations (h.wellFormed_filter _)
  operations := operations_ofOperations _
  unchanged hnone := absurd hnone hsome

/-! ## How a deletion runs -/

theorem length_sub_length_filter (s : Script) (takes : Operation → Bool) :
    s.chunks.length - (s.chunks.filter fun c => !takes c.operation).length = s.operations.countP takes := by
  have hsplit := List.length_eq_countP_add_countP (fun c : Chunk => takes c.operation) (l := s.chunks)
  have hkept : (s.chunks.filter fun c => !takes c.operation).length =
      s.chunks.countP fun c => decide ¬ takes c.operation = true := by
    rw [List.countP_eq_length_filter]
    simp
  have htaken : s.operations.countP takes = s.chunks.countP fun c => takes c.operation := List.countP_map
  omega

theorem Coherent.run_retain (h : Coherent s) (takes : Operation → Bool) :
    ∃ after, (retain fun c => !takes c.operation).run s = ⟨.ok (s.operations.countP takes), after, []⟩ ∧
      Without takes s after := by
  have hcount := length_sub_length_filter s takes
  by_cases hnone : s.operations.countP takes = 0
  · refine ⟨s, ?_, without_self h hnone⟩
    rw [run_retain_of_none (by rw [hcount, hnone]), hnone]
  · have hleft := without_ofOperations h hnone
    refine ⟨_, ?_, hleft⟩
    have hbytes : serialize (s.chunks.filter fun c => !takes c.operation) =
        (s.operations.filter fun op => !takes op).flatMap Operation.bytes := by
      rw [serialize_eq_flatMap, operations, List.filter_map]
      rfl
    have hrebuild := run_rebuild_flatMap (h.wellFormed_filter fun op => !takes op) s
    rw [run_retain_of_some (by rwa [hcount]), hcount, hbytes, Action.run_bind_ok hrebuild]
    rfl

theorem edit_eq_retain {d : Deletion} (hd : d ≠ .data []) : d.edit = retain fun c => !d.takes c.operation := by
  cases d with
  | data payload =>
    have hempty : payload.isEmpty = false := by
      cases payload with
      | nil => exact absurd rfl hd
      | cons b bs => rfl
    simp only [Deletion.edit, Deletion.takes, deleteData, hempty]
    rfl
  | opcode op => rfl

theorem run_deleteData_nil (s : Script) : (deleteData []).run s = ⟨.ok 0, s, []⟩ := rfl

/-- A deletion counts the operations that it takes and leaves the script without them. -/
theorem Coherent.run_deletion (h : Coherent s) (d : Deletion) :
    ∃ after, d.edit.run s = ⟨.ok (s.operations.countP d.takes), after, []⟩ ∧ Without d.takes s after := by
  by_cases hd : d = .data []
  · subst hd
    have hnone : s.operations.countP (Deletion.data []).takes = 0 :=
      List.countP_eq_zero.2 fun op _ => Bool.false_ne_true
    refine ⟨s, ?_, without_self h hnone⟩
    rw [hnone]
    exact run_deleteData_nil s
  · rw [edit_eq_retain hd]
    exact h.run_retain d.takes

/-- What one deletion takes and what another takes of the rest is what either of them takes. -/
theorem countP_add_countP_filter {α : Type} (p q : α → Bool) (l : List α) :
    l.countP p + (l.filter fun a => !p a).countP q = l.countP fun a => p a || q a := by
  induction l with
  | nil => rfl
  | cons a l ih =>
    cases hp : p a <;> cases hq : q a <;> simp [hp, hq] <;> omega

theorem Coherent.run_editAll (h : Coherent s) (ds : List Deletion) :
    ∃ after, (Deletion.editAll ds).run s = ⟨.ok (s.operations.countP (Deletion.anyTakes ds)), after, []⟩ ∧
      Without (Deletion.anyTakes ds) s after := by
  induction ds generalizing s with
  | nil =>
    have hnone : s.operations.countP (Deletion.anyTakes []) = 0 :=
      List.countP_eq_zero.2 fun op _ => Bool.false_ne_true
    refine ⟨s, ?_, without_self h hnone⟩
    rw [hnone]
    rfl
  | cons d ds ih =>
    obtain ⟨middle, hfirst, hmiddle⟩ := h.run_deletion d
    obtain ⟨after, hrest, hafter⟩ := ih hmiddle.coherent
    have htakes : Deletion.anyTakes (d :: ds) = fun op => d.takes op || Deletion.anyTakes ds op :=
      funext (Deletion.anyTakes_cons d ds)
    have hcount := countP_add_countP_filter d.takes (Deletion.anyTakes ds) s.operations
    rw [htakes]
    refine ⟨after, ?_, hafter.coherent, ?_, fun hnone => ?_⟩
    · rw [Deletion.editAll, Action.run_bind_ok hfirst, Action.run_bind_ok hrest, ← hcount, hmiddle.operations]
      rfl
    · rw [hafter.operations, hmiddle.operations, List.filter_filter]
      congr 1
      funext op
      rw [Bool.not_or, Bool.and_comm]
    · -- nothing is taken by any, so the first leaves the script alone and the others leave it alone after that
      rw [hnone] at hcount
      rw [hafter.unchanged (by rw [hmiddle.operations]; omega), hmiddle.unchanged (by omega)]

/-! ## What is left -/

theorem Coherent.deletion_again (h : Coherent s) (d : Deletion) :
    d.edit.run (d.edit.run s).state = ⟨.ok 0, (d.edit.run s).state, []⟩ := by
  obtain ⟨after, hrun, hafter⟩ := h.run_deletion d
  obtain ⟨again, hrun', hagain⟩ := hafter.coherent.run_deletion d
  have hnone : after.operations.countP d.takes = 0 := by
    rw [hafter.operations, List.countP_eq_zero]
    intro op hop
    simpa using (List.mem_filter.1 hop).2
  rw [hrun, hrun', hagain.unchanged hnone, hnone]

/-- Of two scripts, one behind the other, a deletion takes what it takes of each. -/
theorem Coherent.deletion_of_appended (h : Coherent s) (hother : Coherent other) (hne : other.chunks ≠ [])
    (d : Deletion) :
    ∃ m n, (d.edit.run s).result = .ok m ∧ (d.edit.run other).result = .ok n ∧
      (d.edit.run ((appendScript other).run s).state).result = .ok (m + n) ∧
      (d.edit.run ((appendScript other).run s).state).state.data =
        (d.edit.run s).state.data ++ (d.edit.run other).state.data := by
  have hjoined : Coherent ((appendScript other).run s).state := h.rebuilt (rebuilt_appendScript other s)
  have hops := h.operations_appendScript hother hne
  obtain ⟨front, hfrontRun, hfront⟩ := h.run_deletion d
  obtain ⟨back, hbackRun, hback⟩ := hother.run_deletion d
  obtain ⟨whole, hwholeRun, hwhole⟩ := hjoined.run_deletion d
  refine ⟨_, _, by rw [hfrontRun], by rw [hbackRun], ?_, ?_⟩
  · rw [hwholeRun, hops, List.countP_append]
  · rw [hwholeRun, hfrontRun, hbackRun]
    show whole.data = front.data ++ back.data
    rw [hwhole.coherent.data_eq_flatMap, hfront.coherent.data_eq_flatMap, hback.coherent.data_eq_flatMap,
      hwhole.operations, hfront.operations, hback.operations, hops, List.filter_append, List.flatMap_append]

/-- Deletions are filters. Deleting empty data does nothing. Any other deletion of a reachable script succeeds
without a remark, counts the operations that it takes and leaves the others in their order, byte for byte and
placed from the start again, so that the same deletion then finds nothing. Several deletions leave the same
bytes and count the same together in whatever order they are made. Of a script with another that has chunks
appended to it, a deletion leaves what it leaves of each, and the counts add up. -/
theorem deletions_are_filters (hs : Reachable s) :
    (deleteData []).run s = ⟨.ok 0, s, []⟩ ∧
      (∀ d : Deletion,
        let outcome := d.edit.run s
        let kept := s.operations.filter fun op => !d.takes op
        outcome.result = .ok (s.operations.countP d.takes) ∧ outcome.reports = [] ∧
          outcome.state.chunks = place 0 kept ∧ outcome.state.data = kept.flatMap Operation.bytes ∧
          d.edit.run outcome.state = ⟨.ok 0, outcome.state, []⟩) ∧
      (∀ ds ds' : List Deletion, ds.Perm ds' →
        let outcome := (Deletion.editAll ds).run s
        let outcome' := (Deletion.editAll ds').run s
        ∃ count, outcome.result = .ok count ∧ outcome'.result = .ok count ∧
          outcome.state.data = outcome'.state.data) ∧
      ∀ other, Reachable other → other.chunks ≠ [] → ∀ d : Deletion,
        let joined := (appendScript other).run s
        joined.result = .ok () ∧ ∃ m n, (d.edit.run s).result = .ok m ∧ (d.edit.run other).result = .ok n ∧
          (d.edit.run joined.state).result = .ok (m + n) ∧
          (d.edit.run joined.state).state.data = (d.edit.run s).state.data ++ (d.edit.run other).state.data := by
  have h := hs.coherent
  refine ⟨run_deleteData_nil s, fun d => ?_, fun ds ds' hperm => ?_, fun other hreach hne d => ?_⟩
  · obtain ⟨after, hrun, hafter⟩ := h.run_deletion d
    have hagain := h.deletion_again d
    rw [hrun] at hagain ⊢
    refine ⟨rfl, rfl, ?_, ?_, hagain⟩
    · rw [hafter.coherent.chunks_eq_place, hafter.operations]
    · rw [hafter.coherent.data_eq_flatMap, hafter.operations]
  · obtain ⟨after, hrun, hafter⟩ := h.run_editAll ds
    obtain ⟨after', hrun', hafter'⟩ := h.run_editAll ds'
    have htakes := Deletion.anyTakes_of_perm hperm
    have hops : after.operations = after'.operations := by
      rw [hafter.operations, hafter'.operations, htakes]
    rw [hrun, hrun']
    exact ⟨_, rfl, by rw [htakes], (hafter.coherent.eq_of_operations hafter'.coherent hops).2⟩
  · have hother := hreach.coherent
    refine ⟨?_, h.deletion_of_appended hother hne d⟩
    rw [h.result_appendScript hother, if_neg hne]

/-- Two pushes of the same byte in different forms are deleted together as data and apart by their lead bytes,
from the script alone and from the script appended to itself. -/
theorem deletions_are_filters_of_two_forms :
    let s := ofDecoded [⟨.push 0x4c [0xaa], 0, 3⟩, ⟨.opcode 0x76, 3, 4⟩, ⟨.push 0x01 [0xaa], 4, 6⟩]
      [0x4c, 0x01, 0xaa, 0x76, 0x01, 0xaa]
    let data := Deletion.data [0xaa]
    let opcode := Deletion.opcode 0x4c
    Reachable s ∧ (data.edit.run s).result = .ok 2 ∧ (data.edit.run s).state.data = [0x76] ∧
      (opcode.edit.run s).result = .ok 1 ∧
      (opcode.edit.run s).state.chunks = [⟨.opcode 0x76, 0, 1⟩, ⟨.push 0x01 [0xaa], 1, 3⟩] ∧
      [data, opcode].Perm [opcode, data] ∧
      ((Deletion.editAll [data, opcode]).run s).state.data = ((Deletion.editAll [opcode, data]).run s).state.data ∧
      (data.edit.run ((appendScript s).run s).state).state.data = [0x76] ++ [0x76] := by
  intro s data opcode
  have hs : Reachable s := .parse (parse_eq_ok_iff.2 ⟨_, decodeAll_eq_ok_iff.2 ⟨by decide, rfl⟩, rfl⟩)
  obtain ⟨-, hfilter, hperm, happended⟩ := deletions_are_filters hs
  obtain ⟨hcount, -, -, hdata, -⟩ := hfilter data
  obtain ⟨hcount', -, hchunks, -, -⟩ := hfilter opcode
  have horder : [data, opcode].Perm [opcode, data] := .swap _ _ _
  obtain ⟨-, -, -, hsame⟩ := hperm _ _ horder
  obtain ⟨-, -, -, -, -, -, hjoined⟩ := happended s hs (List.cons_ne_nil _ _) data
  refine ⟨hs, hcount, hdata, hcount', hchunks, horder, hsame, ?_⟩
  rw [hjoined, hdata]
  rfl

end CoinScript.Script
