/-
What can be built. Appending opcodes and data to the empty script, whether every call succeeds or not, gives
scripts whose operations can all be appended: opcodes other than the invalid one, and pushes of data that are not
empty in their shortest form. That is the invariant of building. The other way round, operations of that kind are
appended one by one as they are, so each well-formed list of them is built by its own replay.
-/
import CoinScript.Proofs.Codec.Forms
import CoinScript.Proofs.Script.Operations

namespace CoinScript

/-- The operation is one that a call can append: an opcode other than the invalid one, or a push of data that are
not empty which takes the shortest form. -/
def Operation.Appendable : Operation → Prop
  | opcode op => op ≠ Op.invalid
  | push lead payload => payload ≠ [] ∧ (push lead payload).Shortest

instance : DecidablePred Operation.Appendable
  | .opcode op => inferInstanceAs (Decidable (op ≠ Op.invalid))
  | .push lead payload => inferInstanceAs (Decidable (payload ≠ [] ∧ (Operation.push lead payload).Shortest))

namespace Script

variable {s : Script} {op : Operation}

/-! ## Building and replaying -/

/-- The scripts that calls build from the empty one, whether they succeed or are rejected. -/
inductive Built : Script → Prop where
  | empty : Built .empty
  | appendOpcode {s : Script} (op : UInt8) : Built s → Built ((appendOpcode op).run s).state
  | appendData {s : Script} (payload : Bytes) : Built s → Built ((appendData payload).run s).state

/-- The call that appends an operation. -/
def appendOperation : Operation → Edit Unit
  | .opcode op => appendOpcode op
  | .push _ payload => appendData payload

/-- Appends operations one by one, up to the first call that fails. -/
def replay : List Operation → Edit Unit
  | [] => pure ()
  | op :: ops => do
    appendOperation op
    replay ops

theorem Built.reachable (h : Built s) : Reachable s := by
  induction h with
  | empty => exact .empty
  | appendOpcode op _ ih => exact .appendOpcode op ih
  | appendData payload _ ih => exact .appendData payload ih

theorem Built.appendOperation (h : Built s) (op : Operation) : Built ((appendOperation op).run s).state := by
  cases op with
  | opcode op => exact .appendOpcode op h
  | push lead payload => exact .appendData payload h

/-! ## What is built can be appended -/

theorem Coherent.operations_of_error (h : Coherent s) (appending : Appending) {cause : ScriptError}
    (hfail : (appending.edit.run s).result = .error cause) :
    (appending.edit.run s).state.operations = s.operations := by
  rw [operations, (h.keeps_of_error hfail).1, operations]

theorem Coherent.appendable_appendOpcode (h : Coherent s) (hs : ∀ op ∈ s.operations, op.Appendable) (op : UInt8) :
    ∀ op' ∈ ((appendOpcode op).run s).state.operations, op'.Appendable := by
  cases hresult : ((appendOpcode op).run s).result with
  | error cause =>
    have hkept : ((appendOpcode op).run s).state.operations = s.operations :=
      h.operations_of_error (.opcode op) hresult
    rwa [hkept]
  | ok u =>
    -- only an opcode that stands by itself gets this far
    rw [h.result_appendOpcode] at hresult
    split_ifs at hresult with hbad hdirect
    have hop : isUnappendable op = false := Bool.eq_false_iff.2 fun hun => hbad (isUnappendable_iff.1 hun)
    rw [h.operations_appendOpcode hop hdirect, List.forall_mem_append, List.forall_mem_singleton]
    exact ⟨hs, fun hinvalid => hbad (.inr hinvalid)⟩

theorem Coherent.appendable_appendData (h : Coherent s) (hs : ∀ op ∈ s.operations, op.Appendable) (payload : Bytes) :
    ∀ op' ∈ ((appendData payload).run s).state.operations, op'.Appendable := by
  cases hresult : ((appendData payload).run s).result with
  | error cause =>
    have hkept : ((appendData payload).run s).state.operations = s.operations :=
      h.operations_of_error (.data payload) hresult
    rwa [hkept]
  | ok u =>
    rw [h.result_appendData] at hresult
    split_ifs at hresult with hne hlarge
    have hroom := Nat.not_lt.1 hlarge
    have hshortest := Operation.shortest_operation hroom
    rw [PushForm.operation_of_ne_nil hroom hne] at hshortest
    rw [h.operations_appendData hne hroom, List.forall_mem_append, List.forall_mem_singleton,
      PushForm.operation_of_ne_nil hroom hne]
    exact ⟨hs, hne, hshortest⟩

/-- Building keeps the invariant: every operation is one that a call can append. -/
theorem Built.appendable (h : Built s) : ∀ op ∈ s.operations, op.Appendable := by
  induction h with
  | empty => exact fun op hop => absurd hop (List.not_mem_nil)
  | appendOpcode op hbuilt ih => exact hbuilt.reachable.coherent.appendable_appendOpcode ih op
  | appendData payload hbuilt ih => exact hbuilt.reachable.coherent.appendable_appendData ih payload

/-! ## What can be appended is built -/

theorem Coherent.run_appendOperation (h : Coherent s) (hwf : op.WellFormed) (happendable : op.Appendable) :
    ∃ after, (Script.appendOperation op).run s = ⟨.ok (), after, []⟩ ∧ after.operations = s.operations ++ [op] := by
  cases op with
  | opcode op =>
    obtain ⟨hlead, hdirect⟩ := (Operation.wellFormed_opcode_iff op).1 hwf
    have hop : isUnappendable op = false := by
      rw [Bool.eq_false_iff, Ne, isUnappendable_iff, hlead]
      rintro (hfield | hinvalid)
      · cases hfield
      · exact happendable hinvalid
    exact ⟨_, h.run_appendOpcode_of_opcode hop hdirect, List.map_append⟩
  | push lead payload =>
    obtain ⟨hne, hshortest⟩ := happendable
    have hrun := h.run_appendData_of_le hne (Operation.length_le_of_wellFormed hwf)
    rw [(Operation.shortest_push_iff hwf).1 hshortest] at hrun
    exact ⟨_, hrun, List.map_append⟩

/-- Operations that calls can append are appended as they are, one after the other. -/
theorem Built.run_replay (h : Built s) {ops : List Operation} (hwf : ∀ op ∈ ops, op.WellFormed)
    (happendable : ∀ op ∈ ops, op.Appendable) :
    ∃ after, (replay ops).run s = ⟨.ok (), after, []⟩ ∧ Built after ∧ after.operations = s.operations ++ ops := by
  induction ops generalizing s with
  | nil => exact ⟨s, rfl, h, (List.append_nil _).symm⟩
  | cons op ops ih =>
    rw [List.forall_mem_cons] at hwf happendable
    obtain ⟨middle, hfirst, hmiddle⟩ := h.reachable.coherent.run_appendOperation hwf.1 happendable.1
    have hbuilt : Built middle := by
      have hstep := h.appendOperation op
      rwa [hfirst] at hstep
    obtain ⟨after, hrest, hafter, hops⟩ := ih hbuilt hwf.2 happendable.2
    refine ⟨after, ?_, hafter, ?_⟩
    · rw [replay, Action.run_bind_ok hfirst, hrest]
      rfl
    · rw [hops, hmiddle, List.append_assoc, List.singleton_append]

/-! ## The image of building -/

/-- The bytes of what is built from the empty script, by calls that succeed or are rejected, are exactly the bytes
that parse to opcodes other than the invalid one and to pushes of data that are not empty in their shortest form.
Replaying such operations one by one succeeds at every step and gives the same bytes and the same chunks. -/
theorem built_iff_appendable (bytes : Bytes) :
    ((∃ s, Built s ∧ s.data = bytes) ↔
        ∃ parsed, parse bytes = .ok parsed ∧ ∀ op ∈ parsed.operations, op.Appendable) ∧
      ∀ parsed, parse bytes = .ok parsed → (∀ op ∈ parsed.operations, op.Appendable) →
        (∀ before op after, parsed.operations = before ++ op :: after →
          ((replay before).run .empty).result = .ok () ∧
            ((appendOperation op).run ((replay before).run .empty).state).result = .ok ()) ∧
          ((replay parsed.operations).run .empty).result = .ok () ∧
          ((replay parsed.operations).run .empty).state.data = bytes ∧
          ((replay parsed.operations).run .empty).state.chunks = parsed.chunks := by
  have hreplays : ∀ {parsed : Script}, parse bytes = .ok parsed → (∀ op ∈ parsed.operations, op.Appendable) →
      ∃ after, (replay parsed.operations).run .empty = ⟨.ok (), after, []⟩ ∧ Built after ∧
        after.data = bytes ∧ after.chunks = parsed.chunks := by
    intro parsed hparse happendable
    have hparsed := coherent_of_parse hparse
    obtain ⟨after, hrun, hbuilt, hops⟩ := Built.empty.run_replay hparsed.wellFormed happendable
    obtain ⟨hchunks, hdata⟩ := hbuilt.reachable.coherent.eq_of_operations hparsed hops
    exact ⟨after, hrun, hbuilt, hdata.trans (data_of_parse hparse), hchunks⟩
  refine ⟨⟨?_, ?_⟩, fun parsed hparse happendable => ⟨?_, ?_⟩⟩
  · rintro ⟨s, hbuilt, rfl⟩
    have hcoherent := hbuilt.reachable.coherent
    refine ⟨ofOperations s.operations, ?_, ?_⟩
    · rw [hcoherent.data_eq_flatMap]
      exact parse_eq_ofOperations hcoherent.wellFormed
    · rw [operations_ofOperations]
      exact hbuilt.appendable
  · rintro ⟨parsed, hparse, happendable⟩
    obtain ⟨after, -, hbuilt, hdata, -⟩ := hreplays hparse happendable
    exact ⟨after, hbuilt, hdata⟩
  · intro before op after hsplit
    have hwf := (coherent_of_parse hparse).wellFormed
    rw [hsplit, List.forall_mem_append, List.forall_mem_cons] at hwf happendable
    obtain ⟨s, hrun, hbuilt, -⟩ := Built.empty.run_replay hwf.1 happendable.1
    obtain ⟨next, hnext, -⟩ := hbuilt.reachable.coherent.run_appendOperation hwf.2.1 happendable.2.1
    rw [hrun, hnext]
    exact ⟨rfl, rfl⟩
  · obtain ⟨after, hrun, -, hdata, hchunks⟩ := hreplays hparse happendable
    rw [hrun]
    exact ⟨rfl, hdata, hchunks⟩

/-- An opcode, a push of one byte and the opcode that pushes nothing are built by their replay; a push of one byte
behind a length field is not built. -/
theorem built_iff_appendable_of_pushes :
    let ops : List Operation := [.opcode 0x76, .push 0x01 [0xaa], .opcode 0x00]
    (∃ s, Built s ∧ s.data = [0x76, 0x01, 0xaa, 0x00]) ∧
      ((replay ops).run .empty).result = .ok () ∧
      ((replay ops).run .empty).state.data = [0x76, 0x01, 0xaa, 0x00] ∧
      ¬ ∃ s, Built s ∧ s.data = [0x4c, 0x01, 0xaa] := by
  intro ops
  have hwf : ∀ op ∈ ops, op.WellFormed := by decide
  have hparse : parse [0x76, 0x01, 0xaa, 0x00] = .ok (ofOperations ops) := parse_eq_ofOperations hwf
  have happendable : ∀ op ∈ (ofOperations ops).operations, op.Appendable := by
    rw [operations_ofOperations]
    decide
  obtain ⟨hbuilt, hreplay⟩ := built_iff_appendable [0x76, 0x01, 0xaa, 0x00]
  obtain ⟨-, hresult, hdata, -⟩ := hreplay _ hparse happendable
  refine ⟨hbuilt.2 ⟨_, hparse, happendable⟩, hresult, hdata, ?_⟩
  rintro hlonger
  obtain ⟨parsed, hparsed, hall⟩ := (built_iff_appendable [0x4c, 0x01, 0xaa]).1.1 hlonger
  have hwf' : ∀ op ∈ [Operation.push 0x4c [0xaa]], op.WellFormed := by decide
  cases (parse_eq_ofOperations hwf').symm.trans hparsed
  rw [operations_ofOperations, List.forall_mem_singleton] at hall
  exact absurd hall (by decide)

end Script

end CoinScript
