/-
Nesting of conditionals. The depth of nesting at a place of a script can be read off the operations
before it, and wherever a walk comes, so many conditionals are open. The conditionals that were open
before a well nested walk are never touched by it: if all of them are taken, the walk goes as it would
without them; if one of them is not, nothing is done but open, turn and close conditionals inside.

The proofs go from the single operation to the walk. An operation either follows the flow, wherever it
stands, or is done where every open branch is taken; what is done there never looks at the conditionals.
-/
import CoinScript.Proofs.Machine.Commands
import CoinScript.Proofs.Machine.Stackwise
import CoinScript.Proofs.Machine.Walk

namespace CoinScript

open CoinScript.Action

/-! ## Depth -/

/-- The flow instruction that an operation is. -/
def Operation.flow? : Operation → Option Flow
  | opcode op => Flow.ofByte? op
  | push _ _ => none

/-- The depth behind a flow instruction. At depth zero nothing can be turned or closed. -/
def Flow.depthAfter? : Flow → (depth : Nat) → Option Nat
  | ifTrue, depth | ifFalse, depth => some (depth + 1)
  | otherwise, depth + 1 => some (depth + 1)
  | endIf, depth + 1 => some depth
  | otherwise, 0 | endIf, 0 => none

/-- The depth behind an operation. -/
def Operation.depthAfter? (op : Operation) (depth : Nat) : Option Nat :=
  match op.flow? with
  | some f => f.depthAfter? depth
  | none => some depth

/-- The depth behind operations. -/
def depthAfter? (depth : Nat) (ops : List Operation) : Option Nat :=
  ops.foldlM (fun depth op => op.depthAfter? depth) depth

/-- Every conditional that is turned or closed was opened by the operations, and every one that was
opened is closed. -/
def WellNested (ops : List Operation) : Prop := depthAfter? 0 ops = some 0

instance : DecidablePred WellNested := fun _ => inferInstanceAs (Decidable (_ = _))

theorem depthAfter?_cons {depth after : Nat} {op : Operation} {ops : List Operation} :
    depthAfter? depth (op :: ops) = some after ↔
      ∃ between, op.depthAfter? depth = some between ∧ depthAfter? between ops = some after := by
  rw [depthAfter?, List.foldlM_cons]
  exact Option.bind_eq_some_iff

theorem depthAfter?_append (depth : Nat) (ops more : List Operation) :
    depthAfter? depth (ops ++ more) = (depthAfter? depth ops).bind fun between => depthAfter? between more :=
  List.foldlM_append

namespace Machine

variable {rules : Rules} {m m' : Machine} {outer : List Bool} {u : Unit}

/-! ## Conditionals around others -/

/-- The machine with its conditionals replaced. -/
def withConditions (conditions : List Bool) (m : Machine) : Machine := { m with conditions := conditions }

/-- The machine with other conditionals open around its own. -/
def within (outer : List Bool) (m : Machine) : Machine := m.withConditions (m.conditions ++ outer)

theorem isExecuting_within : (m.within outer).isExecuting = (m.isExecuting && outer.all id) :=
  List.all_append

/-- An action on the stack never looks at the conditionals. -/
theorem Stackwise.commutes {asked noted : Prop} {α : Type} {x : Exec Machine α} (h : Stackwise rules asked noted x)
    (conditions : List Bool) : Commutes (withConditions conditions) x := by
  induction h with
  | pure a => exact commutes_pure
  | bind _ _ ihx ihf => exact ihx.bind ihf
  | fail e => exact commutes_fail
  | remark _ r => exact commutes_report
  | push element =>
    exact .get_bind (fun _ => rfl) fun _ => commutes_require.bind fun _ =>
      commutes_require.bind fun _ => commutes_modify fun _ => rfl
  | pop =>
    refine .get_bind (fun _ => rfl) fun m => ?_
    split
    · exact commutes_fail
    · exact .bind (commutes_modify fun _ => rfl) fun _ => commutes_pure
  | peek depth =>
    refine .get_bind (fun _ => rfl) fun m => ?_
    split
    · exact commutes_fail
    · exact commutes_pure
  | swap =>
    refine .get_bind (fun _ => rfl) fun m => ?_
    split
    · exact commutes_modify fun _ => rfl
    · exact commutes_fail
  | depth =>
    exact .get_bind (fun _ => rfl) fun _ => .get_bind (fun _ => rfl) fun _ =>
      commutes_require.bind fun _ => commutes_require.bind fun _ => commutes_modify fun _ => rfl
  | checkSignature _ signature key =>
    exact .get_bind (fun _ => rfl) fun _ => commutes_report.bind fun _ => commutes_pure

/-- It leaves the conditionals as they are. -/
theorem Stackwise.conditions_eq {asked noted : Prop} {α : Type} {x : Exec Machine α}
    (h : Stackwise rules asked noted x) (m : Machine) : (x.run m).state.conditions = m.conditions := by
  -- giving the machine the conditionals that it has changes nothing
  have hsame := h.commutes m.conditions m
  exact congrArg (fun o => o.state.conditions) hsame

theorem Stackwise.run_within {asked noted : Prop} {α : Type} {x : Exec Machine α}
    (h : Stackwise rules asked noted x) (m : Machine) (outer : List Bool) :
    x.run (m.within outer) = onState (within outer) (x.run m) := by
  rw [within, h.commutes, onState, onState, within, h.conditions_eq]

/-! ## Flow -/

theorem run_openBranch_of_idle (h : m.isExecuting = false) (takenOn : Bool) :
    (openBranch takenOn).run m = ⟨.ok (), m.withConditions (false :: m.conditions), []⟩ := by
  rw [openBranch, run_bind_ok (run_get m), h]
  rfl

theorem run_openBranch_nil (h : m.isExecuting = true) (hstack : m.stack = []) (takenOn : Bool) :
    (openBranch takenOn).run m = ⟨.error .stackUnderflow, m, []⟩ := by
  rw [openBranch, run_bind_ok (run_get m)]
  simp only [h, if_true]
  rw [run_bind_error (run_pop_nil hstack)]
  rfl

theorem run_openBranch_cons {element : Bytes} {rest : List Bytes} (h : m.isExecuting = true)
    (hstack : m.stack = element :: rest) (takenOn : Bool) :
    (openBranch takenOn).run m =
      ⟨.ok (), { m with stack := rest, conditions := (Truth.ofBytes element == takenOn) :: m.conditions }, []⟩ := by
  rw [openBranch, run_bind_ok (run_get m)]
  simp only [h, if_true]
  rw [run_bind_ok (run_pop_cons hstack)]
  rfl

theorem run_otherwise_nil (h : m.conditions = []) :
    (follow .otherwise).run m = ⟨.error .unbalancedConditional, m, []⟩ := by
  rw [follow, run_bind_ok (run_get m), h]
  rfl

theorem run_otherwise_cons {taken : Bool} {rest : List Bool} (h : m.conditions = taken :: rest) :
    (follow .otherwise).run m = ⟨.ok (), m.withConditions ((!taken) :: rest), []⟩ := by
  rw [follow, run_bind_ok (run_get m), h]
  rfl

theorem run_endIf_nil (h : m.conditions = []) :
    (follow .endIf).run m = ⟨.error .unbalancedConditional, m, []⟩ := by
  rw [follow, run_bind_ok (run_get m), h]
  rfl

theorem run_endIf_cons {taken : Bool} {rest : List Bool} (h : m.conditions = taken :: rest) :
    (follow .endIf).run m = ⟨.ok (), m.withConditions rest, []⟩ := by
  rw [follow, run_bind_ok (run_get m), h]
  rfl

theorem within_nil (m : Machine) : m.within [] = m := by
  rw [within, List.append_nil, withConditions]

/-- A conditional that is turned or closed inside is so whatever stands around. -/
theorem run_follow_inside {f : Flow} {after : Nat} (hf : f = .otherwise ∨ f = .endIf)
    (hdepth : f.depthAfter? m.conditions.length = some after) :
    ∃ inner, inner.length = after ∧
      ∀ outer, (follow f).run (m.within outer) = ⟨.ok (), (m.withConditions inner).within outer, []⟩ := by
  cases hconditions : m.conditions with
  | nil =>
    rw [hconditions] at hdepth
    rcases hf with rfl | rfl <;> cases hdepth
  | cons taken rest =>
    have hwithin : ∀ outer, (m.within outer).conditions = taken :: (rest ++ outer) := fun outer => by
      rw [within, hconditions]
      rfl
    rw [hconditions] at hdepth
    rcases hf with rfl | rfl
    · refine ⟨(!taken) :: rest, Option.some.inj hdepth, fun outer => ?_⟩
      rw [run_otherwise_cons (hwithin outer)]
      rfl
    · refine ⟨rest, Option.some.inj hdepth, fun outer => ?_⟩
      rw [run_endIf_cons (hwithin outer)]
      rfl

/-! ## Operations -/

theorem handle_of_flow {op : Operation} {f : Flow} (h : op.flow? = some f) :
    (context rules).handle op = follow f := by
  cases op with
  | push lead payload => cases h
  | opcode byte =>
    rw [Operation.flow?] at h
    show execOpcode rules byte = follow f
    rw [execOpcode, Instruction.ofByte, h]

/-- An operation that is no flow instruction works on the stack where every open branch is taken, alike
under other limits. -/
theorem alike_of_no_flow (rules : Rules) (limits : Limits) {counted : Prop} {op : Operation}
    (h : op.flow? = none) (hdepth : op.asksDepth = true → counted) :
    ∃ x x', Alike rules limits True counted True x x' ∧ (context rules).handle op = whenExecuting x ∧
      (context (withLimits rules limits)).handle op = whenExecuting x' := by
  cases op with
  | push lead payload => exact ⟨_, _, .push payload, rfl, rfl⟩
  | opcode byte =>
    rw [Operation.flow?] at h
    have hcommand : Instruction.ofByte byte = .command (.ofByte byte) := by rw [Instruction.ofByte, h]
    rw [Operation.asksDepth, Operation.does_opcode hcommand] at hdepth
    have hhandle : ∀ r : Rules, (context r).handle (.opcode byte) =
        whenExecuting (perform r byte (.ofByte byte)) := fun r => by
      show execOpcode r byte = _
      rw [execOpcode, hcommand]
    exact ⟨_, _, alike_perform byte (fun _ => trivial) hdepth fun _ => trivial, hhandle _, hhandle _⟩

theorem handle_of_no_flow {op : Operation} (h : op.flow? = none) :
    ∃ x, Stackwise rules True True x ∧ (context rules).handle op = whenExecuting x := by
  obtain ⟨x, _, hx, hhandle, -⟩ := alike_of_no_flow rules rules.limits h fun _ => True.intro
  exact ⟨x, hx.stackwise, hhandle⟩

/-- After an operation as many conditionals are open as its depth says. -/
theorem depthAfter?_of_yields_handle {op : Operation} (h : ((context rules).handle op).Yields m u m') :
    op.depthAfter? m.conditions.length = some m'.conditions.length := by
  rw [Operation.depthAfter?]
  cases hflow : op.flow? with
  | none =>
    obtain ⟨x, hx, hhandle⟩ := handle_of_no_flow hflow
    rw [hhandle, yields_whenExecuting] at h
    split at h
    · have hsame := hx.conditions_eq m
      rw [h.2] at hsame
      rw [hsame]
    · rw [h]
  | some f =>
    rw [handle_of_flow hflow] at h
    cases f with
    | ifTrue | ifFalse =>
      cases hexec : m.isExecuting with
      | false =>
        obtain ⟨-, rfl⟩ := (yields_of_run (run_openBranch_of_idle hexec _)).unique h
        rfl
      | true =>
        cases hstack : m.stack with
        | nil => exact absurd h (not_yields_of_run (run_openBranch_nil hexec hstack _))
        | cons element rest =>
          obtain ⟨-, rfl⟩ := (yields_of_run (run_openBranch_cons hexec hstack _)).unique h
          rfl
    | otherwise =>
      cases hconditions : m.conditions with
      | nil => exact absurd h (not_yields_of_run (run_otherwise_nil hconditions))
      | cons taken rest =>
        obtain ⟨-, rfl⟩ := (yields_of_run (run_otherwise_cons hconditions)).unique h
        rfl
    | endIf =>
      cases hconditions : m.conditions with
      | nil => exact absurd h (not_yields_of_run (run_endIf_nil hconditions))
      | cons taken rest =>
        obtain ⟨-, rfl⟩ := (yields_of_run (run_endIf_cons hconditions)).unique h
        rfl

/-- Conditionals around that are all taken make no difference to an operation that does not close or
turn them. -/
theorem run_handle_within {op : Operation} {after : Nat} (houter : outer.all id = true)
    (hdepth : op.depthAfter? m.conditions.length = some after) :
    ((context rules).handle op).run (m.within outer) =
      onState (within outer) (((context rules).handle op).run m) := by
  have hsame : (m.within outer).isExecuting = m.isExecuting := by
    rw [isExecuting_within, houter, Bool.and_true]
  rw [Operation.depthAfter?] at hdepth
  cases hflow : op.flow? with
  | none =>
    obtain ⟨x, hx, hhandle⟩ := handle_of_no_flow hflow
    rw [hhandle]
    cases hexec : m.isExecuting with
    | false =>
      rw [run_whenExecuting_of_idle hexec, run_whenExecuting_of_idle (hsame.trans hexec)]
      rfl
    | true => rw [run_whenExecuting hexec, run_whenExecuting (hsame.trans hexec), hx.run_within]
  | some f =>
    rw [handle_of_flow hflow]
    rw [hflow] at hdepth
    cases f with
    | ifTrue | ifFalse =>
      cases hexec : m.isExecuting with
      | false =>
        rw [follow, run_openBranch_of_idle hexec, run_openBranch_of_idle (hsame.trans hexec)]
        rfl
      | true =>
        cases hstack : m.stack with
        | nil =>
          rw [follow, run_openBranch_nil hexec hstack, run_openBranch_nil (hsame.trans hexec) hstack]
          rfl
        | cons element rest =>
          rw [follow, run_openBranch_cons hexec hstack, run_openBranch_cons (hsame.trans hexec) hstack]
          rfl
    | otherwise | endIf =>
      obtain ⟨inner, -, hinside⟩ := run_follow_inside (by simp) hdepth
      have halone := hinside []
      rw [within_nil, within_nil] at halone
      rw [halone, hinside outer]
      rfl

/-- Within a conditional that is not taken an operation changes the conditionals inside and nothing
else. -/
theorem run_handle_skipped {op : Operation} {after : Nat} (houter : outer.all id = false)
    (hdepth : op.depthAfter? m.conditions.length = some after) :
    ∃ inner, inner.length = after ∧ ((context rules).handle op).run (m.within outer) =
      ⟨.ok (), (m.withConditions inner).within outer, []⟩ := by
  have hidle : (m.within outer).isExecuting = false := by
    rw [isExecuting_within, houter, Bool.and_false]
  rw [Operation.depthAfter?] at hdepth
  cases hflow : op.flow? with
  | none =>
    obtain ⟨x, -, hhandle⟩ := handle_of_no_flow hflow
    rw [hflow] at hdepth
    refine ⟨m.conditions, Option.some.inj hdepth, ?_⟩
    rw [hhandle, run_whenExecuting_of_idle hidle]
    rfl
  | some f =>
    rw [handle_of_flow hflow]
    rw [hflow] at hdepth
    cases f with
    | ifTrue | ifFalse =>
      refine ⟨false :: m.conditions, Option.some.inj hdepth, ?_⟩
      rw [follow, run_openBranch_of_idle hidle]
      rfl
    | otherwise | endIf =>
      obtain ⟨inner, hlen, hinside⟩ := run_follow_inside (by simp) hdepth
      exact ⟨inner, hlen, hinside outer⟩

/-! ## Walks -/

/-- After a walk as many conditionals are open as its depth says. -/
theorem depthAfter?_of_yields_walk {ops : List Operation} (h : ((context rules).walk ops).Yields m u m') :
    depthAfter? m.conditions.length ops = some m'.conditions.length := by
  induction ops generalizing m with
  | nil =>
    obtain ⟨-, rfl⟩ := yields_pure.1 h
    rfl
  | cons op ops ih =>
    rw [Context.walk_cons, yields_unit_bind] at h
    obtain ⟨between, hop, hops⟩ := h
    exact depthAfter?_cons.2 ⟨_, depthAfter?_of_yields_handle hop, ih hops⟩

/-- Conditionals around that are all taken make no difference to a walk that keeps to its own. -/
theorem run_walk_within {ops : List Operation} {after : Nat} (houter : outer.all id = true)
    (hdepth : depthAfter? m.conditions.length ops = some after) :
    ((context rules).walk ops).run (m.within outer) =
      onState (within outer) (((context rules).walk ops).run m) := by
  induction ops generalizing m with
  | nil => rfl
  | cons op ops ih =>
    obtain ⟨between, hop, hops⟩ := depthAfter?_cons.1 hdepth
    have hstep : ((context rules).handle op).run (m.within outer) = _ := run_handle_within houter hop
    rw [Context.walk_cons]
    rcases hrun : ((context rules).handle op).run m with ⟨e | ⟨⟩, m', reports⟩ <;> rw [hrun] at hstep
    · rw [run_bind_error hrun, run_bind_error hstep]
      rfl
    · -- as many conditionals are open inside as the depth between the two says
      have hlen := depthAfter?_of_yields_handle (yields_of_run hrun)
      rw [hop] at hlen
      rw [Option.some.inj hlen] at hops
      rw [run_bind_ok hrun, run_bind_ok hstep, ih hops]
      rfl

/-- Within a conditional that is not taken a walk that keeps to its own conditionals does nothing else. -/
theorem run_walk_skipped {ops : List Operation} {after : Nat} (houter : outer.all id = false)
    (hdepth : depthAfter? m.conditions.length ops = some after) :
    ∃ inner, inner.length = after ∧ ((context rules).walk ops).run (m.within outer) =
      ⟨.ok (), (m.withConditions inner).within outer, []⟩ := by
  induction ops generalizing m with
  | nil => exact ⟨m.conditions, Option.some.inj hdepth, rfl⟩
  | cons op ops ih =>
    obtain ⟨between, hop, hops⟩ := depthAfter?_cons.1 hdepth
    obtain ⟨inner, rfl, hstep⟩ := run_handle_skipped houter hop
    obtain ⟨inner', hlen, hrest⟩ := ih (m := m.withConditions inner) hops
    refine ⟨inner', hlen, ?_⟩
    rw [Context.walk_cons, run_bind_ok hstep, hrest]
    rfl

end Machine

end CoinScript
