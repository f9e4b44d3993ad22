/-
Balanced flow. While a script runs, so many conditionals are open as the operations handed over so far are
deep, whichever branches are taken. So a run succeeds only where every conditional that is turned or
closed was opened before and every one that was opened is closed; and it fails for the sake of
conditionals only where that is not so, for no other action has this cause.
-/
import CoinScript.Digest.Standard
import CoinScript.Proofs.Machine.Nesting

namespace CoinScript.Machine

open CoinScript.Action

variable {rules : Rules} {m m' : Machine} {chunks : List Chunk} {k : Nat}

theorem depthAfter?_eq_none_of_handle {op : Operation}
    (h : (((context rules).handle op).run m).result = .error .unbalancedConditional) :
    op.depthAfter? m.conditions.length = none := by
  rw [Operation.depthAfter?]
  cases hflow : op.flow? with
  | none =>
    obtain ⟨x, hx, hhandle⟩ := handle_of_no_flow hflow
    rw [hhandle] at h
    cases hexec : m.isExecuting with
    | false =>
      rw [run_whenExecuting_of_idle hexec] at h
      cases h
    | true =>
      rw [run_whenExecuting hexec] at h
      exact absurd rfl (hx.failsOnly m _ h)
  | some f =>
    rw [handle_of_flow hflow] at h
    cases f with
    | ifTrue | ifFalse =>
      -- opening a conditional lacks nothing but a truth value
      cases hexec : m.isExecuting with
      | false =>
        rw [follow, run_openBranch_of_idle hexec] at h
        cases h
      | true =>
        cases hstack : m.stack with
        | nil =>
          rw [follow, run_openBranch_nil hexec hstack] at h
          cases h
        | cons element rest =>
          rw [follow, run_openBranch_cons hexec hstack] at h
          cases h
    | otherwise =>
      cases hconditions : m.conditions with
      | nil => rfl
      | cons taken outer =>
        rw [run_otherwise_cons hconditions] at h
        cases h
    | endIf =>
      cases hconditions : m.conditions with
      | nil => rfl
      | cons taken outer =>
        rw [run_endIf_cons hconditions] at h
        cases h

theorem depthAfter?_of_comesTo (h : (context rules).ComesTo chunks m k m') :
    depthAfter? m.conditions.length ((chunks.take k).map Chunk.operation) = some m'.conditions.length :=
  depthAfter?_of_yields_walk ((context rules).yields_dispatch_iff_walk.1 h.2)

theorem depthAfter?_eq_none_of_failsAt (h : (context rules).FailsAt chunks m k .unbalancedConditional) :
    depthAfter? m.conditions.length (chunks.map Chunk.operation) = none := by
  obtain ⟨c, m', hc, hcomes, hfails⟩ := h
  obtain ⟨hk, rfl⟩ := List.getElem?_eq_some_iff.1 hc
  rw [← List.take_append_drop k chunks, List.drop_eq_getElem_cons hk, List.map_append, List.map_cons,
    depthAfter?_append, depthAfter?_of_comesTo hcomes]
  show depthAfter? m'.conditions.length (_ :: _) = none
  rw [depthAfter?, List.foldlM_cons, depthAfter?_eq_none_of_handle hfails]
  rfl

/-- While a script runs, the conditionals that are open wherever it comes are as many as the operations so
far are deep; a run that succeeds is of a script with balanced flow and leaves no conditional open; and a
run that fails for the sake of conditionals is of a script without. -/
theorem runScript_balanced (rules : Rules) (script : Script) (m : Machine) :
    let outcome := (runScript rules script).run m
    (∀ k m', (context rules).ComesTo script.chunks (started script m.stack) k m' →
      depthAfter? 0 ((script.chunks.take k).map Chunk.operation) = some m'.conditions.length ∧
      let rest := ((context rules).dispatch k (script.chunks.drop k) >>= fun _ => (context rules).close).run m'
      outcome.result = rest.result ∧ outcome.state = rest.state) ∧
    (outcome.result = .ok () →
      WellNested (script.chunks.map Chunk.operation) ∧ outcome.state.conditions = []) ∧
    (outcome.result = .error .unbalancedConditional →
      ¬ WellNested (script.chunks.map Chunk.operation)) := by
  intro outcome
  have houtcome : outcome = ((context rules).execute script).run (started script m.stack) :=
    run_runScript rules script m
  refine ⟨fun k m' hcomes => ⟨depthAfter?_of_comesTo hcomes, ?_⟩, fun hok => ?_, fun herror => ?_⟩
  · rw [houtcome]
    exact Context.run_execute_of_comesTo hcomes
  · have hyields : (runScript rules script).Yields m () outcome.state := ⟨hok, rfl⟩
    obtain ⟨hdispatch, hclosed⟩ := yields_runScript.1 hyields
    have hdepth := depthAfter?_of_yields_walk ((context rules).yields_dispatch_iff_walk.1 hdispatch)
    rw [hclosed] at hdepth
    exact ⟨hdepth, hclosed⟩
  · rw [houtcome, Context.execute] at herror
    rcases hrun : ((context rules).dispatch 0 script.chunks).run (started script m.stack) with ⟨e | ⟨⟩, m', reports⟩
    -- either a chunk failed, or a conditional was left open
    · rw [run_bind_error hrun] at herror
      cases herror
      obtain ⟨k, hfails⟩ := (Context.result_dispatch_eq_error_iff 0).1 (by rw [hrun])
      have hnone : depthAfter? 0 _ = none := depthAfter?_eq_none_of_failsAt hfails
      rw [WellNested, hnone]
      intro hnested
      cases hnested
    · rw [run_bind_ok hrun] at herror
      have hdepth := depthAfter?_of_yields_walk
        ((context rules).yields_dispatch_iff_walk.1 (yields_of_run hrun))
      have hopen : m'.conditions ≠ [] := by
        intro hclosed
        rw [run_close_nil hclosed] at herror
        cases herror
      intro hnested
      rw [WellNested] at hnested
      have hzero := Option.some.inj (hdepth.symm.trans hnested)
      exact hopen (List.length_eq_zero_iff.1 hzero)

/-- A conditional in a branch that is not taken counts like any other, also after a run that left one open;
a turning point that stands alone is what a run fails for. -/
theorem runScript_balanced_of_skipped_branch :
    let rules : Rules := { digests := Digests.standard, checker := fun _ _ _ => true }
    let m : Machine := { stack := [[]], conditions := [false] }
    let nested : Script := { chunks := [⟨.opcode Op.ifTrue, 0, 1⟩, ⟨.opcode Op.ifFalse, 1, 2⟩,
      ⟨.opcode Op.ret, 2, 3⟩, ⟨.opcode Op.endIf, 3, 4⟩, ⟨.opcode Op.endIf, 4, 5⟩] }
    let turning : Script := { chunks := [⟨.opcode Op.otherwise, 0, 1⟩] }
    let inside : Machine := { stack := [], conditions := [false, false], scriptCode := nested.data }
    ((context rules).ComesTo nested.chunks (started nested m.stack) 2 inside ∧
      ((runScript rules nested).run m).result = .ok () ∧
      ((runScript rules turning).run m).result = .error .unbalancedConditional) ∧
    depthAfter? 0 ((nested.chunks.take 2).map Chunk.operation) = some 2 ∧
    WellNested (nested.chunks.map Chunk.operation) ∧ ((runScript rules nested).run m).state.conditions = [] ∧
    ¬ WellNested (turning.chunks.map Chunk.operation) := by
  intro rules m nested turning inside
  have hcomes : (context rules).ComesTo nested.chunks (started nested m.stack) 2 inside :=
    ⟨by decide, rfl, rfl⟩
  have hok : ((runScript rules nested).run m).result = .ok () := rfl
  have herror : ((runScript rules turning).run m).result = .error .unbalancedConditional := rfl
  obtain ⟨hdepth, hsuccess, -⟩ := runScript_balanced rules nested m
  obtain ⟨-, -, hfailure⟩ := runScript_balanced rules turning m
  obtain ⟨hnested, hclosed⟩ := hsuccess hok
  exact ⟨⟨hcomes, hok, herror⟩, (hdepth 2 inside hcomes).1, hnested, hclosed, hfailure herror⟩

end CoinScript.Machine
