/-
Regions that are skipped. As long as some open branch is not taken, a well nested region of a script is inert: all of it
is handed over, and nothing comes of it. On the way conditionals are opened, turned and closed, but always in front of
those that were open before, as many as the operations so far are deep; so the branch that is not taken stays where it
is, and at the end of the region the machine is what it was.

The induction is over the chunks, with the conditionals inside the region apart from those around it.
-/
import CoinScript.Digest.Standard
import CoinScript.Proofs.Machine.Checks
import CoinScript.Proofs.Machine.Nesting

namespace CoinScript

open CoinScript.Action

/-- What is said before each of some chunks is handed over, the first of them under the number `i`. -/
def Context.announcing (i : Nat) (chunks : List Chunk) : List Event :=
  (chunks.zipIdx i).map fun entry => dispatching entry.2 entry.1

theorem Context.checks_announcing (i : Nat) (chunks : List Chunk) : Event.checks (announcing i chunks) = [] := by
  unfold Event.checks
  rw [List.filterMap_eq_nil_iff]
  intro w hw
  obtain ⟨entry, -, rfl⟩ := List.mem_map.1 hw
  rfl

theorem WellNested.exists_depthAfter?_take {ops : List Operation} (h : WellNested ops) (k : Nat) :
    ∃ depth, depthAfter? 0 (ops.take k) = some depth := by
  rw [WellNested, ← List.take_append_drop k ops, depthAfter?_append] at h
  obtain ⟨depth, hdepth, -⟩ := Option.bind_eq_some_iff.1 h
  exact ⟨depth, hdepth⟩

namespace Machine

variable {rules : Rules} {m : Machine} {outer : List Bool} {chunks : List Chunk}

/-- Within a conditional that is not taken a dispatch that keeps to its own conditionals announces its chunks and
does nothing else. -/
theorem run_dispatch_skipped {after : Nat} (houter : outer.all id = false)
    (hdepth : depthAfter? m.conditions.length (chunks.map Chunk.operation) = some after) (i : Nat) :
    ∃ inner, inner.length = after ∧ ((context rules).dispatch i chunks).run (m.within outer) =
      ⟨.ok (), (m.withConditions inner).within outer, Context.announcing i chunks⟩ := by
  induction chunks generalizing m i with
  | nil => exact ⟨m.conditions, Option.some.inj hdepth, rfl⟩
  | cons c rest ih =>
    rw [List.map_cons] at hdepth
    obtain ⟨between, hop, hrest⟩ := depthAfter?_cons.1 hdepth
    obtain ⟨inner, rfl, hstep⟩ := run_handle_skipped houter hop
    obtain ⟨inner', hlen, hgoOn⟩ := ih (m := m.withConditions inner) hrest (i + 1)
    refine ⟨inner', hlen, ?_⟩
    unfold Context.dispatch
    rw [run_bind_ok (run_report _ _), run_bind_ok (run_reportingFailure_ok _ hstep), hgoOn]
    rfl

theorem run_close_of_open (hopen : m.conditions ≠ []) :
    (context rules).close.run m =
      ⟨.error .unbalancedConditional, m, [Context.leftOpen m.conditions.length]⟩ := by
  have hlen : m.conditions.length ≠ 0 := fun h => hopen (List.length_eq_zero_iff.1 h)
  unfold Context.close
  rw [run_bind_silent (run_get m)]
  simp only [context, hlen, ne_eq, not_false_eq_true, if_true]
  rfl

/-- Where some open branch is not taken, whatever led there, a well nested region is inert. Its dispatch succeeds,
leaves stack, conditionals and script code as they are, checks no signature and reports nothing but the chunks that it
hands over. Before each of them the machine has the conditionals that were open before, behind as many as the
operations so far are deep. Executed by itself the region fails at its end alone, for the conditionals that were open
before it. -/
theorem dispatch_inert_where_untaken (rules : Rules) (m : Machine) (chunks : List Chunk) (i : Nat)
    (huntaken : false ∈ m.conditions) (hnested : WellNested (chunks.map Chunk.operation)) :
    let outcome := ((context rules).dispatch i chunks).run m
    (outcome.result = .ok () ∧ outcome.state = m ∧ Event.checks outcome.reports = [] ∧
      outcome.reports = Context.announcing i chunks) ∧
    (∀ k ≤ chunks.length, ∃ inner, depthAfter? 0 ((chunks.take k).map Chunk.operation) = some inner.length ∧
      (context rules).ComesTo chunks m k (m.withConditions (inner ++ m.conditions))) ∧
    (∀ script : Script, script.chunks = chunks →
      let executed := ((context rules).execute script).run m
      executed.result = .error .unbalancedConditional ∧ executed.state = m ∧ Event.checks executed.reports = []) := by
  intro outcome
  have houter : m.conditions.all id = false := List.all_eq_false.2 ⟨false, huntaken, Bool.false_ne_true⟩
  -- the region from its place inside, where no conditional is open yet
  have hregion (chunks : List Chunk) (i after : Nat)
      (hdepth : depthAfter? 0 (chunks.map Chunk.operation) = some after) :
      ∃ inner, inner.length = after ∧ ((context rules).dispatch i chunks).run m =
        ⟨.ok (), m.withConditions (inner ++ m.conditions), Context.announcing i chunks⟩ :=
    run_dispatch_skipped (m := m.withConditions []) houter hdepth i
  have hwhole (i : Nat) :
      ((context rules).dispatch i chunks).run m = ⟨.ok (), m, Context.announcing i chunks⟩ := by
    obtain ⟨inner, hlen, hrun⟩ := hregion chunks i 0 hnested
    rw [List.length_eq_zero_iff.1 hlen] at hrun
    exact hrun
  refine ⟨?_, fun k hk => ?_, fun script hscript => ?_⟩
  · have houtcome : outcome = ⟨.ok (), m, Context.announcing i chunks⟩ := hwhole i
    rw [houtcome]
    exact ⟨rfl, rfl, Context.checks_announcing i chunks, rfl⟩
  · obtain ⟨depth, hdepth⟩ := hnested.exists_depthAfter?_take k
    rw [← List.map_take] at hdepth
    obtain ⟨inner, rfl, hrun⟩ := hregion (chunks.take k) 0 depth hdepth
    exact ⟨inner, hdepth, hk, yields_of_run hrun⟩
  · intro executed
    have hexecuted : executed = ⟨.error .unbalancedConditional, m,
        Context.announcing 0 chunks ++ [Context.leftOpen m.conditions.length]⟩ := by
      show ((context rules).execute script).run m = _
      unfold Context.execute
      rw [hscript, run_bind_ok (hwhole 0), run_close_of_open (List.ne_nil_of_mem huntaken)]
    rw [hexecuted, Event.checks_append, Context.checks_announcing]
    exact ⟨rfl, rfl, rfl⟩

/-- A region with all that fails elsewhere: an element that is too long, an opcode without a command, one that gives up,
and a conditional that turns twice around another, within a branch that is taken of one that is not. -/
theorem dispatch_inert_where_untaken_of_turning :
    let rules : Rules := { limits := ⟨0, 0⟩, digests := Digests.standard, checker := fun _ _ _ => true }
    let m : Machine := { stack := [[7]], conditions := [true, false], scriptCode := [9] }
    let chunks : List Chunk := [⟨.push 0x02 [5, 5], 0, 3⟩, ⟨.opcode Op.ifTrue, 3, 4⟩, ⟨.opcode Op.otherwise, 4, 5⟩,
      ⟨.opcode Op.ifFalse, 5, 6⟩, ⟨.opcode 0xba, 6, 7⟩, ⟨.opcode Op.endIf, 7, 8⟩, ⟨.opcode Op.otherwise, 8, 9⟩,
      ⟨.opcode Op.ret, 9, 10⟩, ⟨.opcode Op.checkSig, 10, 11⟩, ⟨.opcode Op.endIf, 11, 12⟩]
    let outcome := ((context rules).dispatch 4 chunks).run m
    (false ∈ m.conditions ∧ WellNested (chunks.map Chunk.operation)) ∧
      outcome.result = .ok () ∧ outcome.state = m ∧ Event.checks outcome.reports = [] ∧
      ∃ inner, inner.length = 2 ∧
        (context rules).ComesTo chunks m 4 (m.withConditions (inner ++ [true, false])) := by
  intro rules m chunks outcome
  have huntaken : false ∈ m.conditions := by decide
  have hnested : WellNested (chunks.map Chunk.operation) := by decide
  obtain ⟨⟨hresult, hstate, hchecks, -⟩, hplaces, -⟩ :=
    dispatch_inert_where_untaken rules m chunks 4 huntaken hnested
  obtain ⟨inner, hdepth, hcomes⟩ := hplaces 4 (by decide)
  have hlen : inner.length = 2 := (Option.some.inj hdepth).symm
  exact ⟨⟨huntaken, hnested⟩, hresult, hstate, hchecks, inner, hlen, hcomes⟩

end Machine

end CoinScript
