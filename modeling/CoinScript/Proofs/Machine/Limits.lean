/-
The limits as an invariant. Elements come onto the stack by a push, which asks for both limits, or were
there before, so wherever a machine comes from an empty stack, its stack is within the limits, also
where a script has failed.
-/
import CoinScript.Proofs.Machine.Stackwise

namespace CoinScript.Machine

open CoinScript.Action

/-- The stack holds no more elements than it may, and none that is too long. -/
structure WithinLimits (limits : Limits) (m : Machine) : Prop where
  items : m.stack.length ≤ limits.items
  elements : ∀ element ∈ m.stack, element.length ≤ limits.element

variable {limits : Limits} {rules : Rules} {asked noted : Prop} {m : Machine}

theorem withinLimits_empty (h : m.stack = []) : WithinLimits limits m := by
  refine ⟨?_, ?_⟩
  · rw [h]
    exact Nat.zero_le _
  · rw [h]
    exact List.forall_mem_nil _

/-- Taking and moving elements brings no new ones. -/
theorem WithinLimits.of_subset {m' : Machine} (h : WithinLimits limits m)
    (hlen : m'.stack.length ≤ m.stack.length) (hmem : ∀ element ∈ m'.stack, element ∈ m.stack) :
    WithinLimits limits m' :=
  ⟨Nat.le_trans hlen h.items, fun element he => h.elements element (hmem element he)⟩

/-- What is below an element was within the limits already. -/
theorem WithinLimits.below {m' : Machine} {element : Bytes} (h : WithinLimits limits m)
    (hstack : m.stack = element :: m'.stack) : WithinLimits limits m' := by
  refine h.of_subset ?_ ?_
  · simp [hstack]
  · intro e he
    rw [hstack]
    exact List.mem_cons_of_mem _ he

theorem keepsLimits_push (element : Bytes) :
    Keeps (WithinLimits limits) (fun _ => True) (push limits element) := by
  intro m hm
  refine ⟨?_, fun _ _ => trivial⟩
  by_cases hsize : element.length ≤ limits.element
  · by_cases hroom : m.stack.length < limits.items
    · rw [run_push hsize hroom]
      exact ⟨hroom, List.forall_mem_cons.2 ⟨hsize, hm.elements⟩⟩
    · rw [run_push_of_full hsize (Nat.not_lt.1 hroom)]
      exact hm
  · rw [run_push_of_large (Nat.not_le.1 hsize)]
    exact hm

theorem keepsLimits_pop : Keeps (WithinLimits limits) (fun _ => True) pop := by
  intro m hm
  refine ⟨?_, fun _ _ => trivial⟩
  cases hstack : m.stack with
  | nil =>
    rw [run_pop_nil hstack]
    exact hm
  | cons element rest =>
    rw [run_pop_cons hstack]
    exact hm.below hstack

theorem keepsLimits_swap : Keeps (WithinLimits limits) (fun _ => True) (move limits .swap) := by
  intro m hm
  refine ⟨?_, fun _ _ => trivial⟩
  rw [move, run_bind_silent (run_get m)]
  split
  · next top second rest hstack =>
    rw [run_modify]
    refine hm.of_subset ?_ ?_
    · simp [hstack]
    · intro e he
      rw [hstack]
      exact (List.Perm.swap top second rest).mem_iff.1 he
  · exact hm

/-- Every action on the stack keeps the limits. -/
theorem Stackwise.keepsLimits {α : Type} {x : Exec Machine α} (h : Stackwise rules asked noted x) :
    Keeps (WithinLimits rules.limits) (fun _ => True) x := by
  induction h with
  | pure a => exact keeps_pure
  | bind _ _ ihx ihf => exact ihx.bind ihf
  | fail e => exact keeps_fail
  | remark _ r => exact keeps_report trivial
  | push element => exact keepsLimits_push element
  | pop => exact keepsLimits_pop
  | peek depth =>
    refine keeps_get.bind fun m => ?_
    split
    · exact keeps_fail
    · exact keeps_pure
  | swap => exact keepsLimits_swap
  | depth => exact keeps_get.bind fun _ => keepsLimits_push _
  | checkSignature _ signature key =>
    exact keeps_get.bind fun _ => Keeps.bind (keeps_report trivial) fun _ => keeps_pure

theorem invariant_withinLimits : Invariant rules True True (WithinLimits rules.limits) (fun _ => True) where
  stackwise := Stackwise.keepsLimits
  conditions _ h := ⟨h.items, h.elements⟩
  remark _ _ := trivial

/-- Whether a script succeeds or fails, it leaves a stack within the limits if it found one. -/
theorem keepsLimits_runScript (script : Script) :
    Keeps (WithinLimits rules.limits) (fun _ => True) (runScript rules script) :=
  Keeps.bind (keeps_modify fun _ h => ⟨h.items, h.elements⟩) fun _ =>
    invariant_withinLimits.execute fun _ _ _ => trivial

theorem withinLimits_of_yields {script : Script} {m' : Machine} (hempty : m.stack = [])
    (hrun : (runScript rules script).Yields m () m') : WithinLimits rules.limits m' :=
  hrun.2 ▸ (keepsLimits_runScript script m (withinLimits_empty hempty)).1

end CoinScript.Machine
