/-
Locality. A script that never asks how many elements there are cannot tell what lies below the elements
that it reaches: on a stack with more elements at its bottom, with room for them under limits that are no
narrower, it does all the same, as long as it runs into no shortage on the smaller stack. It may be short of
elements, of room for one more, or of length for a long one.

The two runs are related action by action: commands are put together alike under both limits, the six
actions on the stack say how each of them follows the other, and a walk through chunks does nothing but
commands and changes of the conditionals.
-/
import CoinScript.Digest.Standard
import CoinScript.Proofs.Machine.Nesting

namespace CoinScript

open CoinScript.Action

/-- The cause is a lack of elements, of room or of length, which a larger stack and wider limits may mend. -/
def ExecError.isShortage : ExecError → Bool
  | stackUnderflow | stackOverflow _ | elementTooLarge _ _ => true
  | _ => false

theorem Command.eq_of_asksDepth {op : UInt8} (h : (Command.ofByte op).asksDepth = true) : op = Op.depth := by
  rw [ofByte] at h
  split at h
  · cases h
  · split at h
    · cases h
    · unfold ofNamedByte at h
      split at h <;> first | rfl | cases h

/-- One opcode alone asks for the number of elements. -/
theorem Operation.eq_of_asksDepth {op : Operation} (h : op.asksDepth = true) : op = .opcode Op.depth := by
  cases op with
  | push lead payload => cases h
  | opcode byte =>
    rw [asksDepth, does, Instruction.ofByte] at h
    cases hflow : Flow.ofByte? byte with
    | some f =>
      rw [hflow] at h
      cases h
    | none =>
      rw [hflow] at h
      rw [Command.eq_of_asksDepth h]

namespace Machine

/-- The machine on a larger stack, with further elements at the bottom. -/
def onTopOf (base : List Bytes) (m : Machine) : Machine := { m with stack := m.stack ++ base }

/-- Unless the first action falls short of something, the second does above the further elements what the
first does without them. -/
abbrev Local {α : Type} (base : List Bytes) (x x' : Exec Machine α) : Prop :=
  Follows (onTopOf base) (fun e => e.isShortage = true) x x'

variable {rules : Rules} {limits : Limits} {asked noted : Prop} {base : List Bytes} {m : Machine}

theorem conditions_onTopOf : (m.onTopOf base).conditions = m.conditions := rfl

theorem isExecuting_onTopOf : (m.onTopOf base).isExecuting = m.isExecuting := rfl

theorem local_pop : Local base pop pop := by
  refine .get_bind fun m => ?_
  cases hstack : m.stack with
  | nil => exact follows_excused rfl
  | cons element rest =>
    rw [onTopOf, hstack]
    exact .bind (follows_modify fun _ => rfl) fun _ => follows_pure

theorem local_peek (depth : Nat) : Local base (peek depth) (peek depth) := by
  refine .get_bind fun m => ?_
  cases hpeek : m.stack[depth]? with
  | none => exact follows_excused rfl
  | some element =>
    have hdepth : depth < m.stack.length := (List.getElem?_eq_some_iff.1 hpeek).1
    rw [onTopOf, List.getElem?_append_left hdepth, hpeek]
    exact follows_pure

theorem local_swap : Local base (move rules.limits .swap) (move limits .swap) := by
  refine .get_bind fun m => ?_
  split
  · next top second rest hstack =>
    rw [onTopOf, hstack]
    exact follows_modify fun _ => rfl
  · exact follows_excused rfl

/-! ## Changes of the conditionals -/

theorem local_openBranch (takenOn : Bool) : Local base (openBranch takenOn) (openBranch takenOn) := by
  refine .get_bind fun m => ?_
  rw [isExecuting_onTopOf]
  dsimp only
  split
  · exact local_pop.bind fun _ => follows_pure.bind fun _ => follows_modify fun _ => rfl
  · exact follows_pure.bind fun _ => follows_modify fun _ => rfl

theorem local_follow (f : Flow) : Local base (follow f) (follow f) := by
  cases f with
  | ifTrue => exact local_openBranch true
  | ifFalse => exact local_openBranch false
  | otherwise | endIf =>
    refine .get_bind fun m => ?_
    rw [conditions_onTopOf]
    cases m.conditions with
    | nil => exact follows_fail
    | cons taken outer => exact follows_modify fun _ => rfl

theorem local_whenExecuting {x x' : Exec Machine Unit} (h : Local base x x') :
    Local base (whenExecuting x) (whenExecuting x') := by
  refine .get_bind fun m => ?_
  rw [isExecuting_onTopOf]
  split
  · exact h
  · exact follows_pure

theorem local_close : Local base (context rules).close (context (withLimits rules limits)).close := by
  refine .get_bind fun m => ?_
  -- both count the same conditionals
  show Local base (if m.conditions.length ≠ 0 then _ else _) (if m.conditions.length ≠ 0 then _ else _)
  split
  · exact follows_report.bind fun _ => follows_fail
  · exact follows_pure

/-! ## Under wider limits -/

section Wider

variable (hitems : rules.limits.items + base.length ≤ limits.items)
  (helement : rules.limits.element ≤ limits.element)
include hitems helement

theorem local_push (element : Bytes) : Local base (push rules.limits element) (push limits element) := by
  refine .get_bind fun m => .bind (follows_require_excused rfl ?_) fun _ =>
    .bind (follows_require_excused rfl ?_) fun _ => follows_modify fun _ => rfl
  · simp only [decide_eq_true_eq]
    omega
  · simp only [decide_eq_true_eq, onTopOf, List.length_append]
    omega

/-- Actions that are put together alike and count no elements are local. -/
theorem Alike.local {α : Type} {x x' : Exec Machine α} (h : Alike rules limits asked False noted x x') :
    Local base x x' := by
  induction h with
  | pure a => exact follows_pure
  | bind _ _ ihx ihf => exact ihx.bind ihf
  | fail e _ => exact follows_fail
  | remark _ r => exact follows_report
  | push element => exact local_push hitems helement element
  | pop => exact local_pop
  | peek depth => exact local_peek depth
  | swap => exact local_swap
  | depth h => exact h.elim
  | checkSignature _ signature key =>
    exact .get_bind fun m => follows_report.bind fun _ => follows_pure

theorem local_handle {op : Operation} (hop : op ≠ .opcode Op.depth) :
    Local base ((context rules).handle op) ((context (withLimits rules limits)).handle op) := by
  cases hflow : op.flow? with
  | some f =>
    rw [handle_of_flow hflow, handle_of_flow hflow]
    exact local_follow f
  | none =>
    obtain ⟨x, x', halike, hhandle, hhandle'⟩ :=
      alike_of_no_flow rules limits hflow fun h => hop (Operation.eq_of_asksDepth h)
    rw [hhandle, hhandle']
    exact local_whenExecuting (halike.local hitems helement)

theorem local_dispatch (i : Nat) {chunks : List Chunk} (hchunks : ∀ c ∈ chunks, c.operation ≠ .opcode Op.depth) :
    Local base ((context rules).dispatch i chunks) ((context (withLimits rules limits)).dispatch i chunks) := by
  induction chunks generalizing i with
  | nil => exact follows_pure
  | cons c chunks ih =>
    obtain ⟨hc, hrest⟩ := List.forall_mem_cons.1 hchunks
    exact follows_report.bind fun _ =>
      ((local_handle hitems helement hc).reportingFailure).bind fun _ => ih (i + 1) hrest

theorem local_execute {script : Script} (hchunks : ∀ c ∈ script.chunks, c.operation ≠ .opcode Op.depth) :
    Local base ((context rules).execute script) ((context (withLimits rules limits)).execute script) :=
  (local_dispatch hitems helement 0 hchunks).bind fun _ => local_close

/-- The chunk that fails for another reason than a shortage is the same above the further elements. -/
theorem failsAt_onTopOf {chunks : List Chunk} {k : Nat} {e : ExecError}
    (hchunks : ∀ c ∈ chunks, c.operation ≠ .opcode Op.depth) (he : e.isShortage = false)
    (h : (context rules).FailsAt chunks m k e) :
    (context (withLimits rules limits)).FailsAt chunks (m.onTopOf base) k e := by
  obtain ⟨c, m', hc, ⟨hk, hcomes⟩, hfails⟩ := h
  have hbefore : ∀ c ∈ chunks.take k, c.operation ≠ .opcode Op.depth :=
    fun c hmem => hchunks c (List.mem_of_mem_take hmem)
  refine ⟨c, m'.onTopOf base, hc, ⟨hk, ?_⟩, ?_⟩
  · exact (local_dispatch hitems helement 0 hbefore).yields hcomes
  · have hop : c.operation ≠ .opcode Op.depth := hchunks c (List.mem_of_getElem? hc)
    exact (local_handle hitems helement hop).result_eq_error hfails (by simp [he])

end Wider

/-- A script that never asks for the number of elements is local to the top of the stack. Where its dispatch
succeeds, it does so above any further elements, under limits with room for them, leaving the same elements
above them, the same conditionals open and the same signatures checked; where it fails other than by a
shortage, it fails there at the same chunk for the same cause. So does the execution of the script. -/
theorem dispatch_local (rules : Rules) (limits : Limits) (script : Script) (m : Machine) (base : List Bytes)
    (hchunks : ∀ c ∈ script.chunks, c.operation ≠ .opcode Op.depth)
    (hitems : rules.limits.items + base.length ≤ limits.items)
    (helement : rules.limits.element ≤ limits.element) :
    let narrow := context rules
    let wide := context (withLimits rules limits)
    let first := (narrow.dispatch 0 script.chunks).run m
    let second := (wide.dispatch 0 script.chunks).run (m.onTopOf base)
    (first.result = .ok () → second.result = .ok () ∧ second.state.stack = first.state.stack ++ base ∧
      second.state.conditions = first.state.conditions ∧
      Event.checks second.reports = Event.checks first.reports) ∧
    (∀ e, first.result = .error e → e.isShortage = false → second.result = .error e ∧
      ∃ k, narrow.FailsAt script.chunks m k e ∧ wide.FailsAt script.chunks (m.onTopOf base) k e) ∧
    let executed := (narrow.execute script).run m
    ((∀ e, executed.result = .error e → e.isShortage = false) →
      (wide.execute script).run (m.onTopOf base) = onState (onTopOf base) executed) := by
  intro narrow wide first second
  have hdispatch : Local base (narrow.dispatch 0 script.chunks) (wide.dispatch 0 script.chunks) :=
    local_dispatch hitems helement 0 hchunks
  refine ⟨fun hok => ?_, fun e herror he => ?_, fun hexecuted => ?_⟩
  · have hsame : second = onState (onTopOf base) first := hdispatch m (by rw [hok]; nofun)
    rw [hsame]
    exact ⟨hok, rfl, rfl, rfl⟩
  · obtain ⟨k, hfails⟩ := (Context.result_dispatch_eq_error_iff 0).1 herror
    exact ⟨hdispatch.result_eq_error herror (by simp [he]),
      k, hfails, failsAt_onTopOf hitems helement hchunks he hfails⟩
  · exact local_execute hitems helement hchunks m fun e he => by simp [hexecuted e he]

/-- One signature of one key above two further elements, in a branch that stays open; and a demand that is
not met above them. -/
theorem dispatch_local_of_multisig :
    let rules : Rules :=
      { limits := { items := 6, element := 4 }, digests := Digests.standard, checker := fun _ _ _ => true }
    let limits : Limits := { items := 8, element := 4 }
    let base : List Bytes := [[7], [8, 8]]
    let signed : Script := { chunks := [⟨.opcode Op.ifTrue, 0, 1⟩, ⟨.opcode Op.zero, 1, 2⟩,
      ⟨.push 0x01 [3], 2, 4⟩, ⟨.opcode Op.one, 4, 5⟩, ⟨.push 0x01 [2], 5, 7⟩, ⟨.opcode Op.one, 7, 8⟩,
      ⟨.opcode Op.checkMultisig, 8, 9⟩] }
    let demanding : Script := { chunks := [⟨.opcode Op.nop, 0, 1⟩, ⟨.opcode Op.verify, 1, 2⟩] }
    let m : Machine := { stack := [[1], [9]], scriptCode := [5] }
    let m' : Machine := { stack := [[]] }
    let wide := context (withLimits rules limits)
    let second := (wide.dispatch 0 signed.chunks).run (m.onTopOf base)
    ((∀ c ∈ signed.chunks, c.operation ≠ .opcode Op.depth) ∧
      (∀ c ∈ demanding.chunks, c.operation ≠ .opcode Op.depth) ∧
      rules.limits.items + base.length ≤ limits.items ∧ rules.limits.element ≤ limits.element) ∧
    second.result = .ok () ∧ second.state.stack = [[1], [9], [7], [8, 8]] ∧ second.state.conditions = [true] ∧
    Event.checks second.reports = [⟨[3], [2], [5], true⟩] ∧
    ((wide.dispatch 0 demanding.chunks).run (m'.onTopOf base)).result = .error (.verifyFailed Op.verify) := by
  intro rules limits base signed demanding m m' wide second
  have hsigned : ∀ c ∈ signed.chunks, c.operation ≠ .opcode Op.depth := by decide
  have hdemanding : ∀ c ∈ demanding.chunks, c.operation ≠ .opcode Op.depth := by decide
  have hitems : rules.limits.items + base.length ≤ limits.items := by decide
  have helement : rules.limits.element ≤ limits.element := by decide
  obtain ⟨hsuccess, -, -⟩ := dispatch_local rules limits signed m base hsigned hitems helement
  obtain ⟨-, hfailure, -⟩ := dispatch_local rules limits demanding m' base hdemanding hitems helement
  obtain ⟨hok, hstack, hconditions, hchecks⟩ := hsuccess rfl
  exact ⟨⟨hsigned, hdemanding, hitems, helement⟩, hok, hstack, hconditions, hchecks,
    (hfailure (.verifyFailed Op.verify) rfl rfl).1⟩

end Machine

end CoinScript
