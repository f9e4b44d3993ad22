/-
What an execution hands over, and where it can be cut. A context that notes what it is handed and otherwise does the
same shows that an execution hands over the chunks in order, each once, up to and with the first that fails. What
the chunks behind a place do depends on nothing but the state that those before it left, so a script can be executed
in two parts; that the first part may end with open conditionals makes no difference to the second, since only a
chunk that fails keeps it from being executed.
-/
import CoinScript.Proofs.Codec.Forms
import CoinScript.Proofs.Machine.Walk
import CoinScript.Proofs.Script.Slice

namespace CoinScript

open CoinScript.Action

/-- The action on a state that has something beside it, which it leaves alone. -/
def Exec.beside {σ α : Type} (τ : Type) (x : Exec σ α) : Exec (σ × τ) α := fun p =>
  ⟨(x.run p.1).result, ((x.run p.1).state, p.2), (x.run p.1).reports⟩

namespace Context

variable {σ : Type} {context : Context σ} {c : Chunk} {chunks : List Chunk} {s s' t : σ} {e : ExecError}

/-! ## Notes of what is handed over -/

/-- The context that notes what it is handed, opcodes by their byte and pushes by their payload, and then does the
same. -/
def noting (context : Context σ) : Context (σ × List (UInt8 ⊕ Bytes)) where
  push payload := do
    Action.modify fun p => (p.1, p.2 ++ [.inr payload])
    Exec.beside _ (context.push payload)
  exec op := do
    Action.modify fun p => (p.1, p.2 ++ [.inl op])
    Exec.beside _ (context.exec op)
  conditions p := context.conditions p.1

/-- The outcome of an action on a state beside which something is noted. -/
def withNotes {α : Type} (o : Outcome Event ExecError σ α) (notes : List (UInt8 ⊕ Bytes)) :
    Outcome Event ExecError (σ × List (UInt8 ⊕ Bytes)) α :=
  ⟨o.result, (o.state, notes), o.reports⟩

theorem run_handle_noting (context : Context σ) (op : Operation) (s : σ) (notes : List (UInt8 ⊕ Bytes)) :
    (context.noting.handle op).run (s, notes) =
      withNotes ((context.handle op).run s) (notes ++ [op.content]) := by
  cases op <;> rfl

/-- How far a dispatch comes: its result, the state that it leaves and what it has handed over. Either a chunk fails,
and is the last that was handed over, or all are. -/
inductive Handed (context : Context σ) (chunks : List Chunk) (s : σ) :
    Except ExecError Unit → σ → List (UInt8 ⊕ Bytes) → Prop
  | failed {j : Nat} {c : Chunk} {t : σ} {e : ExecError} (hc : chunks[j]? = some c)
      (hcomes : context.ComesTo chunks s j t) (hfails : ((context.handle c.operation).run t).result = .error e) :
      Handed context chunks s (.error e) ((context.handle c.operation).run t).state
        ((chunks.take (j + 1)).map fun c => c.operation.content)
  | all {t : σ} (hcomes : context.ComesTo chunks s chunks.length t) :
      Handed context chunks s (.ok ()) t (chunks.map fun c => c.operation.content)

theorem Handed.cons {result : Except ExecError Unit} {handed : List (UInt8 ⊕ Bytes)}
    (hc : (context.handle c.operation).Yields s () t) (h : context.Handed chunks t result s' handed) :
    context.Handed (c :: chunks) s result s' (c.operation.content :: handed) := by
  cases h with
  | failed hat hcomes hfails => exact .failed (j := _ + 1) hat (comesTo_succ.2 ⟨t, hc, hcomes⟩) hfails
  | all hcomes => exact .all (comesTo_succ.2 ⟨t, hc, hcomes⟩)

theorem run_dispatch_noting (context : Context σ) (i : Nat) (chunks : List Chunk) (s : σ)
    (notes : List (UInt8 ⊕ Bytes)) :
    let o := (context.dispatch i chunks).run s
    ∃ handed, (context.noting.dispatch i chunks).run (s, notes) = withNotes o (notes ++ handed) ∧
      context.Handed chunks s o.result o.state handed := by
  induction chunks generalizing i s notes with
  | nil => exact ⟨[], by rw [List.append_nil]; rfl, .all (comesTo_zero.2 rfl)⟩
  | cons c chunks ih =>
    have hstep := context.run_handle_noting c.operation s notes
    rw [dispatch, dispatch, run_bind_ok (run_report _ s), run_bind_ok (run_report _ (s, notes))]
    rcases hrun : (context.handle c.operation).run s with ⟨e | ⟨⟩, t, reports⟩ <;> rw [hrun] at hstep
    · have hfailed : context.Handed (c :: chunks) s (.error e) ((context.handle c.operation).run s).state
          [c.operation.content] := .failed (j := 0) rfl (comesTo_zero.2 rfl) (congrArg _ hrun)
      rw [hrun] at hfailed
      rw [run_bind_error (run_reportingFailure_error _ hrun), run_bind_error (run_reportingFailure_error _ hstep)]
      exact ⟨_, rfl, hfailed⟩
    · obtain ⟨handed, hrest, hhanded⟩ := ih (i + 1) t (notes ++ [c.operation.content])
      rw [run_bind_ok (run_reportingFailure_ok _ hrun), run_bind_ok (run_reportingFailure_ok _ hstep), hrest]
      refine ⟨c.operation.content :: handed, ?_, hhanded.cons (yields_of_run hrun)⟩
      rw [List.append_assoc]
      rfl

/-! ## The end of an execution -/

/-- At the end nothing is asked but whether a conditional is open. -/
theorem run_onlyChecks_close (context : Context σ) (s : σ) :
    (Exec.onlyChecks context.close).run s =
      ⟨if context.conditions s = [] then .ok () else .error .unbalancedConditional, s, []⟩ := by
  rw [Exec.run_onlyChecks, close, run_bind_silent (run_get s)]
  cases hconditions : context.conditions s with
  | nil => rfl
  | cons taken outer => rfl

theorem result_execute (context : Context σ) (script : Script) (s : σ) :
    let o := (context.dispatch 0 script.chunks).run s
    ((context.execute script).run s).result =
      match o.result with
      | .error e => .error e
      | .ok () => if context.conditions o.state = [] then .ok () else .error .unbalancedConditional := by
  intro o
  rcases hrun : o with ⟨e | ⟨⟩, t, reports⟩
  · rw [execute, run_bind_error hrun]
  · have hclose := congrArg Outcome.result (run_onlyChecks_close context t)
    rw [Exec.run_onlyChecks] at hclose
    rw [execute, run_bind_ok hrun]
    exact hclose

theorem run_close_noting (context : Context σ) (s : σ) (notes : List (UInt8 ⊕ Bytes)) :
    context.noting.close.run (s, notes) = withNotes (context.close.run s) notes := by
  rw [close, close, run_bind_silent (run_get s), run_bind_silent (run_get (s, notes))]
  dsimp only [noting]
  split <;> rfl

/-- An execution is the same beside its notes, and these are of what its dispatch has handed over. -/
theorem run_execute_noting (context : Context σ) (script : Script) (s : σ) (notes : List (UInt8 ⊕ Bytes)) :
    let o := (context.dispatch 0 script.chunks).run s
    ∃ handed, (context.noting.execute script).run (s, notes) =
        withNotes ((context.execute script).run s) (notes ++ handed) ∧
      context.Handed script.chunks s o.result o.state handed := by
  intro o
  obtain ⟨handed, hnoting, hhanded⟩ := context.run_dispatch_noting 0 script.chunks s notes
  refine ⟨handed, ?_, hhanded⟩
  rcases hrun : (context.dispatch 0 script.chunks).run s with ⟨e | ⟨⟩, t, reports⟩ <;> rw [hrun] at hnoting
  · rw [execute, execute, run_bind_error hrun, run_bind_error hnoting]
    rfl
  · rw [execute, execute, run_bind_ok hrun, run_bind_ok hnoting, run_close_noting]
    rfl

/-! ## Two parts -/

theorem onlyChecks_execute (context : Context σ) (script : Script) :
    Exec.onlyChecks (context.execute script) =
      Exec.onlyChecks (context.walk script.operations) >>= fun _ => Exec.onlyChecks context.close := by
  rw [execute, Exec.onlyChecks_bind, onlyChecks_dispatch]
  rfl

theorem exists_failsAt_iff : (∃ k, context.FailsAt chunks s k e) ↔
    ((context.walk (chunks.map Chunk.operation)).run s).result = .error e := by
  rw [← result_dispatch_eq_error_iff 0, (context.dispatch_eq_walk 0 chunks s).1]

/-- Executing a script in two parts: a chunk of the first that fails ends it all; otherwise the second part goes on
from the state of the first, whether conditionals are open there or not. -/
theorem run_onlyChecks_execute_of_parts {script front back : Script} (context : Context σ) (s : σ)
    (hops : script.operations = front.operations ++ back.operations) :
    let whole := (Exec.onlyChecks (context.execute script)).run s
    let first := (Exec.onlyChecks (context.execute front)).run s
    (∀ j e, context.FailsAt front.chunks s j e → first.result = .error e ∧ whole = first) ∧
      ((¬ ∃ j e, context.FailsAt front.chunks s j e) →
        let second := (Exec.onlyChecks (context.execute back)).run first.state
        whole = ⟨second.result, second.state, first.reports ++ second.reports⟩) := by
  intro whole first
  have hwhole : whole = (Exec.onlyChecks (context.walk front.operations) >>= fun _ =>
      Exec.onlyChecks (context.execute back)).run s := by
    show (Exec.onlyChecks (context.execute script)).run s = _
    rw [onlyChecks_execute, hops, walk_append, Exec.onlyChecks_bind, bind_assoc, onlyChecks_execute]
  have hfirst : first = (Exec.onlyChecks (context.walk front.operations) >>= fun _ =>
      Exec.onlyChecks context.close).run s := by
    show (Exec.onlyChecks (context.execute front)).run s = _
    rw [onlyChecks_execute]
  rcases hrun : (Exec.onlyChecks (context.walk front.operations)).run s with ⟨e | ⟨⟩, t, checks⟩
  · have hresult : ((context.walk front.operations).run s).result = .error e := congrArg Outcome.result hrun
    rw [run_bind_error hrun] at hwhole hfirst
    refine ⟨fun j e' hfails => ?_, fun hnone => ?_⟩
    · have hcause := (exists_failsAt_iff.1 ⟨j, hfails⟩).symm.trans hresult
      rw [hcause, hwhole, hfirst]
      exact ⟨rfl, rfl⟩
    · obtain ⟨j, hfails⟩ := exists_failsAt_iff.2 hresult
      exact absurd ⟨j, e, hfails⟩ hnone
  · have hresult : ((context.walk front.operations).run s).result = .ok () := congrArg Outcome.result hrun
    rw [run_bind_ok hrun] at hwhole hfirst
    rw [run_onlyChecks_close] at hfirst
    refine ⟨fun j e' hfails => ?_, fun _ => ?_⟩
    · have hcause := (exists_failsAt_iff.1 ⟨j, hfails⟩).symm.trans hresult
      cases hcause
    · rw [hwhole, hfirst]
      simp only [List.append_nil]

/-! ## In order and in parts -/

/-- An execution hands over the chunks in order, each once: a context that notes what it is handed runs the same and
has the contents noted of the chunks up to and with the first that fails, whose cause and state are the outcome; or
those of all chunks, and then the execution succeeds exactly if no conditional is open. At every position up to the
number of chunks the script can be executed in its two parts: unless a chunk of the first fails, executing the second
from where the first ended gives the result, the state and together the checks of the whole. -/
theorem execute_in_order_and_in_parts {script : Script} (hs : Script.Reachable script) (context : Context σ) (s : σ) :
    (let whole := (context.execute script).run s
      ∀ notes, ∃ handed,
        (context.noting.execute script).run (s, notes) = withNotes whole (notes ++ handed) ∧
          ((∃ j c t e, script.chunks[j]? = some c ∧ context.ComesTo script.chunks s j t ∧
              ((context.handle c.operation).run t).result = .error e ∧
              handed = (script.chunks.take (j + 1)).map (fun c => c.operation.content) ∧
              whole.result = .error e ∧ whole.state = ((context.handle c.operation).run t).state) ∨
            (context.ComesTo script.chunks s script.chunks.length whole.state ∧
              handed = script.chunks.map (fun c => c.operation.content) ∧
              whole.result =
                if context.conditions whole.state = [] then .ok () else .error .unbalancedConditional))) ∧
      ∀ k ≤ script.chunks.length, ∃ front back,
        script.subScriptTo? k = some front ∧ script.subScriptFrom? k = some back ∧
          let whole := (Exec.onlyChecks (context.execute script)).run s
          let first := (Exec.onlyChecks (context.execute front)).run s
          (∀ j e, context.FailsAt front.chunks s j e → first.result = .error e ∧ whole = first) ∧
            ((¬ ∃ j e, context.FailsAt front.chunks s j e) →
              let second := (Exec.onlyChecks (context.execute back)).run first.state
              whole = ⟨second.result, second.state, first.reports ++ second.reports⟩) := by
  constructor
  · intro whole notes
    obtain ⟨handed, hnoting, hhanded⟩ := context.run_execute_noting script s notes
    refine ⟨handed, hnoting, ?_⟩
    have hresult : whole.result = _ := context.result_execute script s
    have hstate : whole.state = _ := context.state_execute script s
    generalize (context.dispatch 0 script.chunks).run s = o at hhanded hresult hstate
    rcases o with ⟨result, t, reports⟩
    cases hhanded with
    | failed hc hcomes hfails => exact .inl ⟨_, _, _, _, hc, hcomes, hfails, rfl, hresult, hstate⟩
    | all hcomes =>
      rw [hstate]
      exact .inr ⟨hcomes, rfl, hresult⟩
  · intro k hk
    refine ⟨_, _, hs.coherent.subScriptTo?_eq hk, hs.coherent.subScriptFrom?_eq hk,
      context.run_onlyChecks_execute_of_parts s ?_⟩
    rw [Script.operations_ofOperations, Script.operations_ofOperations, List.take_append_drop]

/-- A conditional around a push, cut before its end: the first part ends with the conditional open, which is an error
for itself, and the second part closes it. -/
theorem execute_in_order_and_in_parts_of_open_conditional :
    let counting : Context (List Bool) :=
      { push := fun _ => pure ()
        exec := fun op => if op = Op.ifTrue then modify (true :: ·) else modify List.tail
        conditions := id }
    let script := Script.ofDecoded
      [⟨.opcode 0x63, 0, 1⟩, ⟨.push 0x01 [0xaa], 1, 3⟩, ⟨.opcode 0x68, 3, 4⟩] [0x63, 0x01, 0xaa, 0x68]
    Script.Reachable script ∧
      ((counting.noting.execute script).run ([], [])).state = ([], [.inl 0x63, .inr [0xaa], .inl 0x68]) ∧
      2 ≤ script.chunks.length ∧
      ∃ front back, script.subScriptTo? 2 = some front ∧ script.subScriptFrom? 2 = some back ∧
        (¬ ∃ j e, counting.FailsAt front.chunks [] j e) ∧
        ((counting.execute front).run []).result = .error .unbalancedConditional ∧
        ((counting.execute script).run []).result = .ok () ∧
        ((counting.execute script).run []).result =
          ((counting.execute back).run ((counting.execute front).run []).state).result := by
  intro counting script
  have hs : Script.Reachable script :=
    .parse (Script.parse_eq_ok_iff.2 ⟨_, decodeAll_eq_ok_iff.2 ⟨by decide, rfl⟩, rfl⟩)
  obtain ⟨hnotes, hparts⟩ := execute_in_order_and_in_parts hs counting []
  have hok : ((counting.execute script).run []).result = .ok () := rfl
  have hhanded : ((counting.noting.execute script).run ([], [])).state =
      ([], [.inl 0x63, .inr [0xaa], .inl 0x68]) := by
    obtain ⟨handed, hnoting, ⟨_, _, _, _, -, -, -, -, hresult, -⟩ | ⟨-, rfl, -⟩⟩ := hnotes []
    · cases hok.symm.trans hresult
    · rw [hnoting]
      rfl
  obtain ⟨front, back, hfront, hback, -, hgoes⟩ := hparts 2 (by decide)
  obtain rfl : Script.ofOperations [.opcode 0x63, .push 0x01 [0xaa]] = front :=
    Option.some.inj ((hs.coherent.subScriptTo?_eq (by decide)).symm.trans hfront)
  have hnone : ¬ ∃ j e,
      counting.FailsAt (Script.ofOperations [.opcode 0x63, .push 0x01 [0xaa]]).chunks [] j e := by
    rintro ⟨j, e, hfails⟩
    cases exists_failsAt_iff.1 ⟨j, hfails⟩
  injection hgoes hnone with hresult _ _
  exact ⟨hs, hhanded, by decide, _, _, hfront, hback, hnone, rfl, hok, hresult⟩

end Context

end CoinScript
