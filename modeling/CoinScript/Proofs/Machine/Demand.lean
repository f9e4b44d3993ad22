/-
Demanded verdicts. The opcode that demands the verdict of a test does what the opcode that leaves the verdict and a
verification behind it do, on every machine and under every limits: what the test takes, has checked and leaves is the
same, and a test that fails, or whose verdict has no room, fails alike. Only the opcode that a false verdict is blamed
on is another.

A test with its push is taken apart once, for both forms of the opcode at a time: they part behind the push.
-/
import CoinScript.Digest.Standard
import CoinScript.Proofs.Machine.Nesting

namespace CoinScript

open CoinScript.Action

/-! ## Opcodes of tests -/

namespace Test

/-- The opcode that leaves the verdict. -/
def opcode : Test → UInt8
  | equal => Op.equal
  | numEqual => Op.numEqual
  | signature => Op.checkSig
  | multisig => Op.checkMultisig

/-- The opcode that demands the verdict. -/
def demandingOpcode : Test → UInt8
  | equal => Op.equalVerify
  | numEqual => Op.numEqualVerify
  | signature => Op.checkSigVerify
  | multisig => Op.checkMultisigVerify

theorem ofByte_opcode (t : Test) : Instruction.ofByte t.opcode = .command (.test t false) := by
  cases t <;> decide

theorem ofByte_demandingOpcode (t : Test) : Instruction.ofByte t.demandingOpcode = .command (.test t true) := by
  cases t <;> decide

end Test

/-- A false verdict is blamed on the given opcode; other causes stay as they are. -/
def ExecError.blamedOn (op : UInt8) (e : ExecError) : ExecError :=
  if e = .verifyFailed Op.verify then .verifyFailed op else e

namespace Machine

variable {rules : Rules} {limits : Limits} {t : Test} {m : Machine} {allowed : ExecError → Prop}

/-! ## Faults of tests -/

/-- What can go wrong before a verdict stands on the stack: elements are missing, one of them is no number, the counts
do not fit, or there is no room for the verdict. -/
inductive TestFault (limits : Limits) : Test → ExecError → Prop where
  | underflow (t : Test) : TestFault limits t .stackUnderflow
  | number {t : Test} (ht : t = .numEqual ∨ t = .multisig) : TestFault limits t .invalidNumber
  | count : TestFault limits .multisig .invalidMultisigCount
  | refused {held : Nat} {verdict : Bool} {e : ExecError} (t : Test)
      (hpush : PushRefused limits held (Truth.encode verdict) e) : TestFault limits t e

/-- No verdict is blamed on anyone before it stands on the stack. -/
theorem TestFault.blamedOn_eq {e : ExecError} (h : TestFault limits t e) (op : UInt8) : e.blamedOn op = e := by
  unfold ExecError.blamedOn
  refine if_neg ?_
  rintro rfl
  rcases h with _ | _ | _ | ⟨_, hpush⟩
  cases hpush

theorem failsOnly_popNumber (h : allowed .stackUnderflow) (hnumber : allowed .invalidNumber) :
    FailsOnly allowed popNumber := by
  refine (failsOnly_pop h).bind fun element => ?_
  split
  · exact failsOnly_fail hnumber
  · exact failsOnly_pure

theorem failsOnly_popMany (h : allowed .stackUnderflow) (n : Nat) : FailsOnly allowed (popMany n) := by
  induction n with
  | zero => exact failsOnly_pure
  | succ n ih => exact (failsOnly_pop h).bind fun _ => ih.bind fun _ => failsOnly_pure

theorem failsOnly_matchSignatures (checker : Checker) (signatures keys : List Bytes) :
    FailsOnly allowed (matchSignatures checker signatures keys) := by
  induction keys generalizing signatures with
  | nil => cases signatures <;> exact failsOnly_pure
  | cons key keys ih =>
    cases signatures with
    | nil => exact failsOnly_pure
    | cons signature later =>
      refine (failsOnly_checkSignature checker signature key).bind fun accepted => ?_
      dsimp only
      generalize (if accepted = true then later else signature :: later) = unmatched
      split
      · exact failsOnly_pure
      · exact ih unmatched

/-- A test fails only with its faults. -/
theorem failsOnly_decideTest (checker : Checker) (t : Test) :
    FailsOnly (TestFault limits t) (decideTest checker t) := by
  have hpop : FailsOnly (TestFault limits t) pop := failsOnly_pop (.underflow t)
  cases t with
  | equal => exact hpop.bind fun _ => hpop.bind fun _ => failsOnly_pure
  | numEqual =>
    have hnumber : FailsOnly (TestFault limits .numEqual) popNumber :=
      failsOnly_popNumber (.underflow _) (.number (.inl rfl))
    exact hnumber.bind fun _ => hnumber.bind fun _ => failsOnly_pure
  | signature => exact hpop.bind fun _ => hpop.bind fun _ => failsOnly_checkSignature checker _ _
  | multisig =>
    have hnumber : FailsOnly (TestFault limits .multisig) popNumber :=
      failsOnly_popNumber (.underflow _) (.number (.inr rfl))
    exact hnumber.bind fun _ => (failsOnly_require .count).bind fun _ =>
      (failsOnly_popMany (.underflow _) _).bind fun _ => hnumber.bind fun _ =>
        (failsOnly_require .count).bind fun _ => (failsOnly_popMany (.underflow _) _).bind fun _ =>
          hpop.bind fun _ => failsOnly_matchSignatures checker _ _

/-! ## Tests with and without demand -/

/-- A test comes to a fault, whoever asks and whether the verdict is demanded or not; or it comes to a verdict, which
is left on the stack or taken from it again and demanded. -/
theorem run_test_cases (rules : Rules) (t : Test) (m : Machine) :
    (∃ e m' reports, TestFault rules.limits t e ∧
        ∀ op demanded, (perform rules op (.test t demanded)).run m = ⟨.error e, m', reports⟩) ∨
      ∃ verdict m' reports, m'.conditions = m.conditions ∧ ∀ op,
        (perform rules op (.test t false)).run m =
            ⟨.ok (), { m' with stack := Truth.encode verdict :: m'.stack }, reports⟩ ∧
          (perform rules op (.test t true)).run m =
            ⟨if verdict then .ok () else .error (.verifyFailed op), m', reports⟩ := by
  rcases hdecide : (decideTest rules.checker t).run m with ⟨e | verdict, m', reports⟩
  · refine .inl ⟨e, m', reports, failsOnly_decideTest rules.checker t m e (by rw [hdecide]), fun op demanded => ?_⟩
    rw [perform, run_bind_error hdecide]
  · have hsame : m'.conditions = m.conditions := by
      have halike : Alike rules rules.limits True True True (decideTest rules.checker t) _ :=
        alike_decideTest fun _ => trivial
      have hconditions := halike.stackwise.conditions_eq m
      rwa [hdecide] at hconditions
    rcases run_push_cases rules.limits (Truth.encode verdict) m' with ⟨hsize, hroom, -⟩ | ⟨e, hrefused, hpush⟩
    · exact .inr ⟨verdict, m', reports, hsame, fun op =>
        ⟨run_test hdecide hsize hroom, run_test_demanded hdecide hsize hroom⟩⟩
    · refine .inl ⟨e, m', reports, .refused t hrefused, fun op demanded => ?_⟩
      rw [perform, run_bind_ok hdecide, run_bind_error hpush]
      simp

/-- A verification behind an action that left a verdict takes it off the stack again and demands it. -/
theorem run_then_verify {m' : Machine} {x : Exec Machine Unit} {verdict : Bool} {reports : List Event}
    (hexec : m'.isExecuting = true)
    (h : x.run m = ⟨.ok (), { m' with stack := Truth.encode verdict :: m'.stack }, reports⟩) :
    (x >>= fun _ => (context rules).exec Op.verify).run m =
      ⟨if verdict then .ok () else .error (.verifyFailed Op.verify), m', reports⟩ := by
  have hbyte : Instruction.ofByte Op.verify = .command .verify := by decide
  have hverify : ((context rules).exec Op.verify).run { m' with stack := Truth.encode verdict :: m'.stack } =
      ⟨if verdict then .ok () else .error (.verifyFailed Op.verify), m', []⟩ := by
    refine (run_handle_command ?_ hbyte).trans (run_verify Op.verify rfl)
    exact hexec
  rw [run_bind_ok h, hverify, List.append_nil]

/-- The opcode that demands the verdict of a test does what the one that leaves it and a verification behind it do,
but that a false verdict is blamed on itself. If the opcode that leaves the verdict fails, all three fail alike, with a
fault of the test. If it succeeds in a taken branch, the verdict that it leaves on top of what the other one leaves
decides whether the other succeeds. In a branch that is not taken none does anything. -/
theorem demanding_eq_test_then_verify (rules : Rules) (t : Test) (m : Machine) :
    let left := ((context rules).exec t.opcode).run m
    let pair := ((context rules).exec t.opcode >>= fun _ => (context rules).exec Op.verify).run m
    let demanded := ((context rules).exec t.demandingOpcode).run m
    demanded = { pair with result := pair.result.mapError (ExecError.blamedOn t.demandingOpcode) } ∧
      (∀ e, left.result = .error e → TestFault rules.limits t e ∧ pair = left ∧ demanded = left) ∧
      (m.isExecuting = true → left.result = .ok () → ∃ verdict,
        left.state.stack = Truth.encode verdict :: demanded.state.stack ∧
          pair.result = (if verdict then .ok () else .error (.verifyFailed Op.verify)) ∧
          demanded.result = if verdict then .ok () else .error (.verifyFailed t.demandingOpcode)) ∧
      (m.isExecuting = false → left = ⟨.ok (), m, []⟩ ∧ pair = ⟨.ok (), m, []⟩ ∧ demanded = ⟨.ok (), m, []⟩) := by
  intro left pair demanded
  cases hexec : m.isExecuting with
  | false =>
    have hleft : left = ⟨.ok (), m, []⟩ := run_handle_command_of_idle hexec t.ofByte_opcode
    have hdemanded : demanded = ⟨.ok (), m, []⟩ := run_handle_command_of_idle hexec t.ofByte_demandingOpcode
    have hpair : pair = ⟨.ok (), m, []⟩ :=
      (run_bind_silent hleft).trans (run_handle_command_of_idle (c := .verify) hexec (by decide))
    rw [hleft, hpair, hdemanded]
    refine ⟨rfl, ?_, ?_, fun _ => ⟨rfl, rfl, rfl⟩⟩
    · intro e h
      cases h
    · intro h
      cases h
  | true =>
    have hleft : left = _ := run_handle_command hexec t.ofByte_opcode
    have hdemanded : demanded = _ := run_handle_command hexec t.ofByte_demandingOpcode
    obtain ⟨e, m', reports, hfault, hrun⟩ | ⟨verdict, m', reports, hsame, hrun⟩ := run_test_cases rules t m
    · have hleft : left = ⟨.error e, m', reports⟩ := hleft.trans (hrun _ _)
      have hdemanded : demanded = ⟨.error e, m', reports⟩ := hdemanded.trans (hrun _ _)
      have hpair : pair = ⟨.error e, m', reports⟩ := run_bind_error hleft
      rw [hleft, hpair, hdemanded]
      refine ⟨?_, ?_, ?_, ?_⟩
      · show _ = (⟨.error (e.blamedOn t.demandingOpcode), m', reports⟩ : Outcome Event ExecError Machine Unit)
        rw [hfault.blamedOn_eq]
      · intro e' h
        cases h
        exact ⟨hfault, rfl, rfl⟩
      · intro _ h
        cases h
      · intro h
        cases h
    · have hleft : left = ⟨.ok (), { m' with stack := Truth.encode verdict :: m'.stack }, reports⟩ :=
        hleft.trans (hrun _).1
      have hdemanded : demanded = ⟨if verdict then .ok () else .error (.verifyFailed t.demandingOpcode), m', reports⟩ :=
        hdemanded.trans (hrun _).2
      -- the verification stands in the same branch as the test
      have htaken : m'.isExecuting = true := by
        unfold isExecuting at hexec ⊢
        rwa [hsame]
      have hpair : pair = ⟨if verdict then .ok () else .error (.verifyFailed Op.verify), m', reports⟩ :=
        run_then_verify htaken hleft
      rw [hleft, hpair, hdemanded]
      refine ⟨?_, ?_, fun _ _ => ⟨verdict, rfl, rfl, rfl⟩, ?_⟩
      · cases verdict <;> rfl
      · intro e h
        cases h
      · intro h
        cases h

/-- On a stack that holds empty elements only, a true verdict is refused, demanded or not, and a false one is left or
blamed on the opcode; in a branch that is not taken nothing is asked of the empty stack. -/
theorem demanding_eq_test_then_verify_of_empty_elements :
    let rules : Rules :=
      { limits := { items := 1, element := 0 }, digests := Digests.standard, checker := fun _ key _ => key == [7] }
    let accepted : Machine := { stack := [[7], [1]] }
    let refused : Machine := { stack := [[8], [1]] }
    let skipped : Machine := { conditions := [false] }
    let left := fun m => ((context rules).exec Op.checkSig).run m
    let demanded := fun m => ((context rules).exec Op.checkSigVerify).run m
    ((left accepted).result = .error (.elementTooLarge 1 0) ∧ refused.isExecuting = true ∧
        (left refused).result = .ok () ∧ skipped.isExecuting = false) ∧
      demanded accepted = left accepted ∧
      (demanded refused).result = .error (.verifyFailed Op.checkSigVerify) ∧
      demanded skipped = ⟨.ok (), skipped, []⟩ := by
  intro rules accepted refused skipped left demanded
  have haccepted : (left accepted).result = .error (.elementTooLarge 1 0) := rfl
  have hrefused : (left refused).result = .ok () := rfl
  obtain ⟨-, hfault, -⟩ := demanding_eq_test_then_verify rules .signature accepted
  obtain ⟨-, -, hverdict, -⟩ := demanding_eq_test_then_verify rules .signature refused
  obtain ⟨-, -, -, hidle⟩ := demanding_eq_test_then_verify rules .signature skipped
  obtain ⟨verdict, hstack, -, hresult⟩ := hverdict rfl hrefused
  -- what was left on top is the empty element, which is false
  have hfalse : verdict = false := by
    cases verdict with
    | false => rfl
    | true => cases hstack
  subst hfalse
  exact ⟨⟨haccepted, rfl, hrefused, rfl⟩, (hfault _ haccepted).2.2, hresult, (hidle rfl).2.2⟩

end Machine

end CoinScript
