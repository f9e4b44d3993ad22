/-
Commands on a stack that holds what they ask for. What a command takes is gone from the stack when it
pushes its result, so its outcome is that of the push on the stack below; whether the limits leave room
is then a question to the push alone. A test that has its verdict leaves it or demands it.
-/
import CoinScript.Proofs.Machine.Success

namespace CoinScript.Machine

open CoinScript.Action

variable {rules : Rules} {op : UInt8} {m m' : Machine} {element a b : Bytes} {rest : List Bytes}

/-! ## Steps -/

theorem run_whenExecuting_of_idle (h : m.isExecuting = false) (x : Exec Machine Unit) :
    (whenExecuting x).run m = ⟨.ok (), m, []⟩ := by
  rw [whenExecuting, run_bind_silent (run_get m), h]
  rfl

theorem run_whenExecuting (h : m.isExecuting = true) (x : Exec Machine Unit) :
    (whenExecuting x).run m = x.run m := by
  rw [whenExecuting, run_bind_silent (run_get m), h]
  rfl

theorem run_handle_push (h : m.isExecuting = true) (lead : UInt8) (payload : Bytes) :
    ((context rules).handle (.push lead payload)).run m = (push rules.limits payload).run m :=
  run_whenExecuting h _

theorem run_handle_command {c : Command} (h : m.isExecuting = true) (hc : Instruction.ofByte op = .command c) :
    ((context rules).handle (.opcode op)).run m = (perform rules op c).run m := by
  show (execOpcode rules op).run m = _
  rw [execOpcode, hc]
  exact run_whenExecuting h _

/-- In a branch that is not taken a command is passed over. -/
theorem run_handle_command_of_idle {c : Command} (h : m.isExecuting = false)
    (hc : Instruction.ofByte op = .command c) :
    ((context rules).handle (.opcode op)).run m = ⟨.ok (), m, []⟩ := by
  show (execOpcode rules op).run m = _
  rw [execOpcode, hc]
  exact run_whenExecuting_of_idle h _

/-! ## Pushes -/

/-- An element cannot be pushed on so many others for this cause: it is too long, or it is not and there are as many
as there may be. -/
inductive PushRefused (limits : Limits) (held : Nat) (element : Bytes) : ExecError → Prop where
  | tooLarge (hsize : limits.element < element.length) :
      PushRefused limits held element (.elementTooLarge element.length limits.element)
  | full (hsize : element.length ≤ limits.element) (hfull : limits.items ≤ held) :
      PushRefused limits held element (.stackOverflow limits.items)

/-- A push puts the element on top, or it is refused and leaves everything as it is. -/
theorem run_push_cases (limits : Limits) (element : Bytes) (m : Machine) :
    (element.length ≤ limits.element ∧ m.stack.length < limits.items ∧
        (push limits element).run m = ⟨.ok (), { m with stack := element :: m.stack }, []⟩) ∨
      ∃ e, PushRefused limits m.stack.length element e ∧ (push limits element).run m = ⟨.error e, m, []⟩ := by
  by_cases hsize : element.length ≤ limits.element
  · by_cases hroom : m.stack.length < limits.items
    · exact .inl ⟨hsize, hroom, run_push hsize hroom⟩
    · have hfull := Nat.le_of_not_lt hroom
      exact .inr ⟨_, .full hsize hfull, run_push_of_full hsize hfull⟩
  · have hlarge := Nat.lt_of_not_le hsize
    exact .inr ⟨_, .tooLarge hlarge, run_push_of_large hlarge⟩

/-! ## Copies and digests -/

theorem run_dup (h : m.stack = element :: rest) :
    (perform rules op (.move .dup)).run m = (push rules.limits element).run m := by
  have hpeek : (peek 0).run m = ⟨.ok element, m, []⟩ := by
    rw [peek, run_bind_silent (run_get m), h]
    rfl
  rw [perform, move, run_bind_silent hpeek]

theorem run_digest (d : DigestKind) (h : m.stack = element :: rest) :
    (perform rules op (.digest d)).run m =
      (push rules.limits (applyDigest rules.digests d element)).run { m with stack := rest } := by
  rw [perform, run_bind_silent (run_pop_cons h)]

/-! ## Tests -/

/-- A verdict on top is taken, and demanded on behalf of the opcode. -/
theorem run_verify {verdict : Bool} (op : UInt8) (h : m.stack = Truth.encode verdict :: rest) :
    (verify op).run m =
      ⟨if verdict then .ok () else .error (.verifyFailed op), { m with stack := rest }, []⟩ := by
  rw [verify, run_bind_silent (run_pop_cons h), Truth.ofBytes_encode]
  cases verdict <;> rfl

theorem run_decideTest_equal {checker : Checker} (h : m.stack = a :: b :: rest) :
    (decideTest checker .equal).run m = ⟨.ok (a == b), { m with stack := rest }, []⟩ := by
  have hsecond : ({ m with stack := b :: rest } : Machine).stack = b :: rest := rfl
  rw [decideTest, run_bind_silent (run_pop_cons h), run_bind_silent (run_pop_cons hsecond), run_pure]

theorem run_decideTest_signature {checker : Checker} {key signature : Bytes}
    (h : m.stack = key :: signature :: rest) :
    (decideTest checker .signature).run m =
      ⟨.ok (checker signature key m.scriptCode), { m with stack := rest },
        [.check ⟨signature, key, m.scriptCode, checker signature key m.scriptCode⟩]⟩ := by
  have hsecond : ({ m with stack := signature :: rest } : Machine).stack = signature :: rest := rfl
  rw [decideTest, run_bind_silent (run_pop_cons h), run_bind_silent (run_pop_cons hsecond)]
  rfl

/-- A verdict takes the place of what was tested. -/
theorem run_test {t : Test} {verdict : Bool} {reports : List Event}
    (h : (decideTest rules.checker t).run m = ⟨.ok verdict, m', reports⟩)
    (hsize : (Truth.encode verdict).length ≤ rules.limits.element) (hroom : m'.stack.length < rules.limits.items) :
    (perform rules op (.test t false)).run m =
      ⟨.ok (), { m' with stack := Truth.encode verdict :: m'.stack }, reports⟩ := by
  rw [perform, run_bind_ok h, run_bind_silent (run_push hsize hroom)]
  simp

/-- A verdict that is demanded leaves nothing. -/
theorem run_test_demanded {t : Test} {verdict : Bool} {reports : List Event}
    (h : (decideTest rules.checker t).run m = ⟨.ok verdict, m', reports⟩)
    (hsize : (Truth.encode verdict).length ≤ rules.limits.element) (hroom : m'.stack.length < rules.limits.items) :
    (perform rules op (.test t true)).run m =
      ⟨if verdict then .ok () else .error (.verifyFailed op), m', reports⟩ := by
  have hverify : (verify op).run { m' with stack := Truth.encode verdict :: m'.stack } =
      ⟨if verdict then .ok () else .error (.verifyFailed op), m', []⟩ := run_verify op rfl
  rw [perform, run_bind_ok h, run_bind_silent (run_push hsize hroom), if_pos rfl, hverify]
  simp

end CoinScript.Machine
