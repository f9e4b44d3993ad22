/-
Scripts that only push. A script counts as such by the first byte of each of its operations, which is then a push or an
opcode up to the last literal. All of these put one element on the stack and look at nothing, but for one opcode that
is reserved and fails. So such a script leaves what it found where it was and puts the elements of its operations on top
in order, up to the first that cannot be put there, and has no signature checked.

The step is one operation, which puts its element on top or fails and leaves everything as it is; the walk is an
induction on the operations with the stack growing.
-/
import CoinScript.Digest.Standard
import CoinScript.Proofs.Machine.Commands
import CoinScript.Proofs.Machine.ScriptHash
import CoinScript.Proofs.Machine.Walk
import CoinScript.Proofs.Script.Multisig
import CoinScript.Proofs.Script.Operations

namespace CoinScript

open CoinScript.Action

/-! ## Literals -/

/-- The one opcode among the literals that stands for nothing. -/
abbrev Op.reserved : UInt8 := 0x50

/-- The element that an operation puts on the stack by itself. -/
def Operation.literal? : Operation → Option Bytes
  | push _ payload => some payload
  | opcode Op.zero => some []
  | opcode Op.negativeOne => some [0x81]
  | opcode op => (Op.toSmallInt? op).map fun n => [UInt8.ofNat n]

/-- The operation is well-formed, and a push or an opcode up to the last literal. -/
structure Operation.IsData (op : Operation) : Prop where
  wellFormed : op.WellFormed
  lead_le : op.lead ≤ Op.sixteen

theorem Operation.IsData.literal_or_reserved {op : Operation} (h : op.IsData) :
    (∃ element, op.literal? = some element) ∨ op = .opcode Op.reserved := by
  cases op with
  | push lead payload => exact .inl ⟨payload, rfl⟩
  | opcode byte =>
    -- the table up to the last literal, without the bytes that announce a push
    have hall : ∀ n < 97, (opcode (UInt8.ofNat n)).WellFormed →
        (opcode (UInt8.ofNat n)).literal?.isSome ∨ UInt8.ofNat n = Op.reserved := by decide
    have hbyte : (opcode byte).WellFormed → (opcode byte).literal?.isSome ∨ byte = Op.reserved :=
      Op.of_le_sixteen (P := fun byte => (opcode byte).WellFormed → (opcode byte).literal?.isSome ∨ byte = Op.reserved)
        hall h.lead_le
    rcases hbyte h.wellFormed with hsome | hreserved
    · exact .inl (Option.isSome_iff_exists.1 hsome)
    · exact .inr (congrArg _ hreserved)

theorem Operation.exists_literal {byte : UInt8} {element : Bytes} (h : (opcode byte).literal? = some element) :
    ∃ v, Instruction.ofByte byte = .command (.literal v) ∧ Number.encode v = element := by
  unfold literal? at h
  split at h
  · next heq => cases heq
  · next heq =>
    cases heq
    cases h
    exact ⟨0, by decide, by decide⟩
  · next heq =>
    cases heq
    cases h
    exact ⟨-1, by decide, by decide⟩
  · next heq =>
    cases heq
    obtain ⟨n, hn, rfl⟩ := Option.map_eq_some_iff.1 h
    obtain ⟨⟨hone, hsixteen⟩, rfl⟩ := Op.toSmallInt?_eq_some_iff.1 hn
    have hall : ∀ n ≤ 16, 1 ≤ n → Instruction.ofByte (UInt8.ofNat (0x50 + n)) = .command (.literal n) ∧
        Number.encode n = [UInt8.ofNat n] := by decide
    exact ⟨n, hall n hsixteen hone⟩

namespace Machine

variable {rules : Rules} {limits : Limits} {script : Script} {m m' : Machine} {op : Operation} {ops : List Operation}
  {elements : List Bytes} {held : Nat}

/-- An operation cannot put its element on so many others for this cause: it is reserved and has none, or the push of
the element is refused. -/
inductive LiteralRefused (limits : Limits) (held : Nat) : Operation → ExecError → Prop where
  | reserved : LiteralRefused limits held (.opcode Op.reserved) (.invalidOpcode Op.reserved)
  | refused {op : Operation} {element : Bytes} {e : ExecError} (hliteral : op.literal? = some element)
      (hpush : PushRefused limits held element e) : LiteralRefused limits held op e

theorem run_handle_literal {element : Bytes} (hexec : m.isExecuting = true) (h : op.literal? = some element) :
    ((context rules).handle op).run m = (push rules.limits element).run m := by
  cases op with
  | push lead payload =>
    cases h
    exact run_handle_push hexec lead _
  | opcode byte =>
    obtain ⟨v, hbyte, rfl⟩ := Operation.exists_literal h
    exact run_handle_command hexec hbyte

/-- An operation of a script that only pushes puts its element on top, or is refused and leaves everything as it is. -/
theorem run_handle_literal_cases (rules : Rules) (hexec : m.isExecuting = true) (hop : op.IsData) :
    (∃ element, op.literal? = some element ∧ (∀ e, ¬ LiteralRefused rules.limits m.stack.length op e) ∧
        ((context rules).handle op).run m = ⟨.ok (), { m with stack := element :: m.stack }, []⟩) ∨
      ∃ e reports, LiteralRefused rules.limits m.stack.length op e ∧
        ((context rules).handle op).run m = ⟨.error e, m, reports⟩ := by
  rcases hop.literal_or_reserved with ⟨element, hliteral⟩ | rfl
  · rw [run_handle_literal hexec hliteral]
    rcases run_push_cases rules.limits element m with ⟨hsize, hroom, hrun⟩ | ⟨e, hrefused, hrun⟩
    · refine .inl ⟨element, hliteral, ?_, hrun⟩
      rintro e (_ | ⟨hliteral', hpush⟩)
      · cases hliteral
      · rw [hliteral] at hliteral'
        cases hliteral'
        rcases hpush with hlarge | ⟨-, hfull⟩
        · omega
        · omega
    · exact .inr ⟨e, [], .refused hliteral hrefused, hrun⟩
  · have hrun : ((context rules).handle (.opcode Op.reserved)).run m =
        (perform rules Op.reserved .unsupported).run m := run_handle_command hexec (by decide)
    exact .inr ⟨_, _, .reserved, hrun⟩

/-! ## Walks -/

/-- The elements are those of the first operations, one each, and none of these is refused. -/
structure PushedFirst (limits : Limits) (held : Nat) (ops : List Operation) (elements : List Bytes) : Prop where
  literals : (ops.take elements.length).map Operation.literal? = elements.map some
  accepted : ∀ k op e, k < elements.length → ops[k]? = some op → ¬ LiteralRefused limits (held + k) op e

/-- Behind so many operations there are no more, or the next one is refused. -/
inductive Stops (limits : Limits) (held : Nat) (ops : List Operation) (k : Nat) : Except ExecError Unit → Prop where
  | atEnd (hend : k = ops.length) : Stops limits held ops k (.ok ())
  | refused {op : Operation} {e : ExecError} (hop : ops[k]? = some op)
      (hrefused : LiteralRefused limits (held + k) op e) : Stops limits held ops k (.error e)

theorem PushedFirst.nil : PushedFirst limits held ops [] := by
  refine ⟨rfl, ?_⟩
  intro k op e hk
  cases hk

theorem PushedFirst.cons {element : Bytes} (hliteral : op.literal? = some element)
    (haccepted : ∀ e, ¬ LiteralRefused limits held op e) (h : PushedFirst limits (held + 1) ops elements) :
    PushedFirst limits held (op :: ops) (element :: elements) := by
  constructor
  · simp [hliteral, h.literals]
  · intro k op' e hk hop
    cases k with
    | zero =>
      cases hop
      exact haccepted e
    | succ k =>
      have hrest := h.accepted k op' e (Nat.lt_of_succ_lt_succ hk) hop
      rwa [Nat.add_assoc, Nat.add_comm 1 k] at hrest

theorem Stops.cons {k : Nat} {result : Except ExecError Unit} (h : Stops limits (held + 1) ops k result) :
    Stops limits held (op :: ops) (k + 1) result := by
  rcases h with hend | ⟨hop, hrefused⟩
  · exact .atEnd (congrArg _ hend)
  · rw [Nat.add_assoc, Nat.add_comm 1 k] at hrefused
    exact .refused hop hrefused

/-- A walk through such operations puts elements on top of what it found, up to the first that is refused. -/
theorem exists_walk_literals (rules : Rules) (hexec : m.isExecuting = true)
    (hops : ∀ op ∈ ops, op.IsData) :
    let walked := ((context rules).walk ops).run m
    ∃ elements, PushedFirst rules.limits m.stack.length ops elements ∧
      walked.state = { m with stack := elements.reverse ++ m.stack } ∧
      Stops rules.limits m.stack.length ops elements.length walked.result := by
  induction ops generalizing m with
  | nil => exact ⟨[], .nil, rfl, .atEnd rfl⟩
  | cons op ops ih =>
    obtain ⟨hop, hops⟩ := List.forall_mem_cons.1 hops
    rw [Context.walk_cons]
    rcases run_handle_literal_cases rules hexec hop with
      ⟨element, hliteral, haccepted, hrun⟩ | ⟨e, reports, hrefused, hrun⟩
    · rw [run_bind_silent hrun]
      obtain ⟨elements, hpushed, hstate, hstops⟩ := ih (m := { m with stack := element :: m.stack }) hexec hops
      refine ⟨element :: elements, .cons hliteral haccepted hpushed, ?_, hstops.cons⟩
      rw [hstate, List.reverse_cons, List.append_assoc]
      rfl
    · rw [run_bind_error hrun]
      exact ⟨[], .nil, rfl, .refused rfl hrefused⟩

/-! ## Runs -/

theorem isData_of_isDataOnly (hscript : script.Reachable) (hdata : script.isDataOnly = true) :
    ∀ op ∈ script.operations, op.IsData := by
  intro op hop
  refine ⟨hscript.coherent.wellFormed op hop, ?_⟩
  obtain ⟨c, hc, rfl⟩ := List.mem_map.1 hop
  exact of_decide_eq_true (List.all_eq_true.1 hdata c hc)

/-- Wherever a run of such a script comes, the elements of the operations so far are on top of what it found. -/
theorem exists_elements_of_comesTo {k : Nat} (hops : ∀ op ∈ script.operations, op.IsData)
    (h : (context rules).ComesTo script.chunks (started script m.stack) k m') :
    ∃ elements : List Bytes, (script.operations.take k).map Operation.literal? = elements.map some ∧
      m' = started script (elements.reverse ++ m.stack) := by
  obtain ⟨hresult, hstate⟩ := (context rules).yields_dispatch_iff_walk.1 h.2
  rw [List.map_take] at hresult hstate
  have htaken : ∀ op ∈ script.operations.take k, op.IsData :=
    fun op hop => hops op (List.mem_of_mem_take hop)
  obtain ⟨elements, hpushed, hwalked, hstops⟩ :=
    exists_walk_literals (m := started script m.stack) rules rfl htaken
  refine ⟨elements, ?_, hstate.symm.trans hwalked⟩
  -- the walk did not fail, so there is an element for each operation
  have hlen : elements.length = (script.operations.take k).length := by
    have hok : Stops rules.limits m.stack.length (script.operations.take k) elements.length (.ok ()) := hresult ▸ hstops
    cases hok with
    | atEnd hend => exact hend
  have hliterals := hpushed.literals
  rwa [hlen, List.take_length] at hliterals

theorem exists_elements_of_run (rules : Rules) (m : Machine)
    (hops : ∀ op ∈ script.operations, op.IsData) :
    let outcome := (runScript rules script).run m
    ∃ elements, PushedFirst rules.limits m.stack.length script.operations elements ∧
      outcome.state = started script (elements.reverse ++ m.stack) ∧
      Stops rules.limits m.stack.length script.operations elements.length outcome.result := by
  intro outcome
  obtain ⟨elements, hpushed, hwalked, hstops⟩ :=
    exists_walk_literals (m := started script m.stack) rules rfl hops
  obtain ⟨hresult, hstate⟩ := (context rules).dispatch_eq_walk 0 script.chunks (started script m.stack)
  rw [Script.operations] at hwalked hstops
  rw [← hresult] at hstops
  rw [← hstate] at hwalked
  have houtcome : outcome = ((context rules).execute script).run (started script m.stack) :=
    run_runScript rules script m
  refine ⟨elements, hpushed, ?_, ?_⟩
  · rw [houtcome, Context.state_execute]
    exact hwalked
  · rw [houtcome, Context.execute]
    rcases hrun : ((context rules).dispatch 0 script.chunks).run (started script m.stack) with ⟨e | ⟨⟩, m', reports⟩
    · rw [run_bind_error hrun]
      rwa [hrun] at hstops
    · -- no conditional was opened, so none is open at the end
      rw [hrun] at hstops hwalked
      have hclosed : m'.conditions = [] := congrArg Machine.conditions hwalked
      rw [run_bind_ok hrun, run_close_nil hclosed]
      exact hstops

/-- A script that only pushes has no signature checked. Wherever its run comes, what it found on the stack is still
there, below the elements of the operations so far; the run ends behind the last of them, or at the first that is
reserved or whose element the limits refuse. -/
theorem dataOnly_only_pushes (rules : Rules) (script : Script) (m : Machine) (hscript : script.Reachable)
    (hdata : script.isDataOnly = true) :
    let outcome := (runScript rules script).run m
    Event.checks outcome.reports = [] ∧
      (∀ k m', (context rules).ComesTo script.chunks (started script m.stack) k m' → ∃ elements : List Bytes,
        (script.operations.take k).map Operation.literal? = elements.map some ∧
          m' = started script (elements.reverse ++ m.stack)) ∧
      ∃ elements, PushedFirst rules.limits m.stack.length script.operations elements ∧
        outcome.state = started script (elements.reverse ++ m.stack) ∧
        Stops rules.limits m.stack.length script.operations elements.length outcome.result := by
  intro outcome
  have hops := isData_of_isDataOnly hscript hdata
  refine ⟨?_, fun k m' => exists_elements_of_comesTo hops, exists_elements_of_run rules m hops⟩
  refine List.eq_nil_iff_forall_not_mem.2 fun c hc => ?_
  have hquiet : ReportsOnly (Event.ChecksOnly [] False True) (runScript rules script) m :=
    checksOnly_runScript_of_quiet (quiet_of_isDataOnly hdata) m
  exact (hquiet _ (Event.mem_checks.1 hc)).1

/-- The literal of sixteen goes on top, and the reserved opcode behind it fails; with room for one element more than
was there, the second of two is refused. -/
theorem dataOnly_only_pushes_of_reserved :
    let rules : Rules :=
      { limits := { items := 2, element := 1 }, digests := Digests.standard, checker := fun _ _ _ => true }
    let m : Machine := { stack := [[9]], conditions := [false] }
    let reserved := Script.ofOperations [.opcode Op.sixteen, .opcode Op.reserved]
    let full := Script.ofOperations [.push Op.pushData1 [7], .opcode Op.zero, .opcode Op.negativeOne]
    (reserved.Reachable ∧ reserved.isDataOnly = true ∧ full.Reachable ∧ full.isDataOnly = true) ∧
      ((runScript rules reserved).run m).result = .error (.invalidOpcode Op.reserved) ∧
      PushedFirst rules.limits 1 reserved.operations [[16]] ∧
      ((runScript rules full).run m).result = .error (.stackOverflow 2) ∧
      PushedFirst rules.limits 1 full.operations [[7]] ∧ ((runScript rules full).run m).state.stack = [[7], [9]] := by
  intro rules m reserved full
  have hreachable {ops : List Operation} (hops : ∀ op ∈ ops, op.WellFormed) : (Script.ofOperations ops).Reachable :=
    .parse (Script.parse_eq_ofOperations hops)
  have hreserved : reserved.Reachable := hreachable (by decide)
  have hfull : full.Reachable := hreachable (by decide)
  obtain ⟨-, -, elements, hpushed, hstate, -⟩ := dataOnly_only_pushes rules reserved m hreserved (by decide)
  obtain ⟨-, -, elements', hpushed', hstate', -⟩ := dataOnly_only_pushes rules full m hfull (by decide)
  have hstack : [[16]] ++ [[9]] = elements.reverse ++ [[9]] := congrArg Machine.stack hstate
  have hstack' : [[7]] ++ [[9]] = elements'.reverse ++ [[9]] := congrArg Machine.stack hstate'
  obtain rfl : [[16]] = elements := List.reverse_injective (List.append_cancel_right hstack)
  obtain rfl : [[7]] = elements' := List.reverse_injective (List.append_cancel_right hstack')
  exact ⟨⟨hreserved, by decide, hfull, by decide⟩, rfl, hpushed, rfl, hpushed', rfl⟩

end Machine

end CoinScript
