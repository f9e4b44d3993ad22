/-
What commands are made of. Every command is put together from six actions on the stack: a push and a
pop, a look below the top, an exchange of the two top elements, a push of their number, and a check of
a signature. Whatever holds of these six and of sequences holds of every command, so an invariant of
the machine's commands is an induction with six cases that say something. An invariant that the
conditionals do not matter to is then one of every walk through a script.

Under other limits a command is put together from the same actions in the same order. So commands are
taken apart once, for two limits at a time, and what concerns one machine alone is the half of that.
-/
import CoinScript.Machine.Verify
import CoinScript.Proofs.Action

namespace CoinScript

open CoinScript.Action

/-- The command has signatures checked. -/
def Command.asksChecker : Command → Bool
  | test .signature _ | test .multisig _ => true
  | _ => false

/-- The command looks at the number of elements. -/
def Command.asksDepth : Command → Bool
  | move .depth => true
  | _ => false

/-- The command makes a remark. -/
def Command.makesRemark : Command → Bool
  | unsupported => true
  | _ => false

namespace Operation

/-- The operation is a command that does so. -/
def does (so : Command → Bool) : Operation → Bool
  | opcode op =>
    match Instruction.ofByte op with
    | .flow _ => false
    | .command c => so c
  | push _ _ => false

/-- The operation has signatures checked. -/
def asksChecker (op : Operation) : Bool := op.does Command.asksChecker

/-- The operation looks at the number of elements. -/
def asksDepth (op : Operation) : Bool := op.does Command.asksDepth

/-- The operation makes a remark. -/
def makesRemark (op : Operation) : Bool := op.does Command.makesRemark

variable {so : Command → Bool} {byte : UInt8} {c : Command}

theorem does_opcode (h : Instruction.ofByte byte = .command c) : (opcode byte).does so = so c := by
  rw [does, h]

theorem makesRemark_opcode_of_ne (h : Instruction.ofByte byte ≠ .command .unsupported) :
    (opcode byte).makesRemark = false := by
  unfold makesRemark
  cases hbyte : Instruction.ofByte byte with
  | flow f => simp [does, hbyte]
  | command c =>
    rw [does_opcode hbyte]
    cases c with
    | unsupported => exact absurd hbyte h
    | _ => rfl

end Operation

namespace Machine

/-- The action is put together from the actions on the stack, with signature checks only if they are
asked for, and remarks only if any are made. What it fails with by itself has nothing to do with
conditionals. -/
inductive Stackwise (rules : Rules) (asked noted : Prop) : {α : Type} → Exec Machine α → Prop where
  | pure {α : Type} (a : α) : Stackwise rules asked noted (Pure.pure a)
  | bind {α β : Type} {x : Exec Machine α} {f : α → Exec Machine β} :
      Stackwise rules asked noted x → (∀ a, Stackwise rules asked noted (f a)) →
        Stackwise rules asked noted (x >>= f)
  | fail {α : Type} (e : ExecError) (he : e ≠ .unbalancedConditional) :
      Stackwise rules asked noted (Action.fail e : Exec Machine α)
  | remark (h : noted) (r : Log.Remark) : Stackwise rules asked noted (Action.report (.remark r))
  | push (element : Bytes) : Stackwise rules asked noted (push rules.limits element)
  | pop : Stackwise rules asked noted pop
  | peek (depth : Nat) : Stackwise rules asked noted (peek depth)
  | swap : Stackwise rules asked noted (move rules.limits .swap)
  | depth : Stackwise rules asked noted (move rules.limits .depth)
  | checkSignature (h : asked) (signature key : Bytes) :
      Stackwise rules asked noted (checkSignature rules.checker signature key)

/-- The rules with other limits. -/
abbrev withLimits (rules : Rules) (limits : Limits) : Rules := { rules with limits := limits }

/-- The two actions are put together alike from the actions on the stack, the second under limits of its
own. They look at the number of elements only if it is counted. -/
inductive Alike (rules : Rules) (limits : Limits) (asked counted noted : Prop) :
    {α : Type} → Exec Machine α → Exec Machine α → Prop where
  | pure {α : Type} (a : α) : Alike rules limits asked counted noted (Pure.pure a) (Pure.pure a)
  | bind {α β : Type} {x x' : Exec Machine α} {f f' : α → Exec Machine β} :
      Alike rules limits asked counted noted x x' → (∀ a, Alike rules limits asked counted noted (f a) (f' a)) →
        Alike rules limits asked counted noted (x >>= f) (x' >>= f')
  | fail {α : Type} (e : ExecError) (he : e ≠ .unbalancedConditional) :
      Alike rules limits asked counted noted (Action.fail e : Exec Machine α) (Action.fail e)
  | remark (h : noted) (r : Log.Remark) :
      Alike rules limits asked counted noted (Action.report (.remark r)) (Action.report (.remark r))
  | push (element : Bytes) :
      Alike rules limits asked counted noted (push rules.limits element) (push limits element)
  | pop : Alike rules limits asked counted noted pop pop
  | peek (depth : Nat) : Alike rules limits asked counted noted (peek depth) (peek depth)
  | swap : Alike rules limits asked counted noted (move rules.limits .swap) (move limits .swap)
  | depth (h : counted) : Alike rules limits asked counted noted (move rules.limits .depth) (move limits .depth)
  | checkSignature (h : asked) (signature key : Bytes) : Alike rules limits asked counted noted
      (checkSignature rules.checker signature key) (checkSignature rules.checker signature key)

variable {rules : Rules} {limits : Limits} {asked counted noted : Prop} {P : Machine → Prop}
  {allowed : Event → Prop}

theorem Alike.stackwise {α : Type} {x x' : Exec Machine α} (h : Alike rules limits asked counted noted x x') :
    Stackwise rules asked noted x := by
  induction h with
  | pure a => exact .pure a
  | bind _ _ ihx ihf => exact .bind ihx ihf
  | fail e he => exact .fail e he
  | remark h r => exact .remark h r
  | push element => exact .push element
  | pop => exact .pop
  | peek depth => exact .peek depth
  | swap => exact .swap
  | depth _ => exact .depth
  | checkSignature h signature key => exact .checkSignature h signature key

/-! ## Numbers, verdicts and checks -/

theorem alike_require {condition : Bool} {e : ExecError} (he : e ≠ .unbalancedConditional) :
    Alike rules limits asked counted noted (Action.require condition e) (Action.require condition e) := by
  cases condition
  · exact .fail e he
  · exact .pure ()

theorem alike_popNumber : Alike rules limits asked counted noted popNumber popNumber := by
  refine .bind .pop fun element => ?_
  split
  · exact .fail _ nofun
  · exact .pure _

theorem alike_popMany (n : Nat) : Alike rules limits asked counted noted (popMany n) (popMany n) := by
  induction n with
  | zero => exact .pure []
  | succ n ih => exact .bind .pop fun _ => .bind ih fun _ => .pure _

theorem alike_verify (op : UInt8) : Alike rules limits asked counted noted (verify op) (verify op) :=
  .bind .pop fun _ => alike_require nofun

theorem alike_matchSignatures (h : asked) (signatures keys : List Bytes) :
    Alike rules limits asked counted noted (matchSignatures rules.checker signatures keys)
      (matchSignatures rules.checker signatures keys) := by
  induction keys generalizing signatures with
  | nil => cases signatures <;> exact .pure _
  | cons key keys ih =>
    cases signatures with
    | nil => exact .pure _
    | cons signature later =>
      refine .bind (.checkSignature h signature key) fun accepted => ?_
      -- whichever signatures are left, the keys behind are matched against them
      dsimp only
      generalize (if accepted = true then later else signature :: later) = unmatched
      split
      · exact .pure _
      · exact ih unmatched

theorem alike_checkMultisig (h : asked) :
    Alike rules limits asked counted noted (checkMultisig rules.checker) (checkMultisig rules.checker) :=
  .bind alike_popNumber fun _ => .bind (alike_require nofun) fun _ =>
    .bind (alike_popMany _) fun _ => .bind alike_popNumber fun _ =>
      .bind (alike_require nofun) fun _ => .bind (alike_popMany _) fun _ =>
        .bind .pop fun _ => alike_matchSignatures h _ _

/-! ## Commands -/

theorem alike_move {m : Move} (h : (Command.move m).asksDepth = true → counted) :
    Alike rules limits asked counted noted (move rules.limits m) (move limits m) := by
  cases m with
  | dup | copySecond | size => exact .bind (.peek _) fun _ => .push _
  | drop => exact .bind .pop fun _ => .pure _
  | dropTwo => exact .bind .pop fun _ => .bind .pop fun _ => .pure _
  | swap => exact .swap
  | nip => exact .bind .pop fun _ => .bind .pop fun _ => .push _
  | depth => exact .depth (h rfl)

theorem alike_decideTest {t : Test} (h : (Command.test t false).asksChecker = true → asked) :
    Alike rules limits asked counted noted (decideTest rules.checker t) (decideTest rules.checker t) := by
  cases t with
  | equal => exact .bind .pop fun _ => .bind .pop fun _ => .pure _
  | numEqual => exact .bind alike_popNumber fun _ => .bind alike_popNumber fun _ => .pure _
  | signature => exact .bind .pop fun _ => .bind .pop fun _ => .checkSignature (h rfl) _ _
  | multisig => exact alike_checkMultisig (h rfl)

/-- Every command is put together alike under other limits; it checks signatures, counts the elements or makes
a remark only if it is one that does. -/
theorem alike_perform (op : UInt8) {c : Command} (h : c.asksChecker = true → asked)
    (hdepth : c.asksDepth = true → counted) (hremark : c.makesRemark = true → noted) :
    Alike rules limits asked counted noted (perform rules op c) (perform (withLimits rules limits) op c) := by
  cases c with
  | literal v => exact .push _
  | nop => exact .pure ()
  | verify => exact alike_verify op
  | ret => exact .fail _ nofun
  | move m => exact alike_move hdepth
  | unary f => exact .bind alike_popNumber fun _ => .push _
  | binary f => exact .bind alike_popNumber fun _ => .bind alike_popNumber fun _ => .push _
  | digest d => exact .bind .pop fun _ => .push _
  | test t demanded =>
    have ht : (Command.test t false).asksChecker = true → asked := by cases t <;> exact h
    refine .bind (alike_decideTest ht) fun verdict => .bind (.push _) fun _ => ?_
    split
    · exact alike_verify op
    · exact .pure ()
  | unsupported => exact .bind (.remark (hremark rfl) _) fun _ => .fail _ nofun

/-- Every command is put together from the actions on the stack. -/
theorem stackwise_perform (op : UInt8) {c : Command} (h : c.asksChecker = true → asked)
    (hremark : c.makesRemark = true → noted) : Stackwise rules asked noted (perform rules op c) := by
  have halike : Alike rules rules.limits asked True noted (perform rules op c) _ :=
    alike_perform op h (fun _ => trivial) hremark
  exact halike.stackwise

/-! ## Failures -/

theorem failsOnly_pop {fault : ExecError → Prop} (h : fault .stackUnderflow) : FailsOnly fault pop := by
  refine failsOnly_get.bind fun m => ?_
  split
  · exact failsOnly_fail h
  · exact failsOnly_modify.bind fun _ => failsOnly_pure

/-- A check has a verdict, whatever it is. -/
theorem failsOnly_checkSignature {fault : ExecError → Prop} (checker : Checker) (signature key : Bytes) :
    FailsOnly fault (checkSignature checker signature key) :=
  failsOnly_get.bind fun _ => failsOnly_report.bind fun _ => failsOnly_pure

/-- No action on the stack fails for the sake of conditionals. -/
theorem Stackwise.failsOnly {α : Type} {x : Exec Machine α} (h : Stackwise rules asked noted x) :
    FailsOnly (· ≠ .unbalancedConditional) x := by
  induction h with
  | pure a => exact failsOnly_pure
  | bind _ _ ihx ihf => exact ihx.bind ihf
  | fail e he => exact failsOnly_fail he
  | remark _ r => exact failsOnly_report
  | push element =>
    exact failsOnly_get.bind fun _ => (failsOnly_require nofun).bind fun _ =>
      (failsOnly_require nofun).bind fun _ => failsOnly_modify
  | pop => exact failsOnly_pop nofun
  | peek depth =>
    refine failsOnly_get.bind fun m => ?_
    split
    · exact failsOnly_fail nofun
    · exact failsOnly_pure
  | swap =>
    refine failsOnly_get.bind fun m => ?_
    split
    · exact failsOnly_modify
    · exact failsOnly_fail nofun
  | depth =>
    exact failsOnly_get.bind fun _ => failsOnly_get.bind fun _ => (failsOnly_require nofun).bind fun _ =>
      (failsOnly_require nofun).bind fun _ => failsOnly_modify
  | checkSignature _ signature key => exact failsOnly_checkSignature _ signature key

/-! ## Invariants -/

/-- Every action on the stack keeps the property, the conditionals do not matter to it, and remarks are
allowed if any are made. -/
structure Invariant (rules : Rules) (asked noted : Prop) (P : Machine → Prop) (allowed : Event → Prop) : Prop where
  stackwise : ∀ {α : Type} {x : Exec Machine α}, Stackwise rules asked noted x → Keeps P allowed x
  conditions : ∀ {m : Machine} (conditions : List Bool), P m → P { m with conditions := conditions }
  remark : noted → ∀ r : Log.Remark, allowed (.remark r)

namespace Invariant

theorem openBranch (h : Invariant rules asked noted P allowed) (takenOn : Bool) :
    Keeps P allowed (openBranch takenOn) :=
  keeps_get.bind fun m => by
    dsimp only
    split
    · exact (h.stackwise .pop).bind fun _ =>
        Keeps.bind keeps_pure fun _ => keeps_modify fun _ hm => h.conditions _ hm
    · exact Keeps.bind keeps_pure fun _ => keeps_modify fun _ hm => h.conditions _ hm

theorem follow (h : Invariant rules asked noted P allowed) (f : Flow) : Keeps P allowed (follow f) := by
  cases f with
  | ifTrue => exact h.openBranch true
  | ifFalse => exact h.openBranch false
  | otherwise | endIf =>
    refine keeps_get.bind fun m => ?_
    split
    · exact keeps_fail
    · exact keeps_modify fun _ hm => h.conditions _ hm

theorem whenExecuting (h : Invariant rules asked noted P allowed) {x : Exec Machine Unit}
    (hx : Stackwise rules asked noted x) : Keeps P allowed (whenExecuting x) :=
  keeps_get.bind fun m => by
    split
    · exact h.stackwise hx
    · exact keeps_pure

theorem handle (h : Invariant rules asked noted P allowed) {op : Operation} (hop : op.asksChecker = true → asked)
    (hremark : op.makesRemark = true → noted) : Keeps P allowed ((context rules).handle op) := by
  cases op with
  | push lead payload => exact h.whenExecuting (.push payload)
  | opcode byte =>
    show Keeps P allowed (execOpcode rules byte)
    rw [execOpcode]
    split
    · exact h.follow _
    · next c hc =>
      rw [Operation.asksChecker, Operation.does_opcode hc] at hop
      rw [Operation.makesRemark, Operation.does_opcode hc] at hremark
      exact h.whenExecuting (stackwise_perform byte hop hremark)

theorem dispatch (h : Invariant rules asked True P allowed) (i : Nat) {chunks : List Chunk}
    (hchunks : ∀ c ∈ chunks, c.operation.asksChecker = true → asked) :
    Keeps P allowed ((context rules).dispatch i chunks) := by
  induction chunks generalizing i with
  | nil => exact keeps_pure
  | cons c chunks ih =>
    obtain ⟨hc, hrest⟩ := List.forall_mem_cons.1 hchunks
    have hhandle : Keeps P allowed ((context rules).handle c.operation) := h.handle hc fun _ => trivial
    exact Keeps.bind (keeps_report (h.remark trivial _)) fun _ =>
      Keeps.bind (hhandle.reportingFailure fun _ => h.remark trivial _) fun _ => ih (i + 1) hrest

/-- It is kept by a script of which every chunk that asks for checks may. -/
theorem execute (h : Invariant rules asked True P allowed) {script : Script}
    (hchunks : ∀ c ∈ script.chunks, c.operation.asksChecker = true → asked) :
    Keeps P allowed ((context rules).execute script) := by
  refine (h.dispatch 0 hchunks).bind fun _ => keeps_get.bind fun m => ?_
  dsimp only
  split
  · exact (keeps_report (h.remark trivial _)).bind fun _ => keeps_fail
  · exact keeps_pure

end Invariant

end Machine

end CoinScript
