/-
Arithmetic on the stack. An opcode that makes a number of one or two numbers reads them from at most four bytes
each, so that its result is far from the bounds of a word and takes five bytes at most; it leaves exactly the number
that is asked for. What it left is read again as long as it takes four bytes, and is no number to any opcode that
asks for one if it takes five.
-/
import CoinScript.Digest.Standard
import CoinScript.Proofs.Machine.Lifetime
import CoinScript.Proofs.Machine.Matching
import CoinScript.Proofs.Number.Words

namespace CoinScript

open CoinScript.Action

/-! ## Opcodes that make numbers -/

/-- The opcodes that make a number of one or two numbers. -/
inductive Numeric where
  | addOne
  | subOne
  /-- Makes one of zero and zero of anything else. -/
  | not
  | add
  | sub
  /-- Makes one of equal numbers and zero of others. -/
  | numEqual
  deriving DecidableEq

namespace Numeric

def opcode : Numeric → UInt8
  | addOne => Op.addOne
  | subOne => Op.subOne
  | not => Op.not
  | add => Op.add
  | sub => Op.sub
  | numEqual => Op.numEqual

def command : Numeric → Command
  | addOne => .unary .addOne
  | subOne => .unary .subOne
  | not => .unary .not
  | add => .binary .add
  | sub => .binary .sub
  | numEqual => .test .numEqual false

theorem ofByte_opcode (n : Numeric) : Instruction.ofByte n.opcode = .command n.command := by
  cases n <;> decide

/-- The number that is made of the second number from the top and the top one. -/
def result (a b : Int) : Numeric → Int
  | addOne => b + 1
  | subOne => b - 1
  | not => if b = 0 then 1 else 0
  | add => a + b
  | sub => a - b
  | numEqual => if a = b then 1 else 0

/-- What is left below the result where the second element from the top is `x`. -/
def below (x : Bytes) (base : List Bytes) : Numeric → List Bytes
  | addOne | subOne | not => x :: base
  | add | sub | numEqual => base

/-- The result in words, if none of the operations on them overflows. -/
def resultByWord? (a b : Word) : Numeric → Option Word
  | addOne => Word.sum? b 1
  | subOne => Word.difference? b 1
  | not => some (if b = 0 then 1 else 0)
  | add => Word.sum? a b
  | sub => Word.difference? a b
  | numEqual => some (if a = b then 1 else 0)

variable {a b : Int}

/-- Numbers of four bytes make numbers of little more. -/
theorem natAbs_result_le (n : Numeric) (ha : a.natAbs ≤ 2 ^ 31 - 1) (hb : b.natAbs ≤ 2 ^ 31 - 1) :
    (n.result a b).natAbs ≤ 2 ^ 32 - 2 := by
  cases n <;> simp only [result]
  case not => split <;> omega
  case numEqual => split <;> omega
  all_goals omega

theorem length_encode_le_five {v : Int} (h : v.natAbs ≤ 2 ^ 32 - 2) : (Number.encode v).length ≤ 5 := by
  rw [Number.length_encode_le_iff]
  omega

/-- In words the result is the same. -/
theorem exists_resultByWord?_eq (n : Numeric) {a b : Word} (ha : a.toInt.natAbs ≤ 2 ^ 31 - 1)
    (hb : b.toInt.natAbs ≤ 2 ^ 31 - 1) :
    ∃ w, n.resultByWord? a b = some w ∧ w.toInt = n.result a.toInt b.toInt := by
  have hone : (1 : Word).toInt = 1 := by decide
  have htruth (p : Prop) [Decidable p] : (if p then (1 : Word) else 0).toInt = if p then 1 else 0 := by
    split <;> rfl
  cases n with
  | addOne =>
    have h := Word.exists_sum?_eq (a := b) (b := 1) (by rw [hone]; omega)
    rwa [hone] at h
  | subOne =>
    have h := Word.exists_difference?_eq (a := b) (b := 1) (by rw [hone]; omega)
    rwa [hone] at h
  | not =>
    have hzero : b = 0 ↔ b.toInt = 0 := BitVec.toInt_inj.symm
    exact ⟨_, rfl, (htruth _).trans (if_congr hzero rfl rfl)⟩
  | add => exact Word.exists_sum?_eq (by omega)
  | sub => exact Word.exists_difference?_eq (by omega)
  | numEqual =>
    exact ⟨_, rfl, (htruth _).trans (if_congr BitVec.toInt_inj.symm rfl rfl)⟩

end Numeric

theorem Truth.encode_eq_encode (p : Prop) [Decidable p] :
    Truth.encode (decide p) = Number.encode (if p then 1 else 0) := by
  by_cases hp : p
  · simp only [hp, if_true]
    decide
  · simp only [hp, if_false]
    decide

/-- The commands that take the top element as a number before anything else. -/
def Command.takesNumber : Command → Bool
  | unary _ | binary _ | test .numEqual _ | test .multisig _ => true
  | _ => false

namespace Machine

variable {rules : Rules} {m : Machine} {x y bytes : Bytes} {base rest : List Bytes} {a b : Int} {op : UInt8}

/-! ## Machines that occur -/

/-- A machine as it is at a moment of a request after others, or at a moment of a payment. -/
inductive Reachable (rules : Rules) (m : Machine) : Prop where
  | asked (requests : List Request) (request : Request)
      (h : request.Moment rules (after rules {} requests) m) : Reachable rules m
  | paid (unlocking locking : Script) (h : PaymentMoment rules unlocking locking m) : Reachable rules m

theorem Reachable.withinLimits (h : Reachable rules m) : WithinLimits rules.limits m := by
  cases h with
  | asked requests request h => exact (withinLimits_after (withinLimits_empty rfl) requests).moment h
  | paid _ _ h => exact h.withinLimits

/-! ## Numbers taken and left -/

theorem run_popNumber_of_none (h : m.stack = bytes :: rest) (hv : Number.decode? bytes = none) :
    popNumber.run m = ⟨.error .invalidNumber, { m with stack := rest }, []⟩ := by
  rw [popNumber, run_bind_silent (run_pop_cons h), hv]
  rfl

/-- Every command that takes a number fails where it gets none. -/
theorem run_perform_of_popNumber {c : Command} {e : ExecError} {m' : Machine} (hc : c.takesNumber = true)
    (h : popNumber.run m = ⟨.error e, m', []⟩) : (perform rules op c).run m = ⟨.error e, m', []⟩ := by
  cases c with
  | unary u => rw [perform, run_bind_error h]
  | binary b => rw [perform, run_bind_error h]
  | test t demanded =>
    cases t with
    | numEqual => rw [perform, decideTest, run_bind_error (run_bind_error h)]
    | multisig =>
      have hcheck : (checkMultisig rules.checker).run m = ⟨.error e, m', []⟩ := by
        rw [checkMultisig, run_bind_error h]
      rw [perform, decideTest, run_bind_error hcheck]
    | equal | signature => cases hc
  | literal _ | nop | verify | ret | move _ | digest _ | unsupported => cases hc

theorem run_decideTest_numEqual {checker : Checker} (h : m.stack = y :: x :: rest)
    (ha : Number.decode? x = some a) (hb : Number.decode? y = some b) :
    (decideTest checker .numEqual).run m = ⟨.ok (decide (a = b)), { m with stack := rest }, []⟩ := by
  have hsecond : ({ m with stack := x :: rest } : Machine).stack = x :: rest := rfl
  rw [decideTest, run_bind_silent (run_popNumber h hb), run_bind_silent (run_popNumber hsecond ha), run_pure]
  rfl

theorem run_perform_unary (u : Unary) (h : m.stack = y :: rest) (hb : Number.decode? y = some b) :
    (perform rules op (.unary u)).run m =
      (push rules.limits (Number.encode (applyUnary u b))).run { m with stack := rest } := by
  rw [perform, run_bind_silent (run_popNumber h hb)]

theorem run_perform_binary (f : Binary) (h : m.stack = y :: x :: rest) (ha : Number.decode? x = some a)
    (hb : Number.decode? y = some b) :
    (perform rules op (.binary f)).run m =
      (push rules.limits (Number.encode (applyBinary f a b))).run { m with stack := rest } := by
  have hsecond : ({ m with stack := x :: rest } : Machine).stack = x :: rest := rfl
  rw [perform, run_bind_silent (run_popNumber h hb), run_bind_silent (run_popNumber hsecond ha)]

/-- A numeric opcode pushes its result on what its operands were taken from. -/
theorem run_numeric (n : Numeric) (hexec : m.isExecuting = true) (h : m.stack = y :: x :: base)
    (ha : Number.decode? x = some a) (hb : Number.decode? y = some b) :
    ((context rules).exec n.opcode).run m =
      (push rules.limits (Number.encode (n.result a b))).run { m with stack := n.below x base } := by
  refine (run_handle_command hexec n.ofByte_opcode).trans ?_
  cases n with
  | addOne | subOne | not => exact run_perform_unary _ h hb
  | add | sub => exact run_perform_binary _ h ha hb
  | numEqual =>
    rw [Numeric.command, perform, run_bind_silent (run_decideTest_numEqual h ha hb), Truth.encode_eq_encode]
    simp only [Bool.false_eq_true, if_false, bind_pure_unit]
    rfl

/-! ## Exact results -/

/-- On two elements of at most four bytes every numeric opcode leaves exactly its result, if an element may have five
bytes. In words no operation overflows, from the operands' bytes to those of the result, which is written in five.
Taken again as a number it is itself if its magnitude is below 2^31; if not it is no number, and every command that
takes one fails. -/
theorem numeric_exact_without_overflow (hm : Reachable rules m) (hexec : m.isExecuting = true)
    (hsize : 5 ≤ rules.limits.element) (hstack : m.stack = y :: x :: base) (hx : x.length ≤ 4) (hy : y.length ≤ 4) :
    ∃ a b, Number.decode? x = some a ∧ Number.decode? y = some b ∧ ∀ n : Numeric,
      let v := n.result a b
      let left : Machine := { m with stack := Number.encode v :: n.below x base }
      let taken : Machine := { m with stack := n.below x base }
      ((context rules).exec n.opcode).run m = ⟨.ok (), left, []⟩ ∧
        v.natAbs ≤ 2 ^ 32 - 2 ∧ (Number.encode v).length ≤ 5 ∧
        (∃ first second w, Number.decodeByWord? x = some (.ok first) ∧ Number.decodeByWord? y = some (.ok second) ∧
          n.resultByWord? first second = some w ∧ w.toInt = v ∧ Number.encodeByWord w = Number.encode v) ∧
        (v.natAbs ≤ 2 ^ 31 - 1 → popNumber.run left = ⟨.ok v, taken, []⟩) ∧
        (2 ^ 31 - 1 < v.natAbs → popNumber.run left = ⟨.error .invalidNumber, taken, []⟩ ∧
          ∀ op c, Instruction.ofByte op = .command c → c.takesNumber = true →
            ((context rules).exec op).run left = ⟨.error .invalidNumber, taken, []⟩) := by
  have ha : Number.decode? x = some (Number.value x) := if_pos hx
  have hb : Number.decode? y = some (Number.value y) := if_pos hy
  obtain ⟨first, hfirst, hfirstValue⟩ := Number.exists_decodeByWord?_eq hx
  obtain ⟨second, hsecond, hsecondValue⟩ := Number.exists_decodeByWord?_eq hy
  have haBound := Number.natAbs_le_of_decode? ha
  have hbBound := Number.natAbs_le_of_decode? hb
  refine ⟨_, _, ha, hb, fun n => ?_⟩
  intro v left taken
  have hbound : v.natAbs ≤ 2 ^ 32 - 2 := n.natAbs_result_le haBound hbBound
  have hlen : (Number.encode v).length ≤ 5 := Numeric.length_encode_le_five hbound
  -- the operands were there, so there is room for the result
  have hroom : taken.stack.length < rules.limits.items := by
    have hitems := hm.withinLimits.items
    rw [hstack] at hitems
    show (n.below x base).length < _
    cases n <;> simp only [Numeric.below, List.length_cons] at hitems ⊢ <;> omega
  refine ⟨?_, hbound, hlen, ?_, ?_, ?_⟩
  · rw [run_numeric n hexec hstack ha hb, run_push (m := taken) (hlen.trans hsize) hroom]
  · rw [← hfirstValue] at haBound
    rw [← hsecondValue] at hbBound
    obtain ⟨w, hw, hvalue⟩ := n.exists_resultByWord?_eq haBound hbBound
    rw [hfirstValue, hsecondValue] at hvalue
    exact ⟨first, second, w, hfirst, hsecond, hw, hvalue, by rw [Number.encodeByWord_eq, hvalue]⟩
  · intro hsmall
    exact run_popNumber rfl (by rw [Number.decode?_encode, if_pos hsmall])
  · intro hlarge
    have hpop : popNumber.run left = ⟨.error .invalidNumber, taken, []⟩ :=
      run_popNumber_of_none rfl (by rw [Number.decode?_encode, if_neg (Nat.not_le.2 hlarge)])
    refine ⟨hpop, fun op c hop hc => ?_⟩
    exact (run_handle_command (m := left) hexec hop).trans (run_perform_of_popNumber hc hpop)

/-- Twice the greatest number that is read, once in its shortest spelling and once on the way to its negative, with
room for two elements of five bytes: the sum is left in five bytes, and no opcode takes it for a number. -/
theorem numeric_exact_without_overflow_of_greatest :
    let rules : Rules :=
      { limits := { items := 2, element := 5 }, digests := Digests.standard, checker := fun _ _ _ => false }
    let greatest : Bytes := [0xff, 0xff, 0xff, 0x7f]
    let least : Bytes := [0xff, 0xff, 0xff, 0xff]
    let m : Machine := { stack := [greatest, greatest] }
    let opposite : Machine := { stack := [least, greatest] }
    (Reachable rules m ∧ Reachable rules opposite) ∧
      ((context rules).exec Op.add).run m = ⟨.ok (), { stack := [[0xfe, 0xff, 0xff, 0xff, 0x00]] }, []⟩ ∧
      ((context rules).exec Op.not).run { stack := [[0xfe, 0xff, 0xff, 0xff, 0x00]] } =
        ⟨.error .invalidNumber, {}, []⟩ ∧
      ((context rules).exec Op.sub).run opposite = ⟨.ok (), { stack := [[0xfe, 0xff, 0xff, 0xff, 0x00]] }, []⟩ ∧
      ((context rules).exec Op.add).run opposite = ⟨.ok (), { stack := [[]] }, []⟩ := by
  intro rules greatest least m opposite
  have hm : Reachable rules m := .asked [.push greatest] (.push greatest) (.inl rfl)
  have hopposite : Reachable rules opposite := .asked [.push greatest] (.push least) (.inl rfl)
  have hgreatest : Number.decode? greatest = some 2147483647 := by decide
  have hleast : Number.decode? least = some (-2147483647) := by decide
  have hsum : Number.encode (Numeric.add.result 2147483647 2147483647) = [0xfe, 0xff, 0xff, 0xff, 0x00] := by decide
  have hdifference : Number.encode (Numeric.sub.result 2147483647 (-2147483647)) = [0xfe, 0xff, 0xff, 0xff, 0x00] := by
    decide
  have hnothing : Number.encode (Numeric.add.result 2147483647 (-2147483647)) = [] := by decide
  have hstack : m.stack = greatest :: greatest :: [] := rfl
  have hstack' : opposite.stack = least :: greatest :: [] := rfl
  obtain ⟨a, b, ha, hb, hnumeric⟩ :=
    numeric_exact_without_overflow hm rfl (by decide) hstack (by decide) (by decide)
  obtain ⟨a', b', ha', hb', hnumeric'⟩ :=
    numeric_exact_without_overflow hopposite rfl (by decide) hstack' (by decide) (by decide)
  obtain rfl : 2147483647 = a := Option.some.inj (hgreatest.symm.trans ha)
  obtain rfl : 2147483647 = b := Option.some.inj (hgreatest.symm.trans hb)
  obtain rfl : 2147483647 = a' := Option.some.inj (hgreatest.symm.trans ha')
  obtain rfl : -2147483647 = b' := Option.some.inj (hleast.symm.trans hb')
  obtain ⟨hadd, -, -, -, -, hlarge⟩ := hnumeric .add
  obtain ⟨hsub, -⟩ := hnumeric' .sub
  obtain ⟨hzero, -⟩ := hnumeric' .add
  have hnot := (hlarge (by decide)).2 Op.not (.unary .not) (by decide) rfl
  rw [hsum] at hadd hnot
  rw [hdifference] at hsub
  rw [hnothing] at hzero
  exact ⟨⟨hm, hopposite⟩, hadd, hnot, hsub, hzero⟩

end Machine

end CoinScript
