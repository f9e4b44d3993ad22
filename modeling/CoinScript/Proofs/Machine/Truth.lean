/-
Truth and zero. Bytes are false and spell zero under the same condition: all of them are zero, but the last may be
the sign alone. A scan for the first byte that is not zero and the sum of the bytes with the sign masked find out the
same, so an instruction that asks for truth and one that asks for a number never disagree on an element; to negate
the top number and branch on true is to branch on false at once.
-/
import CoinScript.Proofs.Machine.Arithmetic
import CoinScript.Proofs.Machine.Nesting

namespace CoinScript

open CoinScript.Action

variable {front : Bytes} {last : UInt8}

/-! ## Bytes that say nothing -/

namespace Bytes

/-- Every byte is zero, except that the last may be the sign alone. -/
def Null (bs : Bytes) : Prop := (∀ b ∈ bs.dropLast, b = 0) ∧ ∀ last ∈ bs.getLast?, last = 0 ∨ last = 0x80

theorem null_nil : Null [] := by
  simp [Null]

theorem null_concat_iff : Null (front ++ [last]) ↔ (∀ b ∈ front, b = 0) ∧ (last = 0 ∨ last = 0x80) := by
  simp [Null]

theorem toNatLE_eq_zero_iff (bs : Bytes) : toNatLE bs = 0 ↔ ∀ b ∈ bs, b = 0 := by
  induction bs with
  | nil => simp [toNatLE]
  | cons b bs ih =>
    have hb : b.toNat = 0 ↔ b = 0 := UInt8.toNat_inj (b := 0)
    rw [toNatLE, List.forall_mem_cons, ← ih, ← hb]
    omega

end Bytes

/-! ## Two readings -/

/-- Null bytes spell zero, with either sign. -/
theorem Number.value_eq_zero_iff (bs : Bytes) : Number.value bs = 0 ↔ bs.Null := by
  rcases List.eq_nil_or_concat' bs with rfl | ⟨front, last, rfl⟩
  · exact iff_of_true (by decide) Bytes.null_nil
  · have hpos : 0 < 256 ^ front.length := Nat.pow_pos (by omega)
    have hlast : last.toNat % 128 = 0 ↔ last = 0 ∨ last = 0x80 := by
      have hlt := last.toNat_lt
      rw [← UInt8.toNat_inj, ← UInt8.toNat_inj]
      show _ ↔ last.toNat = 0 ∨ last.toNat = 128
      omega
    rw [Bytes.null_concat_iff, ← Bytes.toNatLE_eq_zero_iff, ← hlast, ← Int.natAbs_eq_zero,
      Number.natAbs_value_concat, Number.magnitude, Nat.add_eq_zero_iff, Nat.mul_eq_zero]
    simp only [hpos.ne', false_or]

namespace Truth

/-- The sign counts as nothing in the last byte only. -/
theorem ofBytes_concat (front : Bytes) (last : UInt8) :
    ofBytes (front ++ [last]) = (front.any (· != 0) || (last != 0 && last != 0x80)) := by
  induction front with
  | nil => rfl
  | cons b front ih =>
    rw [List.cons_append, ofBytes, ih, List.any_cons, Bool.or_assoc]
    simp

theorem ofBytes_eq_false_iff (bs : Bytes) : ofBytes bs = false ↔ bs.Null := by
  rcases List.eq_nil_or_concat' bs with rfl | ⟨front, last, rfl⟩
  · exact iff_of_true rfl Bytes.null_nil
  · rw [ofBytes_concat, Bytes.null_concat_iff]
    simp [or_iff_not_imp_left]

theorem ofBytes_iff_value_ne_zero (bs : Bytes) : ofBytes bs = true ↔ Number.value bs ≠ 0 := by
  rw [Ne, Number.value_eq_zero_iff, ← ofBytes_eq_false_iff, Bool.not_eq_false]

theorem ofBytes_eq_decide (bs : Bytes) : ofBytes bs = decide (Number.value bs ≠ 0) := by
  rw [Bool.eq_iff_iff, ofBytes_iff_value_ne_zero, decide_eq_true_eq]

/-- The bytes from an index on, where all before were zero: the first that is not zero decides, and it decides for
truth unless it is the sign in the last place. -/
def scan (length index : Nat) : Bytes → Bool
  | [] => false
  | b :: bs => if b ≠ 0 then !(index == length - 1 && b == 0x80) else scan length (index + 1) bs

/-- The scan may stop where it does: no byte behind the first that is not zero would change its verdict. -/
theorem scan_eq_ofBytes (index : Nat) (bs : Bytes) : scan (index + bs.length) index bs = ofBytes bs := by
  induction bs generalizing index with
  | nil => rfl
  | cons b bs ih =>
    have hrest := ih (index + 1)
    rw [Nat.add_right_comm, Nat.add_assoc] at hrest
    rw [scan, List.length_cons, hrest]
    by_cases hb : b = 0
    · subst hb
      cases bs <;> rfl
    · cases bs with
      | nil => simp [ofBytes, hb, bne]
      | cons second bs =>
        have htrue : ofBytes (b :: second :: bs) = true := by
          show (b != 0 || ofBytes (second :: bs)) = true
          simp [hb]
        rw [htrue, if_pos hb]
        simp

end Truth

/-! ## Branches -/

namespace Machine

variable {rules : Rules} {m : Machine} {d : Bytes} {rest : List Bytes}

theorem handle_ifTrue : (context rules).handle (.opcode Op.ifTrue) = openBranch true := by
  rw [handle_of_flow (f := .ifTrue) rfl, follow]

theorem handle_ifFalse : (context rules).handle (.opcode Op.ifFalse) = openBranch false := by
  rw [handle_of_flow (f := .ifFalse) rfl, follow]

theorem encode_not_value (d : Bytes) :
    Number.encode (applyUnary .not (Number.value d)) = Truth.encode (!Truth.ofBytes d) := by
  rw [Truth.ofBytes_eq_decide, ← decide_not, Truth.encode_eq_encode, applyUnary]
  simp only [not_not]

theorem run_handle_not (hexec : m.isExecuting = true) (hstack : m.stack = d :: rest) (hlen : d.length ≤ 4)
    (hsize : (Number.encode (applyUnary .not (Number.value d))).length ≤ rules.limits.element)
    (hroom : rest.length < rules.limits.items) :
    ((context rules).handle (.opcode Op.not)).run m =
      ⟨.ok (), { m with stack := Truth.encode (!Truth.ofBytes d) :: rest }, []⟩ := by
  have hdecode : Number.decode? d = some (Number.value d) := if_pos hlen
  have hop : Instruction.ofByte Op.not = .command (.unary .not) := Numeric.ofByte_opcode .not
  rw [run_handle_command hexec hop, run_perform_unary _ hstack hdecode,
    run_push (m := { m with stack := rest }) hsize hroom, encode_not_value]

/-- A branch on true behind a negation is a branch on false. -/
theorem run_walk_not_ifTrue (hstack : m.stack = d :: rest) (hlen : d.length ≤ 4)
    (hsize : (Number.encode (applyUnary .not (Number.value d))).length ≤ rules.limits.element)
    (hroom : rest.length < rules.limits.items) :
    ((context rules).walk [.opcode Op.not, .opcode Op.ifTrue]).run m = (openBranch false).run m := by
  rw [Context.walk_cons, Context.walk_cons, Context.walk_nil, bind_pure_unit, handle_ifTrue]
  cases hexec : m.isExecuting with
  | false =>
    -- nothing is negated and no condition is asked for
    have hop : Instruction.ofByte Op.not = .command (.unary .not) := Numeric.ofByte_opcode .not
    rw [run_bind_silent (run_handle_command_of_idle hexec hop), run_openBranch_of_idle hexec,
      run_openBranch_of_idle hexec]
  | true =>
    let negated : Machine := { m with stack := Truth.encode (!Truth.ofBytes d) :: rest }
    have hnegated : negated.stack = Truth.encode (!Truth.ofBytes d) :: rest := rfl
    rw [run_bind_silent (run_handle_not hexec hstack hlen hsize hroom), run_openBranch_cons hexec hstack,
      run_openBranch_cons (m := negated) hexec hnegated, Truth.ofBytes_encode]
    cases Truth.ofBytes d <;> rfl

/-! ## Truth and zero -/

/-- Truth and zero never disagree. The bytes that are false are the null ones, also to a scan that stops at the first
byte that is not zero; at most four bytes are true exactly if the number read from them, in words or not, is not zero,
and what is written of a number is true exactly if the number is not zero. So wherever the limits leave room for the
negation of the top element, negating it and branching on true has the whole outcome of branching on false. -/
theorem truth_agrees_with_number :
    (∀ d : Bytes, Truth.scan d.length 0 d = Truth.ofBytes d ∧ (Truth.ofBytes d = false ↔ d.Null)) ∧
      (∀ d : Bytes, d.length ≤ 4 → ∃ v w, Number.decode? d = some v ∧ Number.decodeByWord? d = some (.ok w) ∧
        w.toInt = v ∧ (Truth.ofBytes d = true ↔ v ≠ 0)) ∧
      (∀ v : Int, Truth.ofBytes (Number.encode v) = true ↔ v ≠ 0) ∧
      (∀ w : Word, Truth.ofBytes (Number.encodeByWord w) = true ↔ w ≠ 0) ∧
      ∀ (rules : Rules) (m : Machine) (d : Bytes) (rest : List Bytes), m.stack = d :: rest → d.length ≤ 4 →
        (Number.encode (applyUnary .not (Number.value d))).length ≤ rules.limits.element →
        rest.length < rules.limits.items →
        let branch := ((context rules).walk [.opcode Op.not, .opcode Op.ifTrue]).run m
        branch = ((context rules).handle (.opcode Op.ifFalse)).run m ∧ branch.result = .ok () ∧
          branch.state.conditions = (m.isExecuting && !Truth.ofBytes d) :: m.conditions := by
  refine ⟨fun d => ⟨?_, Truth.ofBytes_eq_false_iff d⟩, fun d hlen => ?_, fun v => ?_, fun w => ?_, ?_⟩
  · have hscan := Truth.scan_eq_ofBytes 0 d
    rwa [Nat.zero_add] at hscan
  · obtain ⟨w, hword, hvalue⟩ := Number.exists_decodeByWord?_eq hlen
    exact ⟨_, w, if_pos hlen, hword, hvalue, Truth.ofBytes_iff_value_ne_zero d⟩
  · rw [Truth.ofBytes_iff_value_ne_zero, Number.value_encode]
  · have hzero : w ≠ 0 ↔ w.toInt ≠ 0 := not_congr BitVec.toInt_inj.symm
    rw [Truth.ofBytes_iff_value_ne_zero, Number.encodeByWord_eq, Number.value_encode, hzero]
  · intro rules m d rest hstack hlen hsize hroom
    rw [run_walk_not_ifTrue hstack hlen hsize hroom, handle_ifFalse]
    refine ⟨rfl, ?_⟩
    cases hexec : m.isExecuting with
    | false =>
      rw [run_openBranch_of_idle hexec]
      exact ⟨rfl, rfl⟩
    | true =>
      rw [run_openBranch_cons hexec hstack]
      exact ⟨rfl, by simp⟩

/-- The zero that is written as a sign behind a zero, and the same two bytes the other way round, on a stack with room
for one element of one byte. -/
theorem truth_agrees_with_number_of_negative_zero :
    let rules : Rules :=
      { limits := { items := 1, element := 1 }, digests := Digests.standard, checker := fun _ _ _ => false }
    let negated (d : Bytes) := ((context rules).walk [.opcode Op.not, .opcode Op.ifTrue]).run { stack := [d] }
    (Truth.ofBytes [0x00, 0x80] = false ∧ (negated [0x00, 0x80]).state.conditions = [true]) ∧
      (Truth.ofBytes [0x80, 0x00] = true ∧ (negated [0x80, 0x00]).state.conditions = [false]) ∧
      ∃ v, Number.decode? [0x80, 0x00] = some v ∧ v ≠ 0 := by
  intro rules negated
  obtain ⟨-, hread, -, -, hbranch⟩ := truth_agrees_with_number
  obtain ⟨v, -, hv, -, -, htrue⟩ := hread [0x80, 0x00] (by decide)
  obtain ⟨-, -, htaken⟩ := hbranch rules { stack := [[0x00, 0x80]] } _ _ rfl (by decide) (by decide) (by decide)
  obtain ⟨-, -, hpassed⟩ := hbranch rules { stack := [[0x80, 0x00]] } _ _ rfl (by decide) (by decide) (by decide)
  exact ⟨⟨by decide, htaken⟩, ⟨by decide, hpassed⟩, v, hv, htrue.1 (by decide)⟩

end Machine

end CoinScript
