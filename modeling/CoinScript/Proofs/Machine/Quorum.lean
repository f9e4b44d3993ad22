/-
Payments to some of several keys. A locking script that was built from terms pushes the required number,
the keys and their number onto what the unlocking script left, and has the signatures there matched with
the keys. An empty key is pushed by an opcode, which makes no difference to the machine.
-/
import CoinScript.Digest.Standard
import CoinScript.Proofs.Machine.Matching
import CoinScript.Proofs.Machine.Walk
import CoinScript.Proofs.Number.Canonical
import CoinScript.Proofs.Script.Multisig

namespace CoinScript

open CoinScript.Action

/-! ## Counts -/

theorem Op.ofByte_of_ofSmallInt? {n : Nat} {op : UInt8} (h : Op.ofSmallInt? n = some op) :
    Instruction.ofByte op = .command (.literal n) := by
  obtain ⟨hn, rfl⟩ := Op.ofSmallInt?_eq_some_iff.1 h
  have hall : ∀ n ≤ 16, 1 ≤ n →
      Instruction.ofByte (UInt8.ofNat (Op.one.toNat + (n - 1))) = .command (.literal n) := by decide
  exact hall n hn.2 hn.1

theorem Number.decode?_encode_of_le {n : Nat} (h : n ≤ 16) : Number.decode? (Number.encode n) = some (n : Int) := by
  rw [decode?_encode, if_pos]
  omega

theorem Number.length_encode_of_le {n : Nat} (h : n ≤ 16) : (Number.encode n).length ≤ 1 := by
  rw [length_encode_le_iff]
  omega

namespace Machine

variable {rules : Rules} {m : Machine} {keys : List PublicKey} {required : Nat} {requiredOp countOp : UInt8}

/-! ## The locking script -/

theorem run_handle_smallInt {n : Nat} {op : UInt8} (hexec : m.isExecuting = true)
    (hop : Op.ofSmallInt? n = some op) :
    ((context rules).handle (.opcode op)).run m = (push rules.limits (Number.encode n)).run m :=
  run_handle_command hexec (Op.ofByte_of_ofSmallInt? hop)

/-- The push of a payload pushes it, also where it is an opcode. -/
theorem run_handle_operation {form : PushForm} {payload : Bytes} (hexec : m.isExecuting = true)
    (hroom : payload.length ≤ form.capacity) :
    ((context rules).handle (form.operation payload)).run m = (push rules.limits payload).run m := by
  rw [PushForm.operation]
  split
  · next hzero =>
    rw [PushForm.eq_nil_of_lead_eq_zero hroom hzero]
    exact run_handle_command (c := .literal 0) hexec (by decide)
  · exact run_handle_push hexec _ _

theorem run_walk_pushes {payloads : List Bytes} (hexec : m.isExecuting = true)
    (hform : ∀ payload ∈ payloads, payload.length ≤ PushForm.minimal.capacity)
    (hsize : ∀ payload ∈ payloads, payload.length ≤ rules.limits.element)
    (hroom : m.stack.length + payloads.length ≤ rules.limits.items) (ops : List Operation) :
    ((context rules).walk (payloads.map PushForm.minimal.operation ++ ops)).run m =
      ((context rules).walk ops).run { m with stack := payloads.reverse ++ m.stack } := by
  induction payloads generalizing m with
  | nil => rfl
  | cons payload payloads ih =>
    obtain ⟨hform, hforms⟩ := List.forall_mem_cons.1 hform
    obtain ⟨hsize, hsizes⟩ := List.forall_mem_cons.1 hsize
    rw [List.length_cons] at hroom
    have hfirst : ((context rules).handle (PushForm.minimal.operation payload)).run m =
        ⟨.ok (), { m with stack := payload :: m.stack }, []⟩ := by
      rw [run_handle_operation hexec hform, run_push hsize (by omega)]
    have hrest : (payload :: m.stack).length + payloads.length ≤ rules.limits.items := by
      rw [List.length_cons]
      omega
    rw [List.map_cons, List.cons_append, Context.walk_cons, run_bind_silent hfirst,
      ih (m := { m with stack := payload :: m.stack }) hexec hforms hsizes hrest, List.reverse_cons,
      List.append_assoc]
    rfl

/-- The counts and the keys stand above what was there when the signatures are checked. -/
theorem run_walk_multisigOps (hexec : m.isExecuting = true)
    (hrequired : Op.ofSmallInt? required = some requiredOp) (hcount : Op.ofSmallInt? keys.length = some countOp)
    (hform : ∀ key ∈ keys, key.bytes.length ≤ PushForm.minimal.capacity)
    (hsize : ∀ key ∈ keys, key.bytes.length ≤ rules.limits.element) (hone : 1 ≤ rules.limits.element)
    (hroom : m.stack.length + keys.length + 2 ≤ rules.limits.items) :
    ((context rules).walk (Script.multisigOps keys requiredOp countOp)).run m =
      (perform rules Op.checkMultisig (.test .multisig false)).run { m with
        stack := Number.encode keys.length ::
          ((keys.map PublicKey.bytes).reverse ++ Number.encode required :: m.stack) } := by
  have hrequiredSize : (Number.encode required).length ≤ rules.limits.element :=
    Nat.le_trans (Number.length_encode_of_le (Op.ofSmallInt?_eq_some_iff.1 hrequired).1.2) hone
  have hcountSize : (Number.encode keys.length).length ≤ rules.limits.element :=
    Nat.le_trans (Number.length_encode_of_le (Op.ofSmallInt?_eq_some_iff.1 hcount).1.2) hone
  let asked : Machine := { m with stack := Number.encode required :: m.stack }
  let pushed : Machine := { m with stack := (keys.map PublicKey.bytes).reverse ++ asked.stack }
  have hfirst : ((context rules).handle (.opcode requiredOp)).run m = ⟨.ok (), asked, []⟩ := by
    rw [run_handle_smallInt hexec hrequired, run_push hrequiredSize (by omega)]
  have hkeys (ops : List Operation) :
      ((context rules).walk (keys.map (fun key => PushForm.minimal.operation key.bytes) ++ ops)).run asked =
        ((context rules).walk ops).run pushed := by
    have hforms : ∀ payload ∈ keys.map PublicKey.bytes, payload.length ≤ PushForm.minimal.capacity :=
      List.forall_mem_map.2 hform
    have hsizes : ∀ payload ∈ keys.map PublicKey.bytes, payload.length ≤ rules.limits.element :=
      List.forall_mem_map.2 hsize
    have hfits : asked.stack.length + (keys.map PublicKey.bytes).length ≤ rules.limits.items := by
      rw [List.length_map]
      show m.stack.length + 1 + keys.length ≤ _
      omega
    have hpushes := run_walk_pushes (m := asked) hexec hforms hsizes hfits ops
    rw [List.map_map] at hpushes
    exact hpushes
  have hlast : ((context rules).handle (.opcode countOp)).run pushed =
      ⟨.ok (), { m with stack := Number.encode keys.length :: pushed.stack }, []⟩ := by
    have hfits : pushed.stack.length < rules.limits.items := by
      show ((keys.map PublicKey.bytes).reverse ++ Number.encode required :: m.stack).length < _
      simp only [List.length_append, List.length_reverse, List.length_map, List.length_cons]
      omega
    rw [run_handle_smallInt (m := pushed) hexec hcount, run_push hcountSize hfits]
  rw [Script.multisigOps, Context.walk_cons, run_bind_silent hfirst, hkeys, Context.walk_cons,
    run_bind_silent hlast, Context.walk_cons, Context.walk_nil, bind_pure_unit]
  exact run_handle_command (m := { pushed with stack := Number.encode keys.length :: pushed.stack }) hexec
    (by decide)

/-! ## Payments -/

variable {unlocking locking : Script} {unlocked : Machine}

theorem isPayToScriptHash_multisigOf (hcount : Op.ofSmallInt? keys.length = some countOp) :
    (Script.multisigOf keys required requiredOp countOp).isPayToScriptHash = false := by
  have hone := (Op.ofSmallInt?_eq_some_iff.1 hcount).1.1
  have hlen : (Script.multisigOf keys required requiredOp countOp).chunks.length = keys.length + 3 := by
    rw [Script.multisigOf, length_place, Script.multisigOps]
    simp
  have hne : (keys.length + 3 == 3) = false := by
    rw [beq_eq_false_iff_ne]
    omega
  rw [Script.isPayToScriptHash, hlen, hne, Bool.false_and]

/-- What becomes of a payment to some of several keys if its unlocking script leaves room for the keys and
their counts. -/
theorem run_verifyPayment_multisig (hbuilt : Script.ofMultisig keys required = .ok locking)
    (hsize : ∀ key ∈ keys, key.bytes.length ≤ rules.limits.element) (hone : 1 ≤ rules.limits.element)
    (hunlock : (runScript rules unlocking).Yields m () unlocked)
    (hroom : unlocked.stack.length + keys.length + 2 ≤ rules.limits.items) :
    let result := ((verifyPayment rules unlocking locking).run m).result
    (unlocked.stack.length ≤ required → result = .error .stackUnderflow) ∧
      (required < unlocked.stack.length → ∃ verdict : Bool,
        (verdict = true ↔ OrderedMatching (fun signature key => rules.checker signature key locking.data)
          (unlocked.stack.take required).reverse (keys.map PublicKey.bytes)) ∧
        result = if verdict then .ok () else .error .evalFalse) := by
  intro result
  obtain ⟨hle, hform, requiredOp, countOp, hrequired, hcount, rfl⟩ := Script.ofMultisig_eq_ok_iff.1 hbuilt
  have hrequiredLe := (Op.ofSmallInt?_eq_some_iff.1 hrequired).1.2
  have hcountLe := (Op.ofSmallInt?_eq_some_iff.1 hcount).1.2
  let lock := Script.multisigOf keys required requiredOp countOp
  let payloads := keys.map PublicKey.bytes
  have hpayloads : payloads.length = keys.length := List.length_map _
  -- the machine that checks the signatures
  let asked : Machine := { started lock unlocked.stack with
    stack := Number.encode keys.length :: (payloads.reverse ++ Number.encode required :: unlocked.stack) }
  have hwalk : ((context rules).walk (lock.chunks.map Chunk.operation)).run (started lock unlocked.stack) =
      (perform rules Op.checkMultisig (.test .multisig false)).run asked := by
    have hops : lock.chunks.map Chunk.operation = Script.multisigOps keys requiredOp countOp :=
      map_operation_place 0 _
    rw [hops]
    exact run_walk_multisigOps rfl hrequired hcount hform hsize hone hroom
  have hcount' : Number.decode? (Number.encode keys.length) = some (payloads.length : Int) := by
    rw [hpayloads]
    exact Number.decode?_encode_of_le hcountLe
  have hmax : (payloads.length : Int) ≤ maxMultisigKeys := by
    rw [hpayloads, maxMultisigKeys]
    omega
  have hrequired' := Number.decode?_encode_of_le hrequiredLe
  refine ⟨fun hfew => ?_, fun henough => ?_⟩
  · obtain ⟨m', hfail⟩ := run_checkMultisig_of_few (m := asked) rules.checker rfl hcount' hmax hrequired'
      (hpayloads ▸ hle) hfew
    have hperform : (perform rules Op.checkMultisig (.test .multisig false)).run asked =
        ⟨.error .stackUnderflow, m', []⟩ := run_bind_error hfail
    exact (run_verifyPayment_error hunlock (hwalk.trans hperform)).1
  · -- the stack that was left, cut below the signatures
    obtain ⟨extra, rest, hrest⟩ : ∃ extra rest, unlocked.stack.drop required = extra :: rest :=
      List.exists_cons_of_ne_nil (by simpa using henough)
    let signatures := (unlocked.stack.take required).reverse
    have hsignatures : signatures.length = required := by
      rw [List.length_reverse, List.length_take]
      omega
    have hstack : asked.stack = Number.encode keys.length ::
        (payloads.reverse ++ Number.encode required :: (signatures.reverse ++ extra :: rest)) := by
      rw [List.reverse_reverse, ← hrest, List.take_append_drop]
    obtain ⟨verdict, reports, hcheck, hverdict⟩ := run_checkMultisig (m := asked) rules.checker hstack hcount'
      hmax (hsignatures ▸ hrequired') (by omega)
    have hfits : rest.length < rules.limits.items := by
      have hlen := congrArg List.length hrest
      rw [List.length_drop, List.length_cons] at hlen
      omega
    have hperform : (perform rules Op.checkMultisig (.test .multisig false)).run asked =
        ⟨.ok (), { asked with stack := Truth.encode verdict :: rest }, reports⟩ :=
      run_test (t := .multisig) hcheck ((Truth.length_encode_le _).trans hone) hfits
    obtain ⟨hresult, -⟩ := run_verifyPayment_ok hunlock (isPayToScriptHash_multisigOf hcount)
      (hwalk.trans hperform) rfl rfl
    exact ⟨verdict, hverdict, hresult⟩

end Machine

/-- Under the default limits a payment to some of several keys, none of them too long to be pushed, whose
unlocking script leaves room for the keys and their counts, verifies exactly if the topmost elements that
were left, as many as are required, can be matched with the keys in order; with no element below them
the stack underflows. -/
theorem verifyScript_multisig_decides (digests : Digests) (checker : Checker) (keys : List PublicKey)
    (required : Nat) (locking unlocking : Script) (unlocked : Machine)
    (hbuilt : Script.ofMultisig keys required = .ok locking) (hsize : ∀ key ∈ keys, key.bytes.length ≤ 520)
    (hunlock : (Machine.runScript { digests := digests, checker := checker } unlocking).Yields {} () unlocked)
    (hroom : unlocked.stack.length + keys.length + 2 ≤ 1000) :
    let outcome := verifyScript digests checker unlocking locking
    let quorum := OrderedMatching (fun signature key => checker signature key locking.data)
      (unlocked.stack.take required).reverse (keys.map PublicKey.bytes)
    (unlocked.stack.length ≤ required → outcome.result = .error .stackUnderflow) ∧
      (required < unlocked.stack.length →
        (quorum → outcome.result = .ok ()) ∧ (¬ quorum → outcome.result = .error .evalFalse)) := by
  intro outcome quorum
  have hone : 1 ≤ ({ digests := digests, checker := checker } : Rules).limits.element := show 1 ≤ 520 by omega
  obtain ⟨hfew, henough⟩ := Machine.run_verifyPayment_multisig hbuilt hsize hone hunlock hroom
  refine ⟨hfew, fun hlt => ?_⟩
  obtain ⟨verdict, hverdict, hresult⟩ := henough hlt
  have houtcome : outcome.result = if verdict then .ok () else .error .evalFalse := hresult
  refine ⟨fun hquorum => ?_, fun hquorum => ?_⟩
  · rw [houtcome, if_pos (hverdict.2 hquorum)]
  · rw [houtcome, if_neg fun h => hquorum (hverdict.1 h)]

/-- One of two keys signs, the other of which is empty. -/
theorem verifyScript_multisig_decides_of_empty_key :
    let checker : Checker := fun signature key _ => signature == [0x30] && key == [0x02]
    let keys : List PublicKey := [⟨[]⟩, ⟨[0x02]⟩]
    let locking := Script.multisigOf keys 1 Op.one 0x52
    let unlocking := Script.ofDecoded [⟨.opcode Op.zero, 0, 1⟩, ⟨.push 1 [0x30], 1, 3⟩] [0x00, 0x01, 0x30]
    let unlocked := Machine.started unlocking [[0x30], []]
    Script.ofMultisig keys 1 = .ok locking ∧ (∀ key ∈ keys, key.bytes.length ≤ 520) ∧
      (Machine.runScript { digests := Digests.standard, checker := checker } unlocking).Yields {} () unlocked ∧
      unlocked.stack.length + keys.length + 2 ≤ 1000 ∧
      (verifyScript Digests.standard checker unlocking locking).result = .ok () := by
  intro checker keys locking unlocking unlocked
  have hbuilt : Script.ofMultisig keys 1 = .ok locking :=
    Script.ofMultisig_eq_ok_iff.2 ⟨by decide, by decide, Op.one, 0x52, by decide, by decide, rfl⟩
  have hsize : ∀ key ∈ keys, key.bytes.length ≤ 520 := by decide
  have hunlock : (Machine.runScript { digests := Digests.standard, checker := checker } unlocking).Yields
      {} () unlocked := ⟨rfl, rfl⟩
  have hroom : unlocked.stack.length + keys.length + 2 ≤ 1000 := by decide
  -- the signature is given the second key
  have hquorum : OrderedMatching (fun signature key => checker signature key locking.data)
      (unlocked.stack.take 1).reverse (keys.map PublicKey.bytes) :=
    orderedMatching_iff.2 (.cons_right (.cons rfl .nil))
  have hdecides := verifyScript_multisig_decides Digests.standard checker keys 1 locking unlocking unlocked
    hbuilt hsize hunlock hroom
  exact ⟨hbuilt, hsize, hunlock, hroom, (hdecides.2 (by decide)).1 hquorum⟩

end CoinScript
