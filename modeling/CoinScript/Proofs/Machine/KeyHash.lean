/-
Payments to the hash of a key. On a stack with room for two elements more the locking script ends in one
of three ways: it fails where the key on top does not have the hash, before any signature is checked;
otherwise it checks the one signature below the key, and its result is the verdict. With less room it
fails at the copy of the key or at the push of the hash.
-/
import CoinScript.Digest.Standard
import CoinScript.Proofs.Machine.Commands
import CoinScript.Proofs.Machine.Limits
import CoinScript.Proofs.Machine.Walk
import CoinScript.Proofs.Script.Template

namespace CoinScript

open CoinScript.Action

namespace Machine

variable {rules : Rules} {m : Machine} {key signature : Bytes} {rest base : List Bytes}

/-! ## The locking script -/

theorem length_hash_le (hash : Hash160) (helement : 20 ≤ rules.limits.element) :
    hash.bytes.length ≤ rules.limits.element := by
  rw [Digest.length_bytes]
  exact helement

theorem run_walk_dup_hash160 (hexec : m.isExecuting = true) (hlimits : WithinLimits rules.limits m)
    (hstack : m.stack = key :: rest) (helement : 20 ≤ rules.limits.element)
    (hroom : m.stack.length < rules.limits.items) (ops : List Operation) :
    ((context rules).walk (.opcode Op.dup :: .opcode Op.hash160 :: ops)).run m =
      ((context rules).walk ops).run { m with stack := (rules.digests.hash160 key).bytes :: key :: rest } := by
  let copied : Machine := { m with stack := key :: key :: rest }
  have hdup : ((context rules).handle (.opcode Op.dup)).run m = ⟨.ok (), copied, []⟩ := by
    have hkey : key.length ≤ rules.limits.element :=
      hlimits.elements key (hstack ▸ List.mem_cons_self)
    rw [run_handle_command (c := .move .dup) hexec (by decide), run_dup hstack, run_push hkey hroom, hstack]
  have hhash : ((context rules).handle (.opcode Op.hash160)).run copied =
      ⟨.ok (), { m with stack := (rules.digests.hash160 key).bytes :: key :: rest }, []⟩ := by
    rw [hstack] at hroom
    rw [run_handle_command (m := copied) (c := .digest .hash160) hexec (by decide), run_digest _ rfl,
      applyDigest, run_push (length_hash_le _ helement) hroom]
  rw [Context.walk_cons, run_bind_silent hdup, Context.walk_cons, run_bind_silent hhash]

theorem run_walk_p2pkhOps_of_full (hash : Hash160) (hexec : m.isExecuting = true)
    (hlimits : WithinLimits rules.limits m) (hstack : m.stack = key :: rest)
    (helement : 20 ≤ rules.limits.element) (hfull : rules.limits.items ≤ m.stack.length + 1) :
    ∃ m', ((context rules).walk (Output.p2pkhOps hash)).run m =
      ⟨.error (.stackOverflow rules.limits.items), m', []⟩ := by
  have hkey : key.length ≤ rules.limits.element :=
    hlimits.elements key (hstack ▸ List.mem_cons_self)
  by_cases hroom : m.stack.length < rules.limits.items
  · -- there is room for the copy of the key and none for the hash
    let hashed : Machine := { m with stack := (rules.digests.hash160 key).bytes :: key :: rest }
    have hpush : ((context rules).handle (.push Output.hashLead hash.bytes)).run hashed =
        ⟨.error (.stackOverflow rules.limits.items), hashed, []⟩ := by
      have hnoRoom : rules.limits.items ≤ hashed.stack.length := by
        rw [hstack] at hfull
        exact hfull
      rw [run_handle_push (m := hashed) hexec, run_push_of_full (length_hash_le _ helement) hnoRoom]
    refine ⟨hashed, ?_⟩
    rw [Output.p2pkhOps, run_walk_dup_hash160 hexec hlimits hstack helement hroom, Context.walk_cons,
      run_bind_error hpush]
  · have hdup : ((context rules).handle (.opcode Op.dup)).run m =
        ⟨.error (.stackOverflow rules.limits.items), m, []⟩ := by
      rw [run_handle_command (c := .move .dup) hexec (by decide), run_dup hstack,
        run_push_of_full hkey (Nat.not_lt.1 hroom)]
    refine ⟨m, ?_⟩
    rw [Output.p2pkhOps, Context.walk_cons, run_bind_error hdup]

/-- With room for two elements more it demands the hash of the key, then checks the signature. -/
theorem run_walk_p2pkhOps (hash : Hash160) (hexec : m.isExecuting = true)
    (hlimits : WithinLimits rules.limits m) (hstack : m.stack = key :: signature :: base)
    (helement : 20 ≤ rules.limits.element) (hroom : m.stack.length + 1 < rules.limits.items) :
    ((context rules).walk (Output.p2pkhOps hash)).run m =
      if rules.digests.hash160 key = hash then
        ⟨.ok (), { m with stack := Truth.encode (rules.checker signature key m.scriptCode) :: base },
          [.check ⟨signature, key, m.scriptCode, rules.checker signature key m.scriptCode⟩]⟩
      else ⟨.error (.verifyFailed Op.equalVerify), { m with stack := key :: signature :: base }, []⟩ := by
  have hlen : base.length + 3 < rules.limits.items := by
    rw [hstack] at hroom
    exact hroom
  have hone : 1 ≤ rules.limits.element := by omega
  -- the two hashes stand above the key
  let hashed : Machine := { m with stack := (rules.digests.hash160 key).bytes :: key :: signature :: base }
  let compared : Machine := { hashed with stack := hash.bytes :: hashed.stack }
  let unhashed : Machine := { m with stack := key :: signature :: base }
  have hpush : ((context rules).handle (.push Output.hashLead hash.bytes)).run hashed =
      ⟨.ok (), compared, []⟩ := by
    have hroom' : hashed.stack.length < rules.limits.items := hlen
    rw [run_handle_push (m := hashed) hexec, run_push (length_hash_le _ helement) hroom']
  have hequal : ((context rules).handle (.opcode Op.equalVerify)).run compared =
      ⟨if hash.bytes == (rules.digests.hash160 key).bytes then .ok () else .error (.verifyFailed Op.equalVerify),
        unhashed, []⟩ := by
    rw [run_handle_command (m := compared) (c := .test .equal true) hexec (by decide),
      run_test_demanded (run_decideTest_equal rfl) ((Truth.length_encode_le _).trans hone)]
    dsimp only [List.length_cons]
    omega
  have hcheck : ((context rules).handle (.opcode Op.checkSig)).run unhashed =
      ⟨.ok (), { m with stack := Truth.encode (rules.checker signature key m.scriptCode) :: base },
        [.check ⟨signature, key, m.scriptCode, rules.checker signature key m.scriptCode⟩]⟩ := by
    rw [run_handle_command (m := unhashed) (c := .test .signature false) hexec (by decide),
      run_test (run_decideTest_signature rfl) ((Truth.length_encode_le _).trans hone)]
    dsimp only
    omega
  rw [Output.p2pkhOps, run_walk_dup_hash160 hexec hlimits hstack helement (by omega), Context.walk_cons,
    run_bind_silent hpush, Context.walk_cons]
  by_cases hhash : rules.digests.hash160 key = hash
  · rw [hhash, beq_self_eq_true, if_pos rfl] at hequal
    rw [if_pos hhash, run_bind_silent hequal, Context.walk_cons, run_bind_ok hcheck]
    rfl
  · have hne : (hash.bytes == (rules.digests.hash160 key).bytes) = false :=
      beq_eq_false_iff_ne.2 fun h => hhash (Digest.bytes_injective h.symm)
    rw [hne] at hequal
    rw [if_neg hhash, run_bind_error hequal]

/-! ## Payments -/

variable {unlocking : Script} {unlocked : Machine}

theorem map_operation_p2pkh (hash : Hash160) :
    (Script.p2pkh hash).chunks.map Chunk.operation = Output.p2pkhOps hash := rfl

/-- What becomes of a payment to the hash of a key if its unlocking script leaves a key, a signature and
room for two elements more. -/
theorem run_verifyPayment_p2pkh (hash : Hash160)
    (hunlock : (runScript rules unlocking).Yields {} () unlocked)
    (hstack : unlocked.stack = key :: signature :: base) (helement : 20 ≤ rules.limits.element)
    (hroom : unlocked.stack.length + 1 < rules.limits.items) :
    let outcome := (verifyPayment rules unlocking (Script.p2pkh hash)).run {}
    let accepted := rules.checker signature key (Output.p2pkh hash)
    let before := Event.checks ((runScript rules unlocking).run {}).reports
    if rules.digests.hash160 key = hash then
      outcome.result = (if accepted then .ok () else .error .evalFalse) ∧
        Event.checks outcome.reports = before ++ [⟨signature, key, Output.p2pkh hash, accepted⟩]
    else
      outcome.result = .error (.verifyFailed Op.equalVerify) ∧ Event.checks outcome.reports = before := by
  intro outcome accepted before
  have hlimits := withinLimits_of_yields rfl hunlock
  have hwalk := run_walk_p2pkhOps hash (m := started (Script.p2pkh hash) unlocked.stack) rfl
    ⟨hlimits.items, hlimits.elements⟩ hstack helement hroom
  rw [← map_operation_p2pkh] at hwalk
  by_cases hhash : rules.digests.hash160 key = hash
  · rw [if_pos hhash] at hwalk ⊢
    exact run_verifyPayment_ok hunlock rfl hwalk rfl rfl
  · rw [if_neg hhash] at hwalk ⊢
    obtain ⟨hresult, hchecks⟩ := run_verifyPayment_error hunlock hwalk
    exact ⟨hresult, hchecks.trans (List.append_nil _)⟩

theorem run_verifyPayment_p2pkh_of_full (hash : Hash160)
    (hunlock : (runScript rules unlocking).Yields {} () unlocked) (hne : unlocked.stack ≠ [])
    (helement : 20 ≤ rules.limits.element) (hfull : rules.limits.items ≤ unlocked.stack.length + 1) :
    ((verifyPayment rules unlocking (Script.p2pkh hash)).run {}).result =
      .error (.stackOverflow rules.limits.items) := by
  have hlimits := withinLimits_of_yields rfl hunlock
  obtain ⟨key, rest, hstack⟩ := List.exists_cons_of_ne_nil hne
  obtain ⟨m', hwalk⟩ := run_walk_p2pkhOps_of_full hash
    (m := started (Script.p2pkh hash) unlocked.stack) rfl ⟨hlimits.items, hlimits.elements⟩ hstack helement hfull
  rw [← map_operation_p2pkh] at hwalk
  exact (run_verifyPayment_error hunlock hwalk).1

end Machine

/-- Under the default limits a payment to the hash of a key whose unlocking script leaves a key on a
signature, on at most 996 elements, verifies exactly if the key has the hash and the checker accepts the
signature for it and the bytes of the locking script. If the key does not have the hash, it fails at the
comparison of the hashes, before the locking script has any signature checked, and if the signature is
refused, at the end; over 998 elements the stack overflows. -/
theorem verifyScript_p2pkh_decides (digests : Digests) (checker : Checker) (hash : Hash160)
    (unlocking : Script) (unlocked : Machine)
    (hunlock : (Machine.runScript { digests := digests, checker := checker } unlocking).Yields {} () unlocked) :
    let outcome := verifyScript digests checker unlocking (Script.p2pkh hash)
    let unlocks := (Machine.runScript { digests := digests, checker := checker } unlocking).run {}
    (∀ key signature base, unlocked.stack = key :: signature :: base → base.length + 2 ≤ 998 →
      (outcome.result = .ok () ↔
        digests.hash160 key = hash ∧ checker signature key (Output.p2pkh hash) = true) ∧
      (digests.hash160 key ≠ hash → outcome.result = .error (.verifyFailed Op.equalVerify) ∧
        Event.checks outcome.reports = Event.checks unlocks.reports) ∧
      (digests.hash160 key = hash → checker signature key (Output.p2pkh hash) = false →
        outcome.result = .error .evalFalse)) ∧
    (unlocked.stack.length = 999 ∨ unlocked.stack.length = 1000 →
      outcome.result = .error (.stackOverflow 1000)) := by
  intro outcome unlocks
  have helement : 20 ≤ ({ digests := digests, checker := checker } : Rules).limits.element :=
    show 20 ≤ 520 by omega
  refine ⟨fun key signature base hstack hlen => ?_, fun hlen => ?_⟩
  · have hroom : unlocked.stack.length + 1 < ({ digests := digests, checker := checker } : Rules).limits.items := by
      show unlocked.stack.length + 1 < 1000
      rw [hstack, List.length_cons, List.length_cons]
      omega
    have hrun := Machine.run_verifyPayment_p2pkh hash hunlock hstack helement hroom
    by_cases hhash : digests.hash160 key = hash
    · rw [if_pos hhash] at hrun
      have hresult : outcome.result =
          if checker signature key (Output.p2pkh hash) then .ok () else .error .evalFalse := hrun.1
      refine ⟨?_, fun hne => absurd hhash hne, fun _ hrefused => ?_⟩
      · rw [hresult]
        cases checker signature key (Output.p2pkh hash) <;> simp [hhash]
      · rw [hresult, hrefused]
        rfl
    · rw [if_neg hhash] at hrun
      have hresult : outcome.result = .error (.verifyFailed Op.equalVerify) := hrun.1
      refine ⟨?_, fun _ => hrun, fun heq => absurd heq hhash⟩
      rw [hresult]
      simp [hhash]
  · have hne : unlocked.stack ≠ [] := by
      intro hnil
      rw [hnil] at hlen
      simp at hlen
    have hfull : ({ digests := digests, checker := checker } : Rules).limits.items ≤ unlocked.stack.length + 1 := by
      show 1000 ≤ _
      omega
    exact Machine.run_verifyPayment_p2pkh_of_full hash hunlock hne helement hfull

/-- A key and a signature that is accepted for it unlock the hash of the key. -/
theorem verifyScript_p2pkh_decides_of_accepted :
    let checker : Checker := fun signature key _ => signature == [0x30] && key == [0x02, 0x05]
    let unlocking := Script.ofDecoded [⟨.push 1 [0x30], 0, 2⟩, ⟨.push 2 [0x02, 0x05], 2, 5⟩]
      [0x01, 0x30, 0x02, 0x02, 0x05]
    let unlocked := Machine.started unlocking [[0x02, 0x05], [0x30]]
    let hash := Digests.standard.hash160 [0x02, 0x05]
    (Machine.runScript { digests := Digests.standard, checker := checker } unlocking).Yields {} () unlocked ∧
      (verifyScript Digests.standard checker unlocking (Script.p2pkh hash)).result = .ok () := by
  intro checker unlocking unlocked hash
  have hunlock : (Machine.runScript { digests := Digests.standard, checker := checker } unlocking).Yields
      {} () unlocked := ⟨rfl, rfl⟩
  have hkey := (verifyScript_p2pkh_decides Digests.standard checker hash unlocking unlocked hunlock).1
    [0x02, 0x05] [0x30] [] rfl (by decide)
  exact ⟨hunlock, hkey.1.2 ⟨rfl, rfl⟩⟩

end CoinScript
