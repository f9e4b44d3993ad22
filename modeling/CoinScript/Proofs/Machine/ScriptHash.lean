/-
Payments to the hash of a script. Such a payment is authorised exactly by unlocking scripts that only
push, whose last push has the hash and decodes to a script that succeeds on what was pushed before
it. The locking script itself needs room for one more element than the unlocking script left; it
compares the two hashes and hands on the stack below, and no signature is checked before the
committed script runs.
-/
import CoinScript.Digest.Standard
import CoinScript.Proofs.Machine.Checks
import CoinScript.Proofs.Machine.Success
import CoinScript.Proofs.Script.Template

namespace CoinScript

open CoinScript.Action

namespace Machine

variable {m m' : Machine} {rules : Rules} {hash : Hash160}

/-! ## The locking script -/

/-- The script that pays to the hash of a script, decoded. -/
def scriptHashLock (hash : Hash160) : Script :=
  .ofDecoded (place 0 (Output.p2shOps hash)) (Output.p2sh hash)

theorem parse_scriptHashLock (hash : Hash160) : Script.parse (Output.p2sh hash) = .ok (scriptHashLock hash) :=
  Script.parse_p2sh hash

theorem isPayToScriptHash_scriptHashLock (hash : Hash160) :
    (scriptHashLock hash).isPayToScriptHash = true := by
  simp [scriptHashLock, Script.ofDecoded, Script.isPayToScriptHash, Script.endsWithPayToScriptHash,
    Output.p2shOps, place, Chunk.isOp, Chunk.isHashPush, Operation.asOpcode, Operation.payload?,
    Output.size_hashPush]

/-- The locking script replaces the top element by whether it has the hash, given room for the two
hashes that it compares. -/
theorem yields_runScript_scriptHashLock : (runScript rules (scriptHashLock hash)).Yields m () m' ↔
    ∃ element rest, m.stack = element :: rest ∧ 20 ≤ rules.limits.element ∧
      rest.length + 1 < rules.limits.items ∧
      m' = started (scriptHashLock hash)
        (Truth.encode (hash.bytes == (rules.digests.hash160 element).bytes) :: rest) := by
  have hhash : Instruction.ofByte Op.hash160 = .command (.digest .hash160) := by decide
  have hequal : Instruction.ofByte Op.equal = .command (.test .equal false) := by decide
  rw [yields_runScript]
  simp only [scriptHashLock, Script.ofDecoded, Output.p2shOps, place, Context.yields_dispatch_cons,
    Context.yields_dispatch_nil]
  -- the top becomes its hash, the hash paid to goes above it, and the two become the verdict
  constructor
  · rintro ⟨⟨_, hdigest, _, hpush, _, hverdict, rfl⟩, -⟩
    obtain ⟨element, rest, hstack, hdigest⟩ := yields_perform_digest.1 ((yields_handle_command rfl hhash).1 hdigest)
    obtain ⟨hsize, -, rfl⟩ := yields_push.1 hdigest
    obtain ⟨-, hroom, rfl⟩ := yields_push.1 ((yields_handle_push rfl).1 hpush)
    obtain ⟨_, _, _, hstack', hverdict⟩ := yields_perform_equal.1 ((yields_handle_command rfl hequal).1 hverdict)
    cases hstack'
    obtain ⟨-, -, rfl⟩ := yields_push.1 hverdict
    rw [applyDigest, Digest.length_bytes] at hsize
    exact ⟨element, rest, hstack, hsize, hroom, rfl⟩
  · rintro ⟨element, rest, hstack, hsize, hroom, rfl⟩
    have hpushed : hash.bytes.length = 20 := Digest.length_bytes hash
    have htaken : (rules.digests.hash160 element).bytes.length = 20 := Digest.length_bytes _
    have hverdict := Truth.length_encode_le (hash.bytes == (rules.digests.hash160 element).bytes)
    refine ⟨⟨_, (yields_handle_command rfl hhash).2 (yields_perform_digest.2
        ⟨element, rest, hstack, yields_push.2 ⟨?_, ?_, rfl⟩⟩),
      _, (yields_handle_push rfl).2 (yields_push.2 ⟨?_, hroom, rfl⟩),
      _, (yields_handle_command rfl hequal).2 (yields_perform_equal.2
        ⟨_, _, _, rfl, yields_push.2 ⟨hverdict.trans (by omega), ?_, rfl⟩⟩), rfl⟩, rfl⟩
    · rw [applyDigest, htaken]
      exact hsize
    · dsimp only
      omega
    · rw [hpushed]
      exact hsize
    · dsimp only
      omega

/-! ## Redemption -/

/-- An unlocking script redeems the hash of a script: it only pushes, pushes a script with the hash last,
leaves room below for one element more, and that script runs to a true result on what is below it. -/
structure Redemption (rules : Rules) (hash : Hash160) (unlocking : Script) (redeem : Bytes)
    (below : List Bytes) : Prop where
  dataOnly : unlocking.isDataOnly = true
  unlocks : ∃ unlocked, (runScript rules unlocking).Yields {} () unlocked ∧ unlocked.stack = redeem :: below
  room : below.length + 1 < rules.limits.items
  commits : rules.digests.hash160 redeem = hash
  redeems : ∃ script final, Script.parse redeem = .ok script ∧
    (runScript rules script).Yields { stack := below } () final ∧ final.succeeded = true

theorem yields_verifyPayment_scriptHashLock {unlocking : Script} (hlimit : 20 ≤ rules.limits.element) :
    (∃ final, (verifyPayment rules unlocking (scriptHashLock hash)).Yields {} () final) ↔
      ∃ redeem below, Redemption rules hash unlocking redeem below := by
  simp only [yields_verifyPayment, yields_runScript_scriptHashLock, isPayToScriptHash_scriptHashLock,
    if_true, yields_redeem]
  constructor
  · rintro ⟨final, unlocked, compared, hrun, ⟨redeem, below, hstack, -, hroom, rfl⟩, hequal, hdata,
      _, _, script, hstack', hparse, hredeem, hfinal⟩
    -- what is redeemed is what was compared: both are the top of the stack that was left
    rw [hstack] at hstack'
    cases hstack'
    rw [succeeded_of_stack (m := started _ _) rfl, beq_iff_eq] at hequal
    refine ⟨redeem, below, hdata, ⟨unlocked, hrun, hstack⟩, hroom, (Digest.bytes_injective hequal).symm,
      script, final, hparse, (yields_runScript_congr rfl).1 hredeem, hfinal⟩
  · rintro ⟨redeem, below, hdata, ⟨unlocked, hrun, hstack⟩, hroom, hcommits, script, final, hparse,
      hredeem, hfinal⟩
    refine ⟨final, unlocked, _, hrun, ⟨redeem, below, hstack, hlimit, hroom, rfl⟩, ?_, hdata, redeem, below,
      script, hstack, hparse, (yields_runScript_congr rfl).1 hredeem, hfinal⟩
    rw [succeeded_of_stack (m := started _ _) rfl, hcommits, beq_self_eq_true]

/-! ## Checks -/

theorem quiet_scriptHashLock (hash : Hash160) :
    ∀ c ∈ (scriptHashLock hash).chunks, c.operation.asksChecker = false := by
  simp only [scriptHashLock, Script.ofDecoded, Output.p2shOps, place, List.forall_mem_cons,
    List.not_mem_nil, false_imp_iff, implies_true, and_true]
  exact ⟨by decide, rfl, by decide⟩

theorem checksOnly_demandSuccess {code : Bytes} {asked noted : Prop} {m : Machine} :
    ReportsOnly (Event.ChecksOnly code asked noted) demandSuccess m :=
  reportsOnly_get.bind fun _ _ _ => reportsOnly_require

theorem quiet_of_isDataOnly {script : Script} (h : script.isDataOnly = true) :
    ∀ c ∈ script.chunks, c.operation.asksChecker = false := by
  intro c hc
  refine Operation.asksChecker_of_lead_le ?_
  simpa using List.all_eq_true.1 h c hc

theorem checksOnly_redeem (redeem : Bytes) (below : List Bytes) (m : Machine) :
    ReportsOnly (Event.ChecksOnly redeem True True) (Machine.redeem rules (redeem :: below)) m := by
  rw [Machine.redeem]
  cases hparse : Script.parse redeem with
  | error cause => exact (reportsOnly_report trivial).bind fun _ _ _ => reportsOnly_fail
  | ok script =>
    obtain ⟨chunks, -, rfl⟩ := Script.parse_eq_ok_iff.1 hparse
    refine reportsOnly_modify.bind fun _ m _ => ReportsOnly.bind ?_ fun _ _ _ => checksOnly_demandSuccess
    exact (checksOnly_runScript _ m).mono fun _ hw => hw.mono fun _ => trivial

/-- Every check of a redemption is against the bytes of the committed script. -/
theorem Redemption.checksOnly {unlocking : Script} {redeem : Bytes} {below : List Bytes}
    (h : Redemption rules hash unlocking redeem below) :
    ReportsOnly (Event.ChecksOnly redeem True True) (verifyPayment rules unlocking (scriptHashLock hash)) {} := by
  obtain ⟨unlocked, hrun, hstack⟩ := h.unlocks
  rw [verifyPayment]
  refine (checksOnly_runScript_of_quiet (quiet_of_isDataOnly h.dataOnly) _).bind fun _ m hm => ?_
  -- the run that the redemption speaks of is this one, so the script on its top is the committed one
  obtain ⟨-, rfl⟩ := hrun.unique hm
  refine reportsOnly_get.bind fun unlocked' _ hget => ?_
  obtain ⟨rfl, rfl⟩ := yields_get.1 hget
  refine (checksOnly_runScript_of_quiet (quiet_scriptHashLock hash) _).bind fun _ compared _ => ?_
  refine checksOnly_demandSuccess.bind fun _ m _ => ?_
  rw [isPayToScriptHash_scriptHashLock, if_pos rfl, hstack]
  exact reportsOnly_require.bind fun _ m _ => checksOnly_redeem redeem below m

end Machine

/-- Under the default limits a payment to the hash of a script verifies exactly if its unlocking script
redeems the hash, and then every signature check is against the bytes of the redeemed script. -/
theorem verifyScript_p2sh_iff_redemption (digests : Digests) (checker : Checker) (hash : Hash160)
    (unlocking : Script) :
    ∃ locking, Script.parse (Output.p2sh hash) = .ok locking ∧
      ((verifyScript digests checker unlocking locking).result = .ok () ↔
        ∃ redeem below,
          Machine.Redemption { digests := digests, checker := checker } hash unlocking redeem below) ∧
      ∀ redeem below,
        Machine.Redemption { digests := digests, checker := checker } hash unlocking redeem below →
          ∀ c ∈ Event.checks (verifyScript digests checker unlocking locking).reports,
            c.scriptCode = redeem := by
  refine ⟨Machine.scriptHashLock hash, Machine.parse_scriptHashLock hash, ?_, fun redeem below hredeem c hc => ?_⟩
  · have hlimit : 20 ≤ ({} : Limits).element := by decide
    rw [← Machine.yields_verifyPayment_scriptHashLock hlimit, exists_yields_iff, verifyScript]
  · exact (hredeem.checksOnly _ (Event.mem_checks.1 hc)).2

/-- A script that says true and nothing else is redeemed by whoever pushes it. -/
example :
    let unlocking := Script.ofDecoded [⟨.push 1 [Op.one], 0, 2⟩] [1, Op.one]
    let locking := Machine.scriptHashLock (Digests.standard.hash160 [Op.one])
    (verifyScript Digests.standard (fun _ _ _ => false) unlocking locking).result.isOk = true := by
  decide +kernel

end CoinScript
