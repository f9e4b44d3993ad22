/-
Which signatures a run has checked, and against what. Only four opcodes have any checked, and every
check is against the bytes of the script that runs: no action changes them while it runs, so the
property goes from the single actions through the commands and the walk to the whole script.
-/
import CoinScript.Proofs.Machine.Stackwise

namespace CoinScript

open CoinScript.Action

/-! ## Who asks for checks -/

/-- The event is a remark where any are made, or a check against the given bytes where checks are asked for. -/
def Event.ChecksOnly (code : Bytes) (asked noted : Prop) : Event → Prop
  | remark _ => noted
  | check c => asked ∧ c.scriptCode = code

theorem Event.ChecksOnly.mono {code : Bytes} {asked asked' noted : Prop} {w : Event}
    (h : w.ChecksOnly code asked noted) (hmono : asked → asked') : w.ChecksOnly code asked' noted := by
  cases w with
  | remark r => exact h
  | check c => exact ⟨hmono h.1, h.2⟩

theorem Event.mem_checks {events : List Event} {c : SignatureCheck} :
    c ∈ Event.checks events ↔ .check c ∈ events := by
  simp only [Event.checks, List.mem_filterMap]
  constructor
  · rintro ⟨_ | c', hmem, heq⟩
    · cases heq
    · cases heq
      exact hmem
  · intro hmem
    exact ⟨_, hmem, rfl⟩

theorem Event.checks_append (events more : List Event) :
    Event.checks (events ++ more) = Event.checks events ++ Event.checks more := List.filterMap_append

/-- What holds of the bytes below ninety-seven, one by one, holds of every opcode up to the last literal. -/
theorem Op.of_le_sixteen {P : UInt8 → Prop} (h : ∀ n < 97, P (UInt8.ofNat n)) {op : UInt8} (hop : op ≤ Op.sixteen) :
    P op := by
  have hlt : op.toNat < 97 := Nat.lt_succ_of_le (UInt8.le_iff_toNat_le.1 hop)
  have hop := h _ hlt
  rwa [UInt8.ofNat_toNat] at hop

/-- An opcode up to the last literal asks for nothing. -/
theorem Operation.asksChecker_of_lead_le {op : Operation} (h : op.lead ≤ Op.sixteen) :
    op.asksChecker = false := by
  cases op with
  | push lead payload => rfl
  | opcode byte =>
    -- the table up to the last literal, entry by entry
    have hall : ∀ n < 97, (Operation.opcode (UInt8.ofNat n)).asksChecker = false := by decide
    exact Op.of_le_sixteen (P := fun byte => (Operation.opcode byte).asksChecker = false) hall h

namespace Machine

/-- The action leaves the script that runs as it is, and every check that it makes is against that
script, if checks are asked for at all. -/
abbrev CommitsTo {α : Type} (code : Bytes) (asked noted : Prop) (x : Exec Machine α) : Prop :=
  Keeps (fun m => m.scriptCode = code) (Event.ChecksOnly code asked noted) x

variable {code : Bytes} {asked noted : Prop} {rules : Rules} {limits : Limits}

/-! ## The stack -/

theorem commitsTo_push (element : Bytes) : CommitsTo code asked noted (push limits element) :=
  keeps_get.bind fun _ => keeps_require.bind fun _ => keeps_require.bind fun _ => keeps_modify fun _ h => h

theorem commitsTo_pop : CommitsTo code asked noted pop :=
  keeps_get.bind fun m => by
    split
    · exact keeps_fail
    · exact Keeps.bind (keeps_modify fun _ h => h) fun _ => keeps_pure

/-- Every action on the stack commits to the script that runs. -/
theorem Stackwise.commitsTo {α : Type} {x : Exec Machine α} (h : Stackwise rules asked noted x) :
    CommitsTo code asked noted x := by
  induction h with
  | pure a => exact keeps_pure
  | bind _ _ ihx ihf => exact ihx.bind ihf
  | fail e => exact keeps_fail
  | remark h r => exact keeps_report h
  | push element => exact commitsTo_push element
  | pop => exact commitsTo_pop
  | peek depth =>
    refine keeps_get.bind fun m => ?_
    split
    · exact keeps_fail
    · exact keeps_pure
  | swap =>
    refine keeps_get.bind fun m => ?_
    split
    · exact keeps_modify fun _ h => h
    · exact keeps_fail
  | depth => exact keeps_get.bind fun _ => commitsTo_push _
  | checkSignature hasked signature key =>
    -- a check is against the script that runs
    intro m hm
    refine ⟨hm, fun w hw => ?_⟩
    rw [List.mem_singleton.1 hw]
    exact ⟨hasked, hm⟩

/-! ## Scripts -/

theorem invariant_commitsTo :
    Invariant rules asked noted (fun m => m.scriptCode = code) (Event.ChecksOnly code asked noted) where
  stackwise := Stackwise.commitsTo
  conditions _ h := h
  remark h _ := h

/-- Every check of a run is against the bytes of its script, and there is none unless a chunk of the
script asks for it. -/
theorem checksOnly_runScript (script : Script) (m : Machine) :
    ReportsOnly (Event.ChecksOnly script.data (∃ c ∈ script.chunks, c.operation.asksChecker = true) True)
      (runScript rules script) m := by
  -- the run starts by making the bytes of the script those to commit to
  rw [ReportsOnly, runScript, run_bind_ok (run_modify _ m)]
  exact (invariant_commitsTo.execute fun c hc hasks => ⟨c, hc, hasks⟩) _ rfl |>.2

/-- A script of which no chunk asks for checks has none made, whatever may be checked elsewhere. -/
theorem checksOnly_runScript_of_quiet {script : Script}
    (h : ∀ c ∈ script.chunks, c.operation.asksChecker = false) (m : Machine) :
    ReportsOnly (Event.ChecksOnly code asked True) (runScript rules script) m := by
  refine (checksOnly_runScript script m).mono fun w hw => ?_
  cases w with
  | remark r => trivial
  | check check =>
    obtain ⟨⟨c, hc, hasks⟩, -⟩ := hw
    rw [h c hc] at hasks
    cases hasks

end Machine

end CoinScript
