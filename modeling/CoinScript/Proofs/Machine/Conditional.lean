/-
The stack of conditions implements structured conditionals. Where every open branch is taken, a
conditional with any number of well nested segments between its turning points does what is done by
popping a truth value and walking through every other segment, from the first or from the second, as
if no conditional were there; the segments between are skipped whatever they hold.

The induction is over the segments, with the branch that is open as a parameter: a segment in a taken
branch goes as it goes alone, one in a branch that is not taken leaves everything as it is, and what
stands between two of them turns the branch.
-/
import CoinScript.Digest.Standard
import CoinScript.Proofs.Machine.Nesting

namespace CoinScript

open CoinScript.Action

/-! ## The shape of a conditional -/

/-- The opcode that opens a branch to be taken on a truth value. -/
def Op.opening (takenOn : Bool) : UInt8 := if takenOn then Op.ifTrue else Op.ifFalse

/-- The operations of a conditional: its opening, its segments with a turning point between two, and
its end. -/
def conditionalOps (takenOn : Bool) (segments : List (List Operation)) : List Operation :=
  .opcode (Op.opening takenOn) ::
    ([.opcode Op.otherwise].intercalate segments ++ [.opcode Op.endIf])

/-- The segments of even index in order if the first branch is taken, those of odd index if not. -/
def selected {α : Type} (taken : Bool) (segments : List (List α)) : List α :=
  (segments.zipIdx.filter fun p => (p.2 % 2 == 0) == taken).flatMap Prod.fst

section Selected

variable {α β : Type}

theorem filter_zipIdx_succ (taken : Bool) (segments : List (List α)) (n : Nat) :
    ((segments.zipIdx (n + 1)).filter fun p => (p.2 % 2 == 0) == taken).map Prod.fst =
      ((segments.zipIdx n).filter fun p => (p.2 % 2 == 0) == !taken).map Prod.fst := by
  induction segments generalizing n with
  | nil => rfl
  | cons segment rest ih =>
    have hparity : (((n + 1) % 2 == 0) == taken) = ((n % 2 == 0) == !taken) := by
      rcases Nat.mod_two_eq_zero_or_one n with h | h <;> cases taken <;> simp [Nat.add_mod, h]
    rw [List.zipIdx_cons, List.zipIdx_cons, List.filter_cons, List.filter_cons, hparity]
    split
    · rw [List.map_cons, List.map_cons, ih]
    · exact ih (n + 1)

theorem selected_cons (taken : Bool) (segment : List α) (rest : List (List α)) :
    selected taken (segment :: rest) = (if taken then segment else []) ++ selected (!taken) rest := by
  have hrest : ((rest.zipIdx 1).filter fun p => (p.2 % 2 == 0) == taken).flatMap Prod.fst =
      selected (!taken) rest := by
    rw [selected, List.flatMap_def, filter_zipIdx_succ taken rest 0, ← List.flatMap_def]
  rw [← hrest, selected, List.zipIdx_cons, List.filter_cons]
  cases taken <;> rfl

theorem map_selected (f : α → β) (taken : Bool) (segments : List (List α)) :
    (selected taken segments).map f = selected taken (segments.map (List.map f)) := by
  induction segments generalizing taken with
  | nil => rfl
  | cons segment rest ih =>
    rw [List.map_cons, selected_cons, selected_cons, List.map_append, ih]
    cases taken <;> rfl

end Selected

/-! ## Walking through a conditional -/

theorem WellNested.append {ops more : List Operation} (h : WellNested ops) (hmore : WellNested more) :
    WellNested (ops ++ more) := by
  rw [WellNested, depthAfter?_append, h]
  exact hmore

theorem wellNested_selected {segments : List (List Operation)} (h : ∀ segment ∈ segments, WellNested segment)
    (taken : Bool) : WellNested (selected taken segments) := by
  induction segments generalizing taken with
  | nil => exact rfl
  | cons segment rest ih =>
    obtain ⟨hsegment, hrest⟩ := List.forall_mem_cons.1 h
    rw [selected_cons]
    refine WellNested.append ?_ (ih hrest (!taken))
    cases taken
    · exact rfl
    · exact hsegment

namespace Machine

variable {rules : Rules} {m : Machine} {outer : List Bool}

/-- A segment of a branch is walked through as it is alone if the branch is taken, and otherwise is
skipped. -/
theorem run_walk_segment (rules : Rules) {segment : List Operation} (hsegment : WellNested segment)
    (houter : outer.all id = true) (hm : m.conditions = []) (taken : Bool) :
    ((context rules).walk segment).run (m.within (taken :: outer)) =
      onState (within (taken :: outer)) (((context rules).walk (if taken then segment else [])).run m) := by
  have hdepth : depthAfter? m.conditions.length segment = some 0 := by
    rw [hm]
    exact hsegment
  cases taken with
  | true => exact run_walk_within (by simpa using houter) hdepth
  | false =>
    obtain ⟨inner, hinner, hrun⟩ : ∃ inner, inner.length = 0 ∧
        ((context rules).walk segment).run (m.within (false :: outer)) =
          ⟨.ok (), (m.withConditions inner).within (false :: outer), []⟩ := run_walk_skipped rfl hdepth
    rw [hrun, List.length_eq_zero_iff.1 hinner, ← hm]
    rfl

theorem run_walk_endIf (hm : m.conditions = []) (taken : Bool) :
    ((context rules).walk [.opcode Op.endIf]).run (m.within (taken :: outer)) =
      ⟨.ok (), m.withConditions outer, []⟩ := by
  have hopen : (m.within (taken :: outer)).conditions = taken :: outer := by
    rw [within, hm]
    rfl
  have hend : (context rules).handle (.opcode Op.endIf) = follow .endIf := handle_of_flow rfl
  rw [Context.walk_cons, hend, run_bind_ok (run_endIf_cons hopen)]
  rfl

theorem run_walk_otherwise (hm : m.conditions = []) (taken : Bool) (ops : List Operation) :
    ((context rules).walk (.opcode Op.otherwise :: ops)).run (m.within (taken :: outer)) =
      ((context rules).walk ops).run (m.within ((!taken) :: outer)) := by
  have hopen : (m.within (taken :: outer)).conditions = taken :: outer := by
    rw [within, hm]
    rfl
  have hturn : (context rules).handle (.opcode Op.otherwise) = follow .otherwise := handle_of_flow rfl
  rw [Context.walk_cons, hturn, run_bind_ok (run_otherwise_cons hopen), List.nil_append, within, within, hm]
  rfl

/-- The walk through the segments and the end of a conditional is the walk through the selected
segments, apart from the conditionals that are open where it fails. -/
theorem run_walk_segments (rules : Rules) {segments : List (List Operation)} (hne : segments ≠ [])
    (hnested : ∀ segment ∈ segments, WellNested segment) (houter : outer.all id = true)
    (hm : m.conditions = []) (taken : Bool) :
    let chosen := ((context rules).walk (selected taken segments)).run m
    ∃ conditions, (chosen.result = .ok () → conditions = outer) ∧
      ((context rules).walk ([.opcode Op.otherwise].intercalate segments ++ [.opcode Op.endIf])).run
        (m.within (taken :: outer)) = onState (withConditions conditions) chosen := by
  induction segments generalizing m taken with
  | nil => exact absurd rfl hne
  | cons segment rest ih =>
    obtain ⟨hsegment, hrest⟩ := List.forall_mem_cons.1 hnested
    -- what stands behind the segment, and the walk through it
    obtain ⟨behind, hsplit, hbehind⟩ : ∃ behind,
        [.opcode Op.otherwise].intercalate (segment :: rest) ++ [.opcode Op.endIf] = segment ++ behind ∧
        ∀ m' : Machine, m'.conditions = [] → ∃ conditions,
          ((((context rules).walk (selected (!taken) rest)).run m').result = .ok () → conditions = outer) ∧
          ((context rules).walk behind).run (m'.within (taken :: outer)) =
            onState (withConditions conditions) (((context rules).walk (selected (!taken) rest)).run m') := by
      cases rest with
      | nil =>
        refine ⟨[.opcode Op.endIf], by rw [List.intercalate_singleton], fun m' hm' => ?_⟩
        exact ⟨outer, fun _ => rfl, run_walk_endIf hm' taken⟩
      | cons next more =>
        refine ⟨.opcode Op.otherwise :: ([.opcode Op.otherwise].intercalate (next :: more) ++ [.opcode Op.endIf]),
          by simp [List.intercalate_cons_cons], fun m' hm' => ?_⟩
        rw [run_walk_otherwise hm']
        exact ih (List.cons_ne_nil _ _) hrest hm' (!taken)
    have hwalk := run_walk_segment rules hsegment houter hm taken
    have hchosen : WellNested (if taken then segment else []) := by
      cases taken
      · exact rfl
      · exact hsegment
    rw [selected_cons, hsplit, Context.walk_append, Context.walk_append]
    rcases hrun : ((context rules).walk (if taken then segment else [])).run m with ⟨e | ⟨⟩, m', reports⟩
    · rw [hrun] at hwalk
      rw [run_bind_error hrun, run_bind_error hwalk]
      exact ⟨m'.conditions ++ taken :: outer, fun h => (by cases h), rfl⟩
    · have hdepth := depthAfter?_of_yields_walk (yields_of_run hrun)
      rw [hm, List.length_nil, hchosen] at hdepth
      have hm' : m'.conditions = [] := List.length_eq_zero_iff.1 (Option.some.inj hdepth).symm
      obtain ⟨conditions, hok, hgoOn⟩ := hbehind m' hm'
      rw [hrun] at hwalk
      rw [run_bind_ok hrun, run_bind_ok hwalk]
      refine ⟨conditions, hok, ?_⟩
      show Outcome.mk _ _ _ = _
      rw [hgoOn]
      rfl

/-- A conditional is walked through as its selected segments are once its truth value is popped, apart
from the conditionals that are open where the walk fails. -/
theorem run_walk_conditional (rules : Rules) {segments : List (List Operation)} (hexec : m.isExecuting = true)
    (hne : segments ≠ []) (hnested : ∀ segment ∈ segments, WellNested segment) (takenOn : Bool) :
    let structured := (pop >>= fun element =>
      (context rules).walk (selected (Truth.ofBytes element == takenOn) segments)).run m
    ∃ conditions, (structured.result = .ok () → conditions = m.conditions) ∧
      ((context rules).walk (conditionalOps takenOn segments)).run m =
        onState (withConditions conditions) structured := by
  have hopen : (context rules).handle (.opcode (Op.opening takenOn)) = openBranch takenOn := by
    cases takenOn
    · exact handle_of_flow (f := .ifFalse) rfl
    · exact handle_of_flow (f := .ifTrue) rfl
  intro structured
  rw [conditionalOps, Context.walk_cons, hopen]
  cases hstack : m.stack with
  | nil =>
    have hunder : structured = ⟨.error .stackUnderflow, m, []⟩ := run_bind_error (run_pop_nil hstack)
    rw [run_bind_error (run_openBranch_nil hexec hstack takenOn), hunder]
    exact ⟨m.conditions, fun _ => rfl, rfl⟩
  | cons element rest =>
    -- the machine behind the pop, without the conditionals around
    let inside : Machine := { m with stack := rest, conditions := [] }
    have hselected := wellNested_selected hnested (Truth.ofBytes element == takenOn)
    have hstructured : structured =
        onState (within m.conditions) (((context rules).walk
          (selected (Truth.ofBytes element == takenOn) segments)).run inside) := by
      have hpop := run_bind_ok (f := fun element => (context rules).walk
        (selected (Truth.ofBytes element == takenOn) segments)) (run_pop_cons hstack)
      rw [List.nil_append] at hpop
      rw [← run_walk_within (m := inside) hexec hselected]
      exact hpop
    obtain ⟨conditions, hok, hflat⟩ := run_walk_segments rules (m := inside) hne hnested hexec rfl
      (Truth.ofBytes element == takenOn)
    rw [run_bind_ok (run_openBranch_cons hexec hstack takenOn), hstructured]
    refine ⟨conditions, hok, ?_⟩
    rw [List.nil_append]
    exact hflat

/-! ## Dispatching a conditional -/

/-- Where every open branch is taken, dispatching a conditional with well nested segments ends as
popping a truth value and dispatching every other segment does: with the same result, stack and checks
of signatures. Without a value to pop it fails, and where it succeeds the conditionals are those that
were open before. -/
theorem dispatch_conditional (rules : Rules) (m : Machine) (takenOn : Bool) (segments : List (List Chunk))
    (chunks : List Chunk) (i j : Nat) (hexec : m.isExecuting = true) (hne : segments ≠ [])
    (hnested : ∀ segment ∈ segments, WellNested (segment.map Chunk.operation))
    (hchunks : chunks.map Chunk.operation = conditionalOps takenOn (segments.map (List.map Chunk.operation))) :
    let flat := ((context rules).dispatch i chunks).run m
    let structured := (pop >>= fun element =>
      (context rules).dispatch j (selected (Truth.ofBytes element == takenOn) segments)).run m
    flat.result = structured.result ∧ flat.state.stack = structured.state.stack ∧
      flat.state.scriptCode = structured.state.scriptCode ∧
      Event.checks flat.reports = Event.checks structured.reports ∧
      (m.stack = [] → flat.result = .error .stackUnderflow) ∧
      (flat.result = .ok () → flat.state.conditions = m.conditions) := by
  intro flat structured
  let walked := (pop >>= fun element => (context rules).walk
    (selected (Truth.ofBytes element == takenOn) (segments.map (List.map Chunk.operation)))).run m
  have hwalks : ∀ segment ∈ segments.map (List.map Chunk.operation), WellNested segment := by
    intro segment hsegment
    obtain ⟨chunks', hmem, rfl⟩ := List.mem_map.1 hsegment
    exact hnested chunks' hmem
  obtain ⟨conditions, hok, hwalk⟩ := run_walk_conditional rules hexec
    (fun h => hne (List.map_eq_nil_iff.1 h)) hwalks takenOn
  -- remarks aside, both dispatches are walks
  have hflat : (⟨flat.result, flat.state, Event.checks flat.reports⟩ : Outcome _ _ _ _) =
      ⟨walked.result, walked.state.withConditions conditions, Event.checks walked.reports⟩ := by
    have h := congrArg (fun x => Action.run x m) ((context rules).onlyChecks_dispatch i chunks)
    simp only [Exec.run_onlyChecks, hchunks, hwalk] at h
    exact h
  have hstructured : (⟨structured.result, structured.state, Event.checks structured.reports⟩ : Outcome _ _ _ _) =
      ⟨walked.result, walked.state, Event.checks walked.reports⟩ := by
    have h : Exec.onlyChecks (pop >>= fun element =>
        (context rules).dispatch j (selected (Truth.ofBytes element == takenOn) segments)) =
        Exec.onlyChecks (pop >>= fun element => (context rules).walk
          (selected (Truth.ofBytes element == takenOn) (segments.map (List.map Chunk.operation)))) := by
      simp only [Exec.onlyChecks_bind, Context.onlyChecks_dispatch, map_selected]
    exact congrArg (fun x => Action.run x m) h
  injection hflat with hresult hstate hchecks
  injection hstructured with hresult' hstate' hchecks'
  refine ⟨hresult.trans hresult'.symm, ?_, ?_, hchecks.trans hchecks'.symm, fun hstack => ?_, fun hsuccess => ?_⟩
  · rw [hstate, hstate']
    rfl
  · rw [hstate, hstate']
    rfl
  · have hunder : walked = ⟨.error .stackUnderflow, m, []⟩ := run_bind_error (run_pop_nil hstack)
    rw [hresult, hunder]
  · rw [hstate]
    exact hok (hresult.symm.trans hsuccess)

/-- A branch that gives up in a conditional of its own is skipped between two that are taken. -/
theorem dispatch_conditional_of_return_skipped :
    let rules : Rules := { digests := Digests.standard, checker := fun _ _ _ => true }
    let m : Machine := { stack := [[1], [7]], conditions := [true] }
    let segments : List (List Chunk) :=
      [[⟨.push 0x01 [5], 1, 3⟩],
        [⟨.opcode Op.ifFalse, 4, 5⟩, ⟨.opcode Op.ret, 5, 6⟩, ⟨.opcode Op.otherwise, 6, 7⟩,
          ⟨.opcode Op.endIf, 7, 8⟩],
        [⟨.opcode Op.add, 9, 10⟩]]
    let chunks : List Chunk := ⟨.opcode Op.ifTrue, 0, 1⟩ ::
      [⟨.opcode Op.otherwise, 3, 4⟩].intercalate segments ++ [⟨.opcode Op.endIf, 10, 11⟩]
    let flat := ((context rules).dispatch 0 chunks).run m
    (m.isExecuting = true ∧ segments ≠ [] ∧
      (∀ segment ∈ segments, WellNested (segment.map Chunk.operation)) ∧
      chunks.map Chunk.operation = conditionalOps true (segments.map (List.map Chunk.operation))) ∧
    flat.result = .ok () ∧ flat.state.stack = [[12]] ∧ flat.state.conditions = [true] := by
  intro rules m segments chunks flat
  have hexec : m.isExecuting = true := by decide
  have hne : segments ≠ [] := by decide
  have hnested : ∀ segment ∈ segments, WellNested (segment.map Chunk.operation) := by decide
  have hchunks : chunks.map Chunk.operation =
      conditionalOps true (segments.map (List.map Chunk.operation)) := by decide
  obtain ⟨hresult, hstack, -, -, -, hclosed⟩ :=
    dispatch_conditional rules m true segments chunks 0 0 hexec hne hnested hchunks
  have hok : flat.result = .ok () := hresult
  exact ⟨⟨hexec, hne, hnested, hchunks⟩, hok, hstack, hclosed hok⟩

end Machine

end CoinScript
