/-
Actions on a state that may fail. An action that fails keeps the state it reached and everything it
reported before, so that a caller sees how far it came. Actions in sequence stop at the first
failure; their reports stand in the order in which they were made.
-/

namespace CoinScript

/-- How an action ended: its result, the state it left, and its reports, oldest first. -/
structure Outcome (ω ε σ α : Type) where
  result : Except ε α
  state : σ
  reports : List ω

/-- An action on states `σ` that gives an `α`, fails with an `ε` and reports `ω`s. -/
def Action (ω ε σ α : Type) := σ → Outcome ω ε σ α

namespace Action

variable {ω ε σ α β : Type}

/-- The outcome of an action on a state. -/
def run (x : Action ω ε σ α) (s : σ) : Outcome ω ε σ α := x s

protected def pure (a : α) : Action ω ε σ α := fun s => ⟨.ok a, s, []⟩

/-- The second action runs only if the first gave a value, on the state that the first left. -/
protected def bind (x : Action ω ε σ α) (f : α → Action ω ε σ β) : Action ω ε σ β := fun s =>
  match x.run s with
  | ⟨.error e, s', reports⟩ => ⟨.error e, s', reports⟩
  | ⟨.ok a, s', reports⟩ =>
    match (f a).run s' with
    | ⟨result, s'', more⟩ => ⟨result, s'', reports ++ more⟩

instance : Monad (Action ω ε σ) where
  pure := Action.pure
  bind := Action.bind

/-! ## Single actions -/

/-- Fails, leaving the state as it is. -/
def fail (e : ε) : Action ω ε σ α := fun s => ⟨.error e, s, []⟩

/-- Makes one report. -/
def report (w : ω) : Action ω ε σ Unit := fun s => ⟨.ok (), s, [w]⟩

/-- The state. -/
def get : Action ω ε σ σ := fun s => ⟨.ok s, s, []⟩

/-- Changes the state. -/
def modify (f : σ → σ) : Action ω ε σ Unit := fun s => ⟨.ok (), f s, []⟩

/-- The value, or a failure with the cause. -/
def ofExcept : Except ε α → Action ω ε σ α
  | .ok a => pure a
  | .error e => fail e

/-- Goes on if the condition holds, and fails otherwise. -/
def require (condition : Bool) (e : ε) : Action ω ε σ Unit := if condition then pure () else fail e

/-- If the action fails, reports the cause after everything else, and still fails. -/
def reportingFailure (x : Action ω ε σ α) (f : ε → ω) : Action ω ε σ α := fun s =>
  match x.run s with
  | ⟨.ok a, s', reports⟩ => ⟨.ok a, s', reports⟩
  | ⟨.error e, s', reports⟩ => ⟨.error e, s', reports ++ [f e]⟩

/-! ## Outcomes of sequences -/

@[simp] theorem run_pure (a : α) (s : σ) :
    (pure a : Action ω ε σ α).run s = ⟨.ok a, s, []⟩ := rfl

@[simp] theorem run_fail (e : ε) (s : σ) : (fail e : Action ω ε σ α).run s = ⟨.error e, s, []⟩ := rfl

@[simp] theorem run_report (w : ω) (s : σ) : (report w : Action ω ε σ Unit).run s = ⟨.ok (), s, [w]⟩ := rfl

@[simp] theorem run_get (s : σ) : (get : Action ω ε σ σ).run s = ⟨.ok s, s, []⟩ := rfl

@[simp] theorem run_modify (f : σ → σ) (s : σ) :
    (modify f : Action ω ε σ Unit).run s = ⟨.ok (), f s, []⟩ := rfl

@[simp] theorem run_ofExcept_ok (a : α) (s : σ) :
    (ofExcept (.ok a) : Action ω ε σ α).run s = ⟨.ok a, s, []⟩ := rfl

@[simp] theorem run_ofExcept_error (e : ε) (s : σ) :
    (ofExcept (.error e) : Action ω ε σ α).run s = ⟨.error e, s, []⟩ := rfl

@[simp] theorem run_require_true (e : ε) (s : σ) :
    (require true e : Action ω ε σ Unit).run s = ⟨.ok (), s, []⟩ := rfl

@[simp] theorem run_require_false (e : ε) (s : σ) :
    (require false e : Action ω ε σ Unit).run s = ⟨.error e, s, []⟩ := rfl

theorem run_reportingFailure_ok {x : Action ω ε σ α} (f : ε → ω) {s s' : σ} {a : α} {reports : List ω}
    (h : x.run s = ⟨.ok a, s', reports⟩) :
    (x.reportingFailure f).run s = ⟨.ok a, s', reports⟩ := by
  show reportingFailure x f s = _
  rw [reportingFailure, h]

theorem run_reportingFailure_error {x : Action ω ε σ α} (f : ε → ω) {s s' : σ} {e : ε}
    {reports : List ω} (h : x.run s = ⟨.error e, s', reports⟩) :
    (x.reportingFailure f).run s = ⟨.error e, s', reports ++ [f e]⟩ := by
  show reportingFailure x f s = _
  rw [reportingFailure, h]

theorem run_bind_ok {x : Action ω ε σ α} {f : α → Action ω ε σ β} {s s' : σ} {a : α} {reports : List ω}
    (h : x.run s = ⟨.ok a, s', reports⟩) :
    (x >>= f).run s =
      ⟨((f a).run s').result, ((f a).run s').state, reports ++ ((f a).run s').reports⟩ := by
  show Action.bind x f s = _
  rw [Action.bind, h]

theorem run_bind_error {x : Action ω ε σ α} {f : α → Action ω ε σ β} {s s' : σ} {e : ε}
    {reports : List ω} (h : x.run s = ⟨.error e, s', reports⟩) :
    (x >>= f).run s = ⟨.error e, s', reports⟩ := by
  show Action.bind x f s = _
  rw [Action.bind, h]

instance : LawfulMonad (Action ω ε σ) := LawfulMonad.mk' _
  (fun x => funext fun s => by
    show Action.bind x Action.pure s = x s
    unfold Action.bind run
    rcases x s with ⟨_ | a, s', reports⟩
    · rfl
    · simp [Action.pure])
  (fun a f => funext fun s => by
    show Action.bind (Action.pure a) f s = f a s
    simp [Action.bind, Action.pure, run])
  (fun x f g => funext fun s => by
    show Action.bind (Action.bind x f) g s = Action.bind x (fun a => Action.bind (f a) g) s
    simp only [Action.bind, run]
    rcases hx : x s with ⟨_ | a, s', reports⟩
    · rfl
    · rcases hf : f a s' with ⟨_ | b, s'', more⟩ <;> simp [hf])

end Action

end CoinScript
