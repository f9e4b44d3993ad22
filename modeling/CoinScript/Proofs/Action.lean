/-
Four ways to speak of an action without following its steps: as a relation, where an action yields a
value and a state from a state, and a sequence yields what its parts yield one after the other; by the
causes that its failures can have; as an invariant, which an action keeps if it leads from states with a
property to states with it and reports nothing but what is allowed; and by what follows from it for
another action on a changed state, of which the symmetries of an action are a case: changes of the state
that it does not notice, so that they can as well be made after it.
-/
import CoinScript.Action

namespace CoinScript.Action

variable {ω ε σ α β : Type} {x : Action ω ε σ α} {f : α → Action ω ε σ β} {s s' s'' : σ} {a : α} {b : β}

/-- Behind an action that reports nothing a sequence is what follows. -/
theorem run_bind_silent (h : x.run s = ⟨.ok a, s', []⟩) : (x >>= f).run s = (f a).run s' := by
  rw [run_bind_ok h]
  rfl

/-- What leaves the state as it is does so behind any action. -/
theorem state_bind (hf : ∀ a s, ((f a).run s).state = s) (s : σ) : ((x >>= f).run s).state = (x.run s).state := by
  rcases hrun : x.run s with ⟨e | a, s', reports⟩
  · rw [run_bind_error hrun]
  · rw [run_bind_ok hrun]
    exact hf a s'

/-- What reports nothing adds nothing to the reports of any action. -/
theorem reports_bind (hf : ∀ a s, ((f a).run s).reports = []) (s : σ) :
    ((x >>= f).run s).reports = (x.run s).reports := by
  rcases hrun : x.run s with ⟨e | a, s', reports⟩
  · rw [run_bind_error hrun]
  · rw [run_bind_ok hrun, hf a s']
    exact List.append_nil reports

/-! ## Success -/

/-- From a state the action succeeds with a value and leaves another state. -/
def Yields (x : Action ω ε σ α) (s : σ) (a : α) (s' : σ) : Prop :=
  (x.run s).result = .ok a ∧ (x.run s).state = s'

theorem yields_of_run {reports : List ω} (h : x.run s = ⟨.ok a, s', reports⟩) : x.Yields s a s' := by
  rw [Yields, h]
  exact ⟨rfl, rfl⟩

/-- A success together with what was reported on the way. -/
theorem Yields.run_eq (h : x.Yields s a s') : x.run s = ⟨.ok a, s', (x.run s).reports⟩ := by
  obtain ⟨hresult, hstate⟩ := h
  rw [← hresult, ← hstate]

/-- A failure yields nothing. -/
theorem not_yields_of_run {e : ε} {reports : List ω} (h : x.run s = ⟨.error e, s'', reports⟩) :
    ¬ x.Yields s a s' := by
  rw [Yields, h]
  rintro ⟨h, -⟩
  cases h

/-- A success has one value and one state. -/
theorem Yields.unique {b : α} (h : x.Yields s a s') (h' : x.Yields s b s'') : b = a ∧ s'' = s' := by
  obtain ⟨hresult, hstate⟩ := h
  obtain ⟨hresult', hstate'⟩ := h'
  rw [hresult] at hresult'
  exact ⟨(Except.ok.inj hresult').symm, hstate'.symm.trans hstate⟩

theorem exists_yields_iff : (∃ s', x.Yields s a s') ↔ (x.run s).result = .ok a :=
  ⟨fun ⟨_, h⟩ => h.1, fun h => ⟨_, h, rfl⟩⟩

@[simp] theorem yields_pure {b : α} : (pure a : Action ω ε σ α).Yields s b s' ↔ b = a ∧ s' = s := by
  rw [Yields, run_pure]
  simp [eq_comm]

@[simp] theorem not_yields_fail {e : ε} : ¬ (fail e : Action ω ε σ α).Yields s a s' :=
  not_yields_of_run (run_fail e s)

@[simp] theorem yields_get {t : σ} : (get : Action ω ε σ σ).Yields s t s' ↔ t = s ∧ s' = s := by
  rw [Yields, run_get]
  simp [eq_comm]

@[simp] theorem yields_modify {g : σ → σ} {u : Unit} :
    (modify g : Action ω ε σ Unit).Yields s u s' ↔ s' = g s := by
  rw [Yields, run_modify]
  simp [eq_comm]

@[simp] theorem yields_report {w : ω} {u : Unit} : (report w : Action ω ε σ Unit).Yields s u s' ↔ s' = s := by
  rw [Yields, run_report]
  simp [eq_comm]

@[simp] theorem yields_require {condition : Bool} {e : ε} {u : Unit} :
    (require condition e : Action ω ε σ Unit).Yields s u s' ↔ condition = true ∧ s' = s := by
  cases condition with
  | true => rw [Yields, run_require_true]; simp [eq_comm]
  | false => simp [not_yields_of_run (run_require_false e s)]

/-- A sequence succeeds where its first part does and its second part does from there. -/
@[simp 900] theorem yields_bind : (x >>= f).Yields s b s'' ↔ ∃ a s', x.Yields s a s' ∧ (f a).Yields s' b s'' := by
  constructor
  · intro h
    rcases hx : x.run s with ⟨_ | a, s', reports⟩
    · exact absurd h (not_yields_of_run (run_bind_error hx))
    · rw [Yields, run_bind_ok hx] at h
      exact ⟨a, s', yields_of_run hx, h⟩
  · rintro ⟨a, s', hx, hf⟩
    rw [Yields, run_bind_ok hx.run_eq]
    exact hf

/-- An action that only acts hands nothing on. -/
@[simp] theorem yields_unit_bind {x : Action ω ε σ Unit} {f : Unit → Action ω ε σ β} :
    (x >>= f).Yields s b s'' ↔ ∃ s', x.Yields s () s' ∧ (f ()).Yields s' b s'' := by
  rw [yields_bind]
  exact ⟨fun ⟨(), h⟩ => h, fun h => ⟨(), h⟩⟩

/-- Asking for the state hands on the state as it is. -/
@[simp] theorem yields_get_bind {f : σ → Action ω ε σ β} : (get >>= f).Yields s b s' ↔ (f s).Yields s b s' := by
  simp [and_assoc]

/-- What is said of a failure does not matter to success. -/
@[simp] theorem yields_reportingFailure {g : ε → ω} : (x.reportingFailure g).Yields s a s' ↔ x.Yields s a s' := by
  rcases hx : x.run s with ⟨e | b, t, reports⟩
  · have h : ¬ x.Yields s a s' := not_yields_of_run hx
    have h' : ¬ (x.reportingFailure g).Yields s a s' := not_yields_of_run (run_reportingFailure_error g hx)
    exact ⟨fun hy => absurd hy h', fun hy => absurd hy h⟩
  · rw [Yields, Yields, run_reportingFailure_ok g hx, hx]

/-! ## Reports -/

/-- Every report that the action makes from one state is allowed. -/
def ReportsOnly (allowed : ω → Prop) (x : Action ω ε σ α) (s : σ) : Prop :=
  ∀ w ∈ (x.run s).reports, allowed w

variable {allowed allowed' : ω → Prop}

theorem ReportsOnly.mono (h : ReportsOnly allowed x s) (hmono : ∀ w, allowed w → allowed' w) :
    ReportsOnly allowed' x s :=
  fun w hw => hmono w (h w hw)

theorem reportsOnly_pure : ReportsOnly allowed (pure a : Action ω ε σ α) s := by
  rw [ReportsOnly, run_pure]
  simp

theorem reportsOnly_fail {e : ε} : ReportsOnly allowed (fail e : Action ω ε σ α) s := by
  rw [ReportsOnly, run_fail]
  simp

theorem reportsOnly_get : ReportsOnly allowed (get : Action ω ε σ σ) s := by
  rw [ReportsOnly, run_get]
  simp

theorem reportsOnly_modify {g : σ → σ} : ReportsOnly allowed (modify g : Action ω ε σ Unit) s := by
  rw [ReportsOnly, run_modify]
  simp

theorem reportsOnly_report {w : ω} (hw : allowed w) : ReportsOnly allowed (report w : Action ω ε σ Unit) s := by
  rw [ReportsOnly, run_report]
  simpa using hw

theorem reportsOnly_require {condition : Bool} {e : ε} :
    ReportsOnly allowed (require condition e : Action ω ε σ Unit) s := by
  cases condition
  · exact reportsOnly_fail
  · exact reportsOnly_pure

/-- The second part of a sequence reports only from where the first part leads it. -/
theorem ReportsOnly.bind (hx : ReportsOnly allowed x s)
    (hf : ∀ a s', x.Yields s a s' → ReportsOnly allowed (f a) s') : ReportsOnly allowed (x >>= f) s := by
  rw [ReportsOnly] at hx ⊢
  rcases hrun : x.run s with ⟨_ | a, s', reports⟩ <;> rw [hrun] at hx
  · rw [run_bind_error hrun]
    exact hx
  · rw [run_bind_ok hrun]
    exact fun w hw => (List.mem_append.1 hw).elim (hx w) (hf a s' (yields_of_run hrun) w)

/-! ## Failures -/

/-- Every failure of the action has an allowed cause. -/
def FailsOnly (allowed : ε → Prop) (x : Action ω ε σ α) : Prop :=
  ∀ s e, (x.run s).result = .error e → allowed e

section FailsOnly

variable {allowed : ε → Prop}

theorem failsOnly_pure : FailsOnly allowed (pure a : Action ω ε σ α) := nofun

theorem failsOnly_fail {e : ε} (he : allowed e) : FailsOnly allowed (fail e : Action ω ε σ α) := by
  rintro s _ ⟨⟩
  exact he

theorem failsOnly_get : FailsOnly allowed (get : Action ω ε σ σ) := nofun

theorem failsOnly_modify {g : σ → σ} : FailsOnly allowed (modify g : Action ω ε σ Unit) := nofun

theorem failsOnly_report {w : ω} : FailsOnly allowed (report w : Action ω ε σ Unit) := nofun

theorem failsOnly_require {condition : Bool} {e : ε} (he : allowed e) :
    FailsOnly allowed (require condition e : Action ω ε σ Unit) := by
  cases condition
  · exact failsOnly_fail he
  · exact failsOnly_pure

theorem FailsOnly.bind (hx : FailsOnly allowed x) (hf : ∀ a, FailsOnly allowed (f a)) :
    FailsOnly allowed (x >>= f) := by
  intro s e h
  rcases hrun : x.run s with ⟨e' | a, s', reports⟩
  · rw [run_bind_error hrun] at h
    cases h
    exact hx s e (by rw [hrun])
  · rw [run_bind_ok hrun] at h
    exact hf a s' e h

end FailsOnly

/-! ## Invariants -/

/-- From every state with the property the action ends in one with it, whether it succeeds or not, and
every report that it makes is allowed. -/
def Keeps (P : σ → Prop) (allowed : ω → Prop) (x : Action ω ε σ α) : Prop :=
  ∀ s, P s → P (x.run s).state ∧ ReportsOnly allowed x s

variable {P : σ → Prop}

theorem keeps_pure : Keeps P allowed (pure a : Action ω ε σ α) :=
  fun _ hs => ⟨hs, reportsOnly_pure⟩

theorem keeps_fail {e : ε} : Keeps P allowed (fail e : Action ω ε σ α) :=
  fun _ hs => ⟨hs, reportsOnly_fail⟩

theorem keeps_get : Keeps P allowed (get : Action ω ε σ σ) :=
  fun _ hs => ⟨hs, reportsOnly_get⟩

theorem keeps_modify {g : σ → σ} (hg : ∀ s, P s → P (g s)) : Keeps P allowed (modify g : Action ω ε σ Unit) :=
  fun s hs => ⟨hg s hs, reportsOnly_modify⟩

theorem keeps_report {w : ω} (hw : allowed w) : Keeps P allowed (report w : Action ω ε σ Unit) :=
  fun _ hs => ⟨hs, reportsOnly_report hw⟩

theorem keeps_require {condition : Bool} {e : ε} :
    Keeps P allowed (require condition e : Action ω ε σ Unit) := by
  cases condition
  · exact keeps_fail
  · exact keeps_pure

theorem Keeps.bind (hx : Keeps P allowed x) (hf : ∀ a, Keeps P allowed (f a)) : Keeps P allowed (x >>= f) := by
  intro s hs
  obtain ⟨hs', hreports⟩ := hx s hs
  refine ⟨?_, hreports.bind fun a s' hy => (hf a s' (hy.2 ▸ hs')).2⟩
  rcases hrun : x.run s with ⟨_ | a, s', reports⟩ <;> rw [hrun] at hs'
  · rw [run_bind_error hrun]
    exact hs'
  · rw [run_bind_ok hrun]
    exact (hf a s' hs').1

theorem Keeps.reportingFailure {g : ε → ω} (hx : Keeps P allowed x) (hg : ∀ e, allowed (g e)) :
    Keeps P allowed (x.reportingFailure g) := by
  intro s hs
  obtain ⟨hs', hreports⟩ := hx s hs
  rw [ReportsOnly] at hreports ⊢
  rcases hrun : x.run s with ⟨e | a, s', reports⟩ <;> rw [hrun] at hs' hreports
  · rw [run_reportingFailure_error g hrun]
    refine ⟨hs', fun w hw => ?_⟩
    rcases List.mem_append.1 hw with hw | hw
    · exact hreports w hw
    · rw [List.mem_singleton.1 hw]
      exact hg e
  · rw [run_reportingFailure_ok g hrun]
    exact ⟨hs', hreports⟩

/-! ## Actions on a changed state -/

/-- The outcome with its state changed. -/
def onState (g : σ → σ) (o : Outcome ω ε σ α) : Outcome ω ε σ α := ⟨o.result, g o.state, o.reports⟩

/-- Unless the first action fails with an excused cause, the second does on the changed state what the
first does on the state, and the change is there afterwards. -/
def Follows (g : σ → σ) (excused : ε → Prop) (x x' : Action ω ε σ α) : Prop :=
  ∀ s, (∀ e, (x.run s).result = .error e → ¬ excused e) → x'.run (g s) = onState g (x.run s)

section Follows

variable {g : σ → σ} {excused : ε → Prop} {x' : Action ω ε σ α} {f' : α → Action ω ε σ β}

theorem follows_pure : Follows g excused (pure a : Action ω ε σ α) (pure a) := fun _ _ => rfl

theorem follows_fail {e : ε} : Follows g excused (fail e : Action ω ε σ α) (fail e) := fun _ _ => rfl

theorem follows_report {w : ω} : Follows g excused (report w : Action ω ε σ Unit) (report w) := fun _ _ => rfl

/-- Nothing is asked behind an excused failure. -/
theorem follows_excused {e : ε} (he : excused e) : Follows g excused (fail e : Action ω ε σ α) x' :=
  fun _ h => absurd he (h e rfl)

theorem follows_require_excused {condition condition' : Bool} {e e' : ε} (he : excused e)
    (h : condition = true → condition' = true) :
    Follows g excused (require condition e : Action ω ε σ Unit) (require condition' e') := by
  cases condition with
  | false => exact follows_excused he
  | true =>
    rw [h rfl]
    exact follows_pure

theorem follows_modify {h h' : σ → σ} (hgh : ∀ s, h' (g s) = g (h s)) :
    Follows g excused (modify h : Action ω ε σ Unit) (modify h') := by
  intro s _
  rw [run_modify, run_modify, hgh, onState]

theorem Follows.bind (hx : Follows g excused x x') (hf : ∀ a, Follows g excused (f a) (f' a)) :
    Follows g excused (x >>= f) (x' >>= f') := by
  intro s h
  rcases hrun : x.run s with ⟨e | a, s', reports⟩
  · rw [run_bind_error hrun] at h ⊢
    have hs := hx s fun e' he' => h e' (by rw [hrun] at he'; cases he'; rfl)
    rw [hrun, onState] at hs
    rw [run_bind_error hs]
    rfl
  · rw [run_bind_ok hrun] at h ⊢
    have hs := hx s (by rw [hrun]; nofun)
    rw [hrun, onState] at hs
    rw [run_bind_ok hs, hf a s' h]
    rfl

/-- What is asked of the state goes on with the state in the one action, with the changed one in the other. -/
theorem Follows.get_bind {f f' : σ → Action ω ε σ β} (h : ∀ s, Follows g excused (f s) (f' (g s))) :
    Follows g excused (get >>= f) (get >>= f') := by
  intro s hs
  rw [run_bind_silent (run_get s)] at hs ⊢
  rw [run_bind_silent (run_get (g s))]
  exact h s s hs

theorem Follows.reportingFailure {w : ε → ω} (hx : Follows g excused x x') :
    Follows g excused (x.reportingFailure w) (x'.reportingFailure w) := by
  intro s h
  rcases hrun : x.run s with ⟨e | a, s', reports⟩
  · rw [run_reportingFailure_error w hrun] at h ⊢
    have hs := hx s (by rw [hrun]; exact h)
    rw [hrun, onState] at hs
    rw [run_reportingFailure_error w hs]
    rfl
  · have hs := hx s (by rw [hrun]; nofun)
    rw [hrun, onState] at hs
    rw [run_reportingFailure_ok w hrun, run_reportingFailure_ok w hs]
    rfl

/-- A success is one on the changed state. -/
theorem Follows.yields (hx : Follows g excused x x') (h : x.Yields s a s') : x'.Yields (g s) a (g s') := by
  have hs := hx s (by rw [h.1]; nofun)
  rw [Yields, hs, onState, h.1, h.2]
  exact ⟨rfl, rfl⟩

/-- A failure that is not excused is one on the changed state. -/
theorem Follows.result_eq_error {e : ε} (hx : Follows g excused x x') (h : (x.run s).result = .error e)
    (he : ¬ excused e) : (x'.run (g s)).result = .error e := by
  rw [hx s fun e' he' => (by rw [h] at he'; cases he'; exact he), onState, h]

end Follows

/-! ## Changes that go unnoticed -/

/-- A change of the state before the action is the same change after it, and shows in nothing else. -/
def Commutes (g : σ → σ) (x : Action ω ε σ α) : Prop := ∀ s, x.run (g s) = onState g (x.run s)

variable {g : σ → σ}

/-- It is what follows from the action for itself, without excuse. -/
theorem commutes_iff_follows : Commutes g x ↔ Follows g (fun _ => False) x x :=
  ⟨fun h s _ => h s, fun h s => h s fun _ _ hfalse => hfalse⟩

theorem commutes_pure : Commutes g (pure a : Action ω ε σ α) := fun _ => rfl

theorem commutes_fail {e : ε} : Commutes g (fail e : Action ω ε σ α) := fun _ => rfl

theorem commutes_report {w : ω} : Commutes g (report w : Action ω ε σ Unit) := fun _ => rfl

theorem commutes_modify {h : σ → σ} (hgh : ∀ s, h (g s) = g (h s)) :
    Commutes g (modify h : Action ω ε σ Unit) :=
  commutes_iff_follows.2 (follows_modify hgh)

theorem commutes_require {condition : Bool} {e : ε} :
    Commutes g (require condition e : Action ω ε σ Unit) := by
  cases condition
  · exact commutes_fail
  · exact commutes_pure

theorem Commutes.bind (hx : Commutes g x) (hf : ∀ a, Commutes g (f a)) : Commutes g (x >>= f) :=
  commutes_iff_follows.2 ((commutes_iff_follows.1 hx).bind fun a => commutes_iff_follows.1 (hf a))

/-- What is asked of the state must not tell the change. -/
theorem Commutes.get_bind {f : σ → Action ω ε σ β} (hf : ∀ s, f (g s) = f s) (h : ∀ s, Commutes g (f s)) :
    Commutes g (get >>= f) := by
  refine commutes_iff_follows.2 (Follows.get_bind fun s => ?_)
  rw [hf]
  exact commutes_iff_follows.1 (h s)

end CoinScript.Action
