import Tokamak.Outcome

/-! Forward simulation between two systems that take steps. One step of the first is matched by a list
of actions of the second, which `answer` reads off the step, so that a whole run of the first is matched
by what `history` collects along it. An abort is matched by an abort, unless it is one of the first
system's own. Nothing here depends on what the two systems do. -/

namespace Outcome

universe u v w

variable {ε : Type u} {σ τ : Type v} {ι κ : Type w}

theorem bind_eq_error {α β : Type v} {x : Except ε α} {next : α → Except ε β} {e : ε} :
    x >>= next = .error e ↔ x = .error e ∨ ∃ value, x = .ok value ∧ next value = .error e := by
  cases x with
  | ok value => simp
  | error e' => simp

/-- Whatever the first system does from a related state, the second does with the actions `answer`
names, and the states stay related. -/
def Simulates (step : σ → ι → Except ε σ) (step' : τ → κ → Except ε τ) (answer : σ → ι → List κ)
    (R : σ → τ → Prop) : Prop :=
  ∀ s t a s', R s t → step s a = .ok s' → ∃ t', run step' t (answer s a) = .ok t' ∧ R s' t'

/-- An abort of the first system is its own or an abort of the second on the same actions. -/
def AbortsWith (step : σ → ι → Except ε σ) (step' : τ → κ → Except ε τ) (answer : σ → ι → List κ)
    (own : σ → ι → ε → Prop) (R : σ → τ → Prop) : Prop :=
  ∀ s t a e, R s t → step s a = .error e → own s a e ∨ run step' t (answer s a) = .error e

variable {step : σ → ι → Except ε σ} {step' : τ → κ → Except ε τ} {answer : σ → ι → List κ}
  {own : σ → ι → ε → Prop} {R : σ → τ → Prop} {s s' : σ} {t : τ} {e : ε}

theorem run_singleton (s : σ) (a : ι) : Outcome.run step s [a] = step s a := by
  rw [run_cons]
  cases step s a with
  | ok s' => exact run_nil s'
  | error e => rfl

/-- A run that aborts does so in one of its steps. -/
theorem run_eq_error {actions : List ι} : Outcome.run step s actions = .error e ↔
    ∃ front a back u, actions = front ++ a :: back ∧ Outcome.run step s front = .ok u ∧
      step u a = .error e := by
  constructor
  · intro hrun
    induction actions generalizing s with
    | nil =>
        rw [run_nil] at hrun
        cases hrun
    | cons a rest ih =>
        rw [run_cons] at hrun
        rcases bind_eq_error.mp hrun with hstep | ⟨u, hstep, hrest⟩
        · exact ⟨[], a, rest, s, rfl, run_nil s, hstep⟩
        · obtain ⟨front, b, back, v, rfl, hfront, hv⟩ := ih hrest
          refine ⟨a :: front, b, back, v, rfl, ?_, hv⟩
          rw [run_cons, hstep]
          exact hfront
  · rintro ⟨front, a, back, u, rfl, hfront, hstep⟩
    rw [run_append, hfront]
    change Outcome.run step u (a :: back) = .error e
    rw [run_cons, hstep]
    rfl

/-- A step that cannot abort. -/
theorem run_total (f : σ → ι → σ) (s : σ) (actions : List ι) :
    Outcome.run (fun s a => (.ok (f s a) : Except ε σ)) s actions = .ok (actions.foldl f s) := by
  induction actions generalizing s with
  | nil => exact run_nil s
  | cons a rest ih =>
      rw [run_cons]
      exact ih (f s a)

theorem guarded_singleton {guard : σ → ι → Prop} {a : ι} :
    Guarded step guard s [a] ↔ guard s a := by
  unfold Guarded
  refine ⟨fun h => h.1, fun h => ⟨h, ?_⟩⟩
  cases step s a with
  | ok s' => trivial
  | error e => trivial

/-- A run of the first system is matched by a run of the second. -/
theorem Simulates.run (h : Simulates step step' answer R) (hR : R s t) {actions : List ι}
    (hrun : run step s actions = .ok s') :
    ∃ t', Outcome.run step' t (history step answer s actions) = .ok t' ∧ R s' t' := by
  induction actions generalizing s t with
  | nil =>
      rw [run_nil] at hrun
      cases hrun
      exact ⟨t, run_nil t, hR⟩
  | cons a rest ih =>
      rw [run_cons] at hrun
      obtain ⟨u, hstep, hrest⟩ := bind_eq_ok.mp hrun
      obtain ⟨v, hanswer, huv⟩ := h s t a u hR hstep
      obtain ⟨t', htail, hR'⟩ := ih huv hrest
      refine ⟨t', ?_, hR'⟩
      rw [history, hstep, run_append, hanswer]
      exact htail

/-- A run of the first system that aborts does so of itself, in one of its steps, or with the run of
the second that matches it. -/
theorem Simulates.run_error (h : Simulates step step' answer R)
    (haborts : AbortsWith step step' answer own R) (hR : R s t) {actions : List ι}
    (hrun : Outcome.run step s actions = .error e) :
    (∃ front a back u, actions = front ++ a :: back ∧ Outcome.run step s front = .ok u ∧
        step u a = .error e ∧ own u a e) ∨
      Outcome.run step' t (history step answer s actions) = .error e := by
  induction actions generalizing s t with
  | nil =>
      rw [run_nil] at hrun
      cases hrun
  | cons a rest ih =>
      rw [run_cons] at hrun
      cases hstep : step s a with
      | error e' =>
          rw [hstep] at hrun
          cases hrun
          refine (haborts s t a e hR hstep).imp (fun hown => ?_) (fun hanswer => ?_)
          · exact ⟨[], a, rest, s, rfl, run_nil s, hstep, hown⟩
          · rw [history, hstep, List.append_nil]
            exact hanswer
      | ok u =>
          rw [hstep] at hrun
          obtain ⟨v, hanswer, huv⟩ := h s t a u hR hstep
          refine (ih huv hrun).imp ?_ (fun htail => ?_)
          · rintro ⟨front, b, back, x, rfl, hfront, hlast, hown⟩
            refine ⟨a :: front, b, back, x, rfl, ?_, hlast, hown⟩
            rw [run_cons, hstep]
            exact hfront
          · rw [history, hstep, run_append, hanswer]
            exact htail

theorem history_append {actions : List ι} (hrun : Outcome.run step s actions = .ok s')
    (later : List ι) :
    history step answer s (actions ++ later) =
      history step answer s actions ++ history step answer s' later := by
  induction actions generalizing s with
  | nil =>
      rw [run_nil] at hrun
      cases hrun
      rfl
  | cons a rest ih =>
      rw [run_cons] at hrun
      obtain ⟨u, hstep, hrest⟩ := bind_eq_ok.mp hrun
      rw [List.cons_append, history, history, hstep, List.append_assoc]
      exact congrArg _ (ih hrest)

/-- A run that returns took all its actions. -/
theorem history_actions {actions : List ι} (hrun : Outcome.run step s actions = .ok s') :
    history step (fun _ a => [a]) s actions = actions := by
  induction actions generalizing s with
  | nil => rfl
  | cons a rest ih =>
      rw [run_cons] at hrun
      obtain ⟨u, hstep, hrest⟩ := bind_eq_ok.mp hrun
      rw [history, hstep]
      exact congrArg (a :: ·) (ih hrest)

/-- What is read off the matching run is read off the actions of the run, where every step reads the
same. -/
theorem filterMap_history {β : Type w} (view : κ → Option β) (reads : ι → List β)
    (hreads : ∀ s a s', step s a = .ok s' → (answer s a).filterMap view = reads a) {actions : List ι}
    (hrun : Outcome.run step s actions = .ok s') :
    (history step answer s actions).filterMap view = actions.flatMap reads := by
  induction actions generalizing s with
  | nil => rfl
  | cons a rest ih =>
      rw [run_cons] at hrun
      obtain ⟨u, hstep, hrest⟩ := bind_eq_ok.mp hrun
      rw [history, hstep, List.filterMap_append, hreads s a u hstep, List.flatMap_cons]
      exact congrArg (reads a ++ ·) (ih hrest)

end Outcome
