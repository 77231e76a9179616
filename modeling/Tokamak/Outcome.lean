import Mathlib

/-! Computations that return a value or abort. `Ensures` is a postcondition for both ends, with the
usual rules: sequencing, consequence, conjunction, and one rule for a loop over a list whose
invariant speaks about the elements still to come. `run` folds a failing step over a list of
actions, `Guarded` says that every action of a run met a condition in the state it started from, and
`history` collects what the steps of a run emit. Nothing here depends on what the steps do. -/

namespace Outcome

universe u v w

variable {ε : Type u} {α β σ : Type v} {ι : Type w}

/-- A value satisfies `post`, an abort satisfies `fails`. -/
def Ensures (x : Except ε α) (fails : ε → Prop) (post : α → Prop) : Prop :=
  match x with
  | .ok value => post value
  | .error e => fails e

@[simp] theorem ensures_ok (value : α) (fails : ε → Prop) (post : α → Prop) :
    Ensures (.ok value) fails post ↔ post value := Iff.rfl

@[simp] theorem ensures_error (e : ε) (fails : ε → Prop) (post : α → Prop) :
    Ensures (.error e : Except ε α) fails post ↔ fails e := Iff.rfl

@[simp] theorem ensures_pure (value : α) (fails : ε → Prop) (post : α → Prop) :
    Ensures (pure value : Except ε α) fails post ↔ post value := Iff.rfl

@[simp] theorem ensures_throw (e : ε) (fails : ε → Prop) (post : α → Prop) :
    Ensures (throw e : Except ε α) fails post ↔ fails e := Iff.rfl

theorem ensures_iff {x : Except ε α} {fails : ε → Prop} {post : α → Prop} :
    Ensures x fails post ↔
      (∀ value, x = .ok value → post value) ∧ (∀ e, x = .error e → fails e) := by
  cases x with
  | ok value => simp
  | error e => simp

namespace Ensures

variable {x : Except ε α} {fails fails' : ε → Prop} {post post' : α → Prop}

theorem ok (h : Ensures x fails post) {value : α} (hx : x = .ok value) : post value :=
  (ensures_iff.mp h).1 value hx

theorem error (h : Ensures x fails post) {e : ε} (hx : x = .error e) : fails e :=
  (ensures_iff.mp h).2 e hx

theorem bind {next : α → Except ε β} {mid : α → Prop} {last : β → Prop}
    (hx : Ensures x fails mid) (hnext : ∀ value, mid value → Ensures (next value) fails last) :
    Ensures (x >>= next) fails last := by
  cases x with
  | ok value => exact hnext value hx
  | error e => exact hx

theorem mono (h : Ensures x fails post) (hfails : ∀ e, fails e → fails' e)
    (hpost : ∀ value, post value → post' value) : Ensures x fails' post' := by
  cases x with
  | ok value => exact hpost value h
  | error e => exact hfails e h

theorem imp (h : Ensures x fails post) (hpost : ∀ value, post value → post' value) :
    Ensures x fails post' := h.mono (fun _ he => he) hpost

/-- A fact about every value the computation returns may be added to its postcondition. -/
theorem and_ok (h : Ensures x fails post) (hok : ∀ value, x = .ok value → post' value) :
    Ensures x fails (fun value => post value ∧ post' value) := by
  cases x with
  | ok value => exact ⟨h, hok value rfl⟩
  | error e => exact h

theorem and (h : Ensures x fails post) (h' : Ensures x fails post') :
    Ensures x fails (fun value => post value ∧ post' value) := by
  cases x with
  | ok value => exact ⟨h, h'⟩
  | error e => exact h

/-- The loop rule: `inv` speaks about the elements still to be visited. -/
theorem foldlM {step : σ → ι → Except ε σ} (inv : List ι → σ → Prop)
    (hstep : ∀ a rest s, inv (a :: rest) s → Ensures (step s a) fails (inv rest)) :
    ∀ (items : List ι) (s : σ), inv items s → Ensures (items.foldlM step s) fails (inv []) := by
  intro items
  induction items with
  | nil => intro s hs; exact hs
  | cons a rest ih =>
      intro s hs
      rw [List.foldlM_cons]
      exact (hstep a rest s hs).bind (fun s' hs' => ih s' hs')

end Ensures

theorem bind_eq_ok {x : Except ε α} {next : α → Except ε β} {result : β} :
    x >>= next = .ok result ↔ ∃ value, x = .ok value ∧ next value = .ok result := by
  constructor
  · intro h
    cases x with
    | ok value => exact ⟨value, rfl, h⟩
    | error e => cases h
  · rintro ⟨value, rfl, h⟩
    exact h

theorem Ensures.mapM {ι : Type v} {f : ι → Except ε α} {fails : ε → Prop} (post : ι → α → Prop)
    (items : List ι) (hf : ∀ a ∈ items, Ensures (f a) fails (post a)) :
    Ensures (items.mapM f) fails (List.Forall₂ post items) := by
  induction items with
  | nil => exact List.Forall₂.nil
  | cons a rest ih =>
      rw [List.mapM_cons]
      refine (hf a List.mem_cons_self).bind (fun head hhead => ?_)
      refine (ih (fun x hx => hf x (List.mem_cons_of_mem a hx))).bind (fun tail htail => ?_)
      exact List.Forall₂.cons hhead htail

theorem exists_of_forall₂ {ι : Type v} {R : ι → α → Prop} {items : List ι} {results : List α}
    (h : List.Forall₂ R items results) {b : α} (hb : b ∈ results) : ∃ a ∈ items, R a b := by
  induction h with
  | nil => cases hb
  | cons hhead _ ih =>
      rcases List.mem_cons.mp hb with rfl | hb
      · exact ⟨_, List.mem_cons_self, hhead⟩
      · obtain ⟨a, ha, hab⟩ := ih hb
        exact ⟨a, List.mem_cons_of_mem _ ha, hab⟩

/-- `Forall₂.imp` for relations that only agree on the elements of the first list. -/
theorem forall₂_imp_of_mem {ι : Type v} {R S : ι → α → Prop} {items : List ι} {results : List α}
    (h : List.Forall₂ R items results) (himp : ∀ a ∈ items, ∀ b, R a b → S a b) :
    List.Forall₂ S items results := by
  induction h with
  | nil => exact .nil
  | cons hhead _ ih =>
      exact .cons (himp _ List.mem_cons_self _ hhead)
        (ih (fun a ha => himp a (List.mem_cons_of_mem _ ha)))

theorem forall₂_comp {ι : Type v} {R : ι → α → Prop} {S : α → β → Prop} {items : List ι}
    {middle : List α} {results : List β} (h : List.Forall₂ R items middle)
    (h' : List.Forall₂ S middle results) :
    List.Forall₂ (fun a c => ∃ b, R a b ∧ S b c) items results := by
  induction h generalizing results with
  | nil =>
      cases h'
      exact .nil
  | cons hhead _ ih =>
      cases h' with
      | cons hhead' htail' => exact .cons ⟨_, hhead, hhead'⟩ (ih htail')

/-- Results that determine the element they belong to are as distinct as the elements. -/
theorem nodup_map_of_forall₂ {ι : Type v} {R : ι → α → Prop} {items : List ι} {results : List α}
    {key : α → β} (h : List.Forall₂ R items results) (hnodup : items.Nodup)
    (hkey : ∀ a ∈ items, ∀ a' ∈ items, ∀ b b', R a b → R a' b' → key b = key b' → a = a') :
    (results.map key).Nodup := by
  induction h with
  | nil => exact List.nodup_nil
  | @cons a b rest results hhead htail ih =>
      obtain ⟨hnotMem, hnodup⟩ := List.nodup_cons.mp hnodup
      refine List.nodup_cons.mpr ⟨fun hmem => ?_, ?_⟩
      · obtain ⟨b', hb', heq⟩ := List.mem_map.mp hmem
        obtain ⟨a', ha', hab'⟩ := exists_of_forall₂ htail hb'
        have hsame := hkey a List.mem_cons_self a' (List.mem_cons_of_mem a ha') b b' hhead hab' heq.symm
        exact hnotMem (hsame ▸ ha')
      · exact ih hnodup (fun a ha a' ha' =>
          hkey a (List.mem_cons_of_mem _ ha) a' (List.mem_cons_of_mem _ ha'))

theorem length_of_mapM {ι : Type v} {f : ι → Except ε α} {items : List ι} {results : List α}
    (h : items.mapM f = .ok results) : results.length = items.length := by
  have hall : Ensures (items.mapM f) (fun _ => True) (List.Forall₂ (fun _ _ => True) items) :=
    Ensures.mapM _ items (fun a _ => by cases f a <;> trivial)
  exact (hall.ok h).length_eq.symm

theorem exists_of_map_ok {x : Except ε α} {f : α → β} {b : β} (hx : x.map f = .ok b) :
    ∃ value, x = .ok value ∧ f value = b := by
  cases x with
  | error e => cases hx
  | ok value => exact ⟨value, rfl, Except.ok.inj hx⟩

theorem error_of_map_error {x : Except ε α} {f : α → β} {e : ε} (hx : x.map f = .error e) :
    x = .error e := by
  cases x with
  | error e' =>
      cases hx
      rfl
  | ok value => cases hx

/-- A postcondition refuted by what can be observed of the value. -/
theorem not_ensures_of_map_ok {x : Except ε α} {fails : ε → Prop} {post : α → Prop} (view : α → β)
    {b : β} (hx : x.map view = .ok b) (hpost : ∀ value, post value → view value ≠ b) :
    ¬Ensures x fails post := by
  intro h
  obtain ⟨value, hvalue, hview⟩ := exists_of_map_ok hx
  exact hpost value (h.ok hvalue) hview

theorem not_ensures_of_map_error {x : Except ε α} {fails : ε → Prop} {post : α → Prop}
    (view : α → β) {e : ε} (hx : x.map view = .error e) (hfails : ¬fails e) :
    ¬Ensures x fails post := by
  intro h
  exact hfails (h.error (error_of_map_error hx))

@[simp] theorem ok_bind (value : α) (next : α → Except ε β) :
    (Except.ok value >>= next) = next value := rfl

@[simp] theorem error_bind (e : ε) (next : α → Except ε β) :
    ((Except.error e : Except ε α) >>= next) = .error e := rfl

/-! ### Runs -/

/-- The state after a list of actions, or the abort that ended the run. -/
def run (step : σ → ι → Except ε σ) (s : σ) (actions : List ι) : Except ε σ :=
  actions.foldlM step s

variable {step : σ → ι → Except ε σ}

@[simp] theorem run_nil (s : σ) : run step s [] = .ok s := rfl

theorem run_cons (s : σ) (a : ι) (rest : List ι) :
    run step s (a :: rest) = step s a >>= fun s' => run step s' rest :=
  List.foldlM_cons

theorem run_append (s : σ) (front back : List ι) :
    run step s (front ++ back) = run step s front >>= fun s' => run step s' back :=
  List.foldlM_append

/-- What every step preserves, every run preserves. -/
theorem run_ensures {fails : ε → Prop} {inv : σ → Prop}
    (hstep : ∀ s a, inv s → Ensures (step s a) fails inv) (s : σ) (hs : inv s)
    (actions : List ι) : Ensures (run step s actions) fails inv :=
  Ensures.foldlM (fun _ => inv) (fun a _ s hs => hstep s a hs) actions s hs

/-- Every action of the run meets `guard` in the state it starts from. -/
def Guarded (step : σ → ι → Except ε σ) (guard : σ → ι → Prop) : σ → List ι → Prop
  | _, [] => True
  | s, a :: rest => guard s a ∧
      match step s a with
      | .ok s' => Guarded step guard s' rest
      | .error _ => True

instance guardedDecidable {guard : σ → ι → Prop} [∀ s a, Decidable (guard s a)] :
    (s : σ) → (actions : List ι) → Decidable (Guarded step guard s actions)
  | _, [] => inferInstanceAs (Decidable True)
  | s, a :: rest =>
      have : Decidable (match step s a with
          | .ok s' => Guarded step guard s' rest
          | .error _ => True) :=
        match step s a with
        | .ok s' => guardedDecidable s' rest
        | .error _ => inferInstanceAs (Decidable True)
      inferInstanceAs (Decidable (guard s a ∧ _))

theorem Guarded.tail {guard : σ → ι → Prop} {s s' : σ} {a : ι} {rest : List ι}
    (h : Guarded step guard s (a :: rest)) (hs : step s a = .ok s') :
    Guarded step guard s' rest := by
  have hrest := h.2
  rw [hs] at hrest
  exact hrest

theorem guarded_of_forall {guard : σ → ι → Prop} (h : ∀ s a, guard s a) (s : σ) (actions : List ι) :
    Guarded step guard s actions := by
  induction actions generalizing s with
  | nil => trivial
  | cons a rest ih =>
      refine ⟨h s a, ?_⟩
      cases step s a with
      | ok s' => exact ih s'
      | error e => trivial

/-- Two conditions that agree wherever an invariant holds guard the same runs. -/
theorem guarded_congr {guard guard' : σ → ι → Prop} (inv : σ → Prop)
    (hstep : ∀ s a s', inv s → step s a = .ok s' → inv s')
    (hguard : ∀ s a, inv s → (guard s a ↔ guard' s a)) (s : σ) (hs : inv s) (actions : List ι) :
    Guarded step guard s actions ↔ Guarded step guard' s actions := by
  induction actions generalizing s with
  | nil => exact Iff.rfl
  | cons a rest ih =>
      unfold Guarded
      refine and_congr (hguard s a hs) ?_
      cases hnext : step s a with
      | ok s' => exact ih s' (hstep s a s' hs hnext)
      | error e => exact Iff.rfl

/-- What every guarded step preserves, every guarded run preserves. -/
theorem run_ensures_guarded {fails : ε → Prop} {guard : σ → ι → Prop} {inv : σ → Prop}
    (hstep : ∀ s a, inv s → guard s a → Ensures (step s a) fails inv) (s : σ) (hs : inv s)
    (actions : List ι) (hguard : Guarded step guard s actions) :
    Ensures (run step s actions) fails inv := by
  induction actions generalizing s with
  | nil => exact hs
  | cons a rest ih =>
      rw [run_cons]
      refine Ensures.bind ((hstep s a hs hguard.1).and_ok (fun s' hs' => hguard.tail hs')) ?_
      intro s' hs'
      exact ih s' hs'.1 hs'.2

/-- What comes to hold in a run comes to hold in one of its steps. -/
theorem exists_flip (holds : σ → Prop) {s t : σ} {actions : List ι}
    (hrun : run step s actions = .ok t) (hs : ¬holds s) (ht : holds t) :
    ∃ front a back u v, actions = front ++ a :: back ∧ run step s front = .ok u ∧
      step u a = .ok v ∧ run step v back = .ok t ∧ ¬holds u ∧ holds v := by
  induction actions generalizing s with
  | nil =>
      cases hrun
      exact absurd ht hs
  | cons a rest ih =>
      rw [run_cons] at hrun
      obtain ⟨s', hstep, hrest⟩ := bind_eq_ok.mp hrun
      by_cases hs' : holds s'
      · exact ⟨[], a, rest, s, s', rfl, rfl, hstep, hrest, hs, hs'⟩
      · obtain ⟨front, b, back, u, v, rfl, hfront, hlast, hback, hu, hv⟩ := ih hrest hs'
        refine ⟨a :: front, b, back, u, v, rfl, ?_, hlast, hback, hu, hv⟩
        rw [run_cons, hstep]
        exact hfront

/-- What the steps of a run emit, one after the other. -/
def history {β : Type w} (step : σ → ι → Except ε σ) (emits : σ → ι → List β) : σ → List ι → List β
  | _, [] => []
  | s, a :: rest => emits s a ++
      match step s a with
      | .ok s' => history step emits s' rest
      | .error _ => []

/-- What every step preserves of a state and its history, every run preserves. -/
theorem run_history {β : Type w} {fails : ε → Prop} {emits : σ → ι → List β}
    (inv : List β → σ → Prop)
    (hstep : ∀ past s a, inv past s → Ensures (step s a) fails (inv (past ++ emits s a)))
    (past : List β) (s : σ) (hs : inv past s) (actions : List ι) :
    Ensures (run step s actions) fails (inv (past ++ history step emits s actions)) := by
  induction actions generalizing past s with
  | nil =>
      rw [history, List.append_nil]
      exact hs
  | cons a rest ih =>
      rw [run_cons]
      cases hnext : step s a with
      | ok s' =>
          have hs' := (hstep past s a hs).ok hnext
          rw [history, hnext, ← List.append_assoc]
          exact ih _ s' hs'
      | error e => exact (hstep past s a hs).error hnext

/-- What can be read off the action of each step can be read off the actions of a run. -/
theorem history_sublist {β γ : Type w} {emits : σ → ι → List β} (view : β → γ) (reads : ι → List γ)
    (hemits : ∀ s a, ((emits s a).map view).Sublist (reads a)) (s : σ) (actions : List ι) :
    ((history step emits s actions).map view).Sublist (actions.flatMap reads) := by
  induction actions generalizing s with
  | nil => exact List.Sublist.refl []
  | cons a rest ih =>
      rw [history, List.map_append, List.flatMap_cons]
      refine (hemits s a).append ?_
      cases step s a with
      | ok s' => exact ih s'
      | error e => exact List.nil_sublist _

-- A run of a concrete system is a large computation: nothing but the lemmas above looks inside.
attribute [irreducible] run

end Outcome
