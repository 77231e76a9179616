import Tokamak.Outcome

/-! Waiting that is bounded. The steps one party takes on its way to a goal are paid out of a potential,
and what the other parties do in between may add to it. So a run on which the party has taken more steps
than the potential at the start and the additions pay for has come to the goal. `good` is a condition on
the end of a run that holds all along it, when it holds at the end. Nothing here depends on what the
steps do. -/

namespace Outcome

universe u v w

variable {ε : Type u} {σ : Type v} {ι : Type w}

/-- Every step on the way to the goal pays its price out of the potential, and the goal is never left. -/
structure Pays (step : σ → ι → Except ε σ) (good inv goal : σ → Prop) (allowed : ι → Prop)
    (potential : σ → Nat) (price gift : ι → Nat) : Prop where
  back : ∀ s a s', step s a = .ok s' → good s' → good s
  keeps : ∀ s a s', inv s → good s' → allowed a → step s a = .ok s' → inv s'
  stays : ∀ s a s', inv s → good s' → allowed a → goal s → step s a = .ok s' → goal s'
  pays : ∀ s a s', inv s → good s' → allowed a → ¬goal s → step s a = .ok s' →
    goal s' ∨ potential s' + price a ≤ potential s + gift a

variable {step : σ → ι → Except ε σ} {good inv goal : σ → Prop} {allowed : ι → Prop}
  {potential : σ → Nat} {price gift : ι → Nat} {s s' : σ} {actions : List ι}

/-- Actions of one kind, counted. -/
theorem sum_map_toNat (p : ι → Bool) (actions : List ι) :
    (actions.map fun a => (p a).toNat).sum = actions.countP p := by
  induction actions with
  | nil => rfl
  | cons a rest ih =>
      rw [List.map_cons, List.sum_cons, ih, List.countP_cons, Nat.add_comm]
      cases p a <;> rfl

/-- Actions of two kinds, the first of a certain weight. -/
theorem sum_map_weights (weight : Nat) (p q : ι → Bool) (actions : List ι) :
    (actions.map fun a => weight * (p a).toNat + (q a).toNat).sum =
      weight * actions.countP p + actions.countP q := by
  rw [List.sum_map_add, List.sum_map_mul_left, sum_map_toNat, sum_map_toNat]

/-- What holds on the way, when it holds at the end. -/
theorem good_of_run (hback : ∀ s a s', step s a = .ok s' → good s' → good s)
    (hrun : run step s actions = .ok s') (hgood : good s') : good s := by
  induction actions generalizing s with
  | nil =>
      rw [run_nil] at hrun
      cases hrun
      exact hgood
  | cons a rest ih =>
      rw [run_cons] at hrun
      obtain ⟨u, hstep, hrest⟩ := bind_eq_ok.mp hrun
      exact hback s a u hstep (ih hrest)

/-- What every allowed step keeps on the way to a good end, a run keeps. -/
theorem run_good (hback : ∀ s a s', step s a = .ok s' → good s' → good s)
    (hkeeps : ∀ s a s', inv s → good s' → allowed a → step s a = .ok s' → inv s') (hs : inv s)
    (hallowed : ∀ a ∈ actions, allowed a) (hrun : run step s actions = .ok s') (hgood : good s') :
    inv s' := by
  induction actions generalizing s with
  | nil =>
      rw [run_nil] at hrun
      cases hrun
      exact hs
  | cons a rest ih =>
      rw [run_cons] at hrun
      obtain ⟨u, hstep, hrest⟩ := bind_eq_ok.mp hrun
      have hgood' := good_of_run hback hrest hgood
      exact ih (hkeeps s a u hs hgood' (hallowed a List.mem_cons_self) hstep)
        (fun b hb => hallowed b (List.mem_cons_of_mem a hb)) hrest

namespace Pays

theorem run_keeps (h : Pays step good inv goal allowed potential price gift) (hs : inv s)
    (hallowed : ∀ a ∈ actions, allowed a) (hrun : run step s actions = .ok s') (hgood : good s') :
    inv s' := run_good h.back h.keeps hs hallowed hrun hgood

theorem run_stays (h : Pays step good inv goal allowed potential price gift) (hs : inv s)
    (hgoal : goal s) (hallowed : ∀ a ∈ actions, allowed a) (hrun : run step s actions = .ok s')
    (hgood : good s') : goal s' := by
  have hkeeps : ∀ u a u', inv u ∧ goal u → good u' → allowed a → step u a = .ok u' →
      inv u' ∧ goal u' := fun u a u' hu hgood' ha hstep =>
    ⟨h.keeps u a u' hu.1 hgood' ha hstep, h.stays u a u' hu.1 hgood' ha hu.2 hstep⟩
  exact (run_good h.back hkeeps ⟨hs, hgoal⟩ hallowed hrun hgood).2

/-- A run comes to the goal or is paid for. -/
theorem run_pays (h : Pays step good inv goal allowed potential price gift) (hs : inv s)
    (hallowed : ∀ a ∈ actions, allowed a) (hrun : run step s actions = .ok s') (hgood : good s') :
    goal s' ∨ potential s' + (actions.map price).sum ≤ potential s + (actions.map gift).sum := by
  induction actions generalizing s with
  | nil =>
      rw [run_nil] at hrun
      cases hrun
      exact .inr le_rfl
  | cons a rest ih =>
      have hall : ∀ b ∈ rest, allowed b := fun b hb => hallowed b (List.mem_cons_of_mem a hb)
      rw [run_cons] at hrun
      obtain ⟨u, hstep, hrest⟩ := bind_eq_ok.mp hrun
      have hgood' := good_of_run h.back hrest hgood
      have ha := hallowed a List.mem_cons_self
      have hu := h.keeps s a u hs hgood' ha hstep
      by_cases hgoal : goal s
      · exact .inl (h.run_stays hu (h.stays s a u hs hgood' ha hgoal hstep) hall hrest hgood)
      · rcases h.pays s a u hs hgood' ha hgoal hstep with hreached | hpaid
        · exact .inl (h.run_stays hu hreached hall hrest hgood)
        · refine (ih hu hall hrest).imp_right (fun htail => ?_)
          rw [List.map_cons, List.sum_cons, List.map_cons, List.sum_cons]
          omega

/-- **Bounded waiting.** A run that costs more than its potential and the additions ends at the goal. -/
theorem reached (h : Pays step good inv goal allowed potential price gift) (hs : inv s)
    (hallowed : ∀ a ∈ actions, allowed a) (hrun : run step s actions = .ok s') (hgood : good s')
    (hlong : potential s + (actions.map gift).sum < (actions.map price).sum) : goal s' := by
  rcases h.run_pays hs hallowed hrun hgood with hgoal | hpaid
  · exact hgoal
  · omega

end Pays

end Outcome
