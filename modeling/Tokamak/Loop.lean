import Tokamak.Outcome

/-! While loops over a body that may abort. The loop is cut off after a number of tests, and `Visits`
names the states at its top without a bound; of two such states one always comes first. A loop ends if
every pass goes down a well-founded relation; it does not end once a pass leads back to the state it
started from. Two loops whose tests agree and whose passes keep a relation return together. Nothing
here depends on what the body does. -/

namespace Outcome

universe u v

variable {ε : Type u} {σ : Type v} (cond : σ → Bool) (body : σ → Except ε σ)

/-- `while (cond s) s = body s`, given up after `n` tests of the condition. -/
def whileLoop : Nat → σ → Option (Except ε σ)
  | 0, _ => none
  | n + 1, s =>
      if cond s then
        match body s with
        | .ok s' => whileLoop n s'
        | .error e => some (.error e)
      else some (.ok s)

/-- The states at the top of a loop that was entered in `s`. -/
inductive Visits (s : σ) : σ → Prop
  | start : Visits s s
  | pass {t t' : σ} (ht : Visits s t) (hcond : cond t = true) (hbody : body t = .ok t') : Visits s t'

/-- The loop is left, by its test or by an abort. -/
def Ends (s : σ) : Prop := ∃ n, (whileLoop cond body n s).isSome = true

/-- The loop is left by its test, in `t`. -/
def Returns (s t : σ) : Prop := ∃ n, whileLoop cond body n s = some (.ok t)

variable {cond body} {s t : σ}

theorem whileLoop_pass {t' : σ} (hcond : cond t = true) (hbody : body t = .ok t') (n : Nat) :
    whileLoop cond body (n + 1) t = whileLoop cond body n t' := by
  rw [whileLoop, if_pos hcond, hbody]

/-- What every pass preserves holds at the top of the loop. -/
theorem Visits.inv {inv : σ → Prop} (h : Visits cond body s t) (hs : inv s)
    (hpass : ∀ u u', inv u → cond u = true → body u = .ok u' → inv u') : inv t := by
  induction h with
  | start => exact hs
  | pass _ hcond hbody ih => exact hpass _ _ ih hcond hbody

theorem Visits.trans {u : σ} (hst : Visits cond body s t) (htu : Visits cond body t u) :
    Visits cond body s u := by
  induction htu with
  | start => exact hst
  | pass _ hcond hbody ih => exact .pass ih hcond hbody

/-- A state that is visited is the one the loop was entered in, or it is visited after a first pass. -/
theorem Visits.cases_first (h : Visits cond body s t) :
    s = t ∨ ∃ s', cond s = true ∧ body s = .ok s' ∧ Visits cond body s' t := by
  induction h with
  | start => exact .inl rfl
  | pass _ hcond hbody ih =>
      rcases ih with rfl | ⟨s', hcond', hbody', hvisits⟩
      · exact .inr ⟨_, hcond, hbody, .start⟩
      · exact .inr ⟨s', hcond', hbody', .pass hvisits hcond hbody⟩

/-- Of two states that one loop visits, one is visited from the other. -/
theorem Visits.connex {u : σ} (hs : Visits cond body u s) (ht : Visits cond body u t) :
    Visits cond body s t ∨ Visits cond body t s := by
  induction ht with
  | start => exact .inr hs
  | pass _ hcond hbody ih =>
      rcases ih with hst | hts
      · exact .inl (.pass hst hcond hbody)
      · rcases hts.cases_first with rfl | ⟨t', _, hbody', hvisits⟩
        · exact .inl (.pass .start hcond hbody)
        · rw [hbody] at hbody'
          cases hbody'
          exact .inr hvisits

/-- The loop is the same from any state it visits, up to the tests already made. -/
theorem Visits.whileLoop_eq (h : Visits cond body s t) :
    ∃ m, ∀ n, whileLoop cond body (n + m) s = whileLoop cond body n t := by
  induction h with
  | start => exact ⟨0, fun n => rfl⟩
  | pass _ hcond hbody ih =>
      obtain ⟨m, hm⟩ := ih
      refine ⟨m + 1, fun n => ?_⟩
      rw [show n + (m + 1) = (n + 1) + m by omega, hm, whileLoop_pass hcond hbody]

/-- More tests do not change a result. -/
theorem whileLoop_mono {n : Nat} {r : Except ε σ} (h : whileLoop cond body n s = some r) (k : Nat) :
    whileLoop cond body (n + k) s = some r := by
  induction n generalizing s with
  | zero => cases h
  | succ n ih =>
      rw [Nat.add_right_comm]
      unfold whileLoop at h ⊢
      by_cases hcond : cond s = true
      · rw [if_pos hcond] at h ⊢
        cases hbody : body s with
        | ok s' =>
            rw [hbody] at h
            exact ih h
        | error e =>
            rw [hbody] at h
            exact h
      · rw [if_neg hcond] at h ⊢
        exact h

theorem Returns.visits (h : Returns cond body s t) : Visits cond body s t ∧ cond t = false := by
  obtain ⟨n, hn⟩ := h
  induction n generalizing s with
  | zero => cases hn
  | succ n ih =>
      unfold whileLoop at hn
      by_cases hcond : cond s = true
      · rw [if_pos hcond] at hn
        cases hbody : body s with
        | ok s' =>
            rw [hbody] at hn
            obtain ⟨hvisits, hexit⟩ := ih hn
            exact ⟨(Visits.start.pass hcond hbody).trans hvisits, hexit⟩
        | error e =>
            rw [hbody] at hn
            cases hn
      · rw [if_neg hcond] at hn
        cases hn
        exact ⟨.start, Bool.eq_false_iff.mpr hcond⟩

/-- A loop that returns does so from every state it visits. -/
theorem Returns.of_visits {u : σ} (h : Returns cond body s t) (hu : Visits cond body s u) :
    Returns cond body u t := by
  obtain ⟨n, hn⟩ := h
  obtain ⟨m, hm⟩ := hu.whileLoop_eq
  refine ⟨n, ?_⟩
  rw [← hm, whileLoop_mono hn]

theorem Returns.unique {t' : σ} (h : Returns cond body s t) (h' : Returns cond body s t') :
    t' = t := by
  obtain ⟨n, hn⟩ := h
  obtain ⟨n', hn'⟩ := h'
  have hboth := whileLoop_mono hn n'
  rw [Nat.add_comm, whileLoop_mono hn' n] at hboth
  exact Except.ok.inj (Option.some.inj hboth)

/-- A loop that returns survives its next pass. -/
theorem Returns.pass (h : Returns cond body s t) (hcond : cond s = true) :
    ∃ s', body s = .ok s' ∧ Returns cond body s' t := by
  obtain ⟨n, hn⟩ := h
  cases n with
  | zero => cases hn
  | succ n =>
      rw [whileLoop, if_pos hcond] at hn
      cases hbody : body s with
      | ok s' =>
          rw [hbody] at hn
          exact ⟨s', rfl, n, hn⟩
      | error e =>
          rw [hbody] at hn
          cases hn

/-- A loop ends if no pass of it can be repeated for ever. -/
theorem ends_of_wellFounded {r : σ → σ → Prop} (hwf : WellFounded r)
    (hpass : ∀ t t', Visits cond body s t → cond t = true → body t = .ok t' → r t' t) :
    Ends cond body s := by
  have hall : ∀ t, Visits cond body s t → Ends cond body t := by
    intro t
    induction t using hwf.induction with
    | _ t ih =>
        intro ht
        by_cases hcond : cond t = true
        · cases hbody : body t with
          | ok t' =>
              obtain ⟨n, hn⟩ := ih t' (hpass t t' ht hcond hbody) (ht.pass hcond hbody)
              refine ⟨n + 1, ?_⟩
              rw [whileLoop_pass hcond hbody]
              exact hn
          | error e =>
              refine ⟨1, ?_⟩
              rw [whileLoop, if_pos hcond, hbody]
              rfl
        · refine ⟨1, ?_⟩
          rw [whileLoop, if_neg hcond]
          rfl
  exact hall s .start

/-- A pass that changes nothing is made for ever. -/
theorem whileLoop_stuck (hcond : cond s = true) (hbody : body s = .ok s) (n : Nat) :
    whileLoop cond body n s = none := by
  induction n with
  | zero => rfl
  | succ n ih =>
      rw [whileLoop_pass hcond hbody]
      exact ih

theorem not_ends_of_stuck (ht : Visits cond body s t) (hcond : cond t = true)
    (hbody : body t = .ok t) : ¬Ends cond body s := by
  rintro ⟨n, hn⟩
  obtain ⟨m, hm⟩ := ht.whileLoop_eq
  obtain ⟨r, hr⟩ := Option.isSome_iff_exists.mp hn
  have hstuck := whileLoop_mono hr m
  rw [hm, whileLoop_stuck hcond hbody] at hstuck
  cases hstuck

/-- A loop that ends and has no pass that aborts returns. -/
theorem Ends.returns (h : Ends cond body s)
    (htotal : ∀ t, Visits cond body s t → cond t = true → ∃ t', body t = .ok t') :
    ∃ t, Returns cond body s t := by
  obtain ⟨n, hn⟩ := h
  induction n generalizing s with
  | zero => cases hn
  | succ n ih =>
      by_cases hcond : cond s = true
      · obtain ⟨s', hbody⟩ := htotal s .start hcond
        rw [whileLoop_pass hcond hbody] at hn
        obtain ⟨t, m, hm⟩ := ih (fun t ht => htotal t ((Visits.start.pass hcond hbody).trans ht)) hn
        exact ⟨t, m + 1, (whileLoop_pass hcond hbody m).trans hm⟩
      · exact ⟨s, 1, by rw [whileLoop, if_neg hcond]⟩

/-! ### Two loops in step -/

section Related

variable {σ' : Type v} {cond' : σ' → Bool} {body' : σ' → Except ε σ'} {R : σ → σ' → Prop} {s' : σ'}

/-- Every state the first loop visits is matched by one of the second. -/
theorem Visits.related (h : Visits cond body s t) (hs : R s s')
    (hcond : ∀ u u', R u u' → cond' u' = cond u)
    (hbody : ∀ u u' v, R u u' → cond u = true → body u = .ok v → ∃ v', body' u' = .ok v' ∧ R v v') :
    ∃ t', Visits cond' body' s' t' ∧ R t t' := by
  induction h with
  | start => exact ⟨s', .start, hs⟩
  | pass _ htest hpass ih =>
      obtain ⟨u', hvisits, hR⟩ := ih
      obtain ⟨v', hpass', hR'⟩ := hbody _ u' _ hR htest hpass
      exact ⟨v', hvisits.pass ((hcond _ u' hR).trans htest) hpass', hR'⟩

theorem Returns.of_exit (hs : Visits cond body s t) (hexit : cond t = false) :
    Returns cond body s t := by
  obtain ⟨m, hm⟩ := hs.whileLoop_eq
  refine ⟨1 + m, ?_⟩
  rw [hm, whileLoop, if_neg (by simp [hexit])]

/-- If the first loop returns, so does the second. -/
theorem Returns.related (h : Returns cond body s t) (hs : R s s')
    (hcond : ∀ u u', R u u' → cond' u' = cond u)
    (hbody : ∀ u u' v, R u u' → cond u = true → body u = .ok v → ∃ v', body' u' = .ok v' ∧ R v v') :
    ∃ t', Returns cond' body' s' t' ∧ R t t' := by
  obtain ⟨hvisits, hexit⟩ := h.visits
  obtain ⟨t', hvisits', hR⟩ := hvisits.related hs hcond hbody
  exact ⟨t', .of_exit hvisits' ((hcond t t' hR).trans hexit), hR⟩

/-- A loop whose states are viewed as states of another one, which makes the same tests and the same
passes, is that loop: their results, their aborts and their cut-offs are the same. -/
theorem whileLoop_map (view : σ → σ') (inv : σ → Prop) (hs : inv s)
    (hcond : ∀ u, inv u → cond' (view u) = cond u)
    (hbody : ∀ u, inv u → cond u = true → (body u).map view = body' (view u))
    (hinv : ∀ u v, inv u → cond u = true → body u = .ok v → inv v) (n : Nat) :
    (whileLoop cond body n s).map (Except.map view) = whileLoop cond' body' n (view s) := by
  induction n generalizing s with
  | zero => rfl
  | succ n ih =>
      unfold whileLoop
      rw [hcond s hs]
      by_cases htest : cond s = true
      · rw [if_pos htest, if_pos htest, ← hbody s hs htest]
        cases hpass : body s with
        | ok v => exact ih (hinv s v hs htest hpass)
        | error e => rfl
      · rw [if_neg htest, if_neg htest]
        rfl

end Related

end Outcome
