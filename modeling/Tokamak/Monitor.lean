import Mathlib

/-! A monitor with one condition variable. Data behind a mutex are changed by operations that notify
nobody, one waiter or all of them, and taken from by threads that wait until there is something to take:
`while (!take) cv.wait(lock)`. A waiter may wake up without having been notified, and between its
wake-up and its next test others may have been there first. No wake-up is lost if every operation
notifies at least as many waiters as it makes room for: then somebody sleeps only while the data cannot
serve more threads than are awake already. Nothing here depends on what the data are. -/

universe u v w x

/-- Whom an operation notifies. -/
inductive Notify where
  | none
  | one
  | all
  deriving DecidableEq, Repr

/-- A thread in the monitor sleeps, or it is awake and not back in the mutex yet. `calls` and
`returned` are history that no step reads. -/
structure Monitor (δ : Type u) (θ : Type v) (ρ : Type w) where
  data : δ
  sleeping : List θ
  woken : List θ
  calls : List θ
  returned : List (θ × ρ)

inductive MonitorStep (κ : Type x) (θ : Type v) where
  /-- An operation that does not wait; `choice` is the condition variable's. -/
  | change (op : κ) (choice : Nat)
  /-- A thread calls the operation that waits. -/
  | enter (t : θ)
  /-- A thread that is awake has the mutex back and tests again. -/
  | resume (t : θ)
  /-- A thread wakes up for no reason. -/
  | spurious (t : θ)
  deriving DecidableEq, Repr

namespace Monitor

variable {δ : Type u} {θ : Type v} {ρ : Type w} {κ : Type x} [DecidableEq θ]

def start (d : δ) : Monitor δ θ ρ := ⟨d, [], [], [], []⟩

def wake (m : Monitor δ θ ρ) (choice : Nat) : Notify → Monitor δ θ ρ
  | .none => m
  | .one =>
      match m.sleeping[choice % m.sleeping.length]? with
      | none => m
      | some t => { m with sleeping := m.sleeping.erase t, woken := m.woken ++ [t] }
  | .all => { m with sleeping := [], woken := m.woken ++ m.sleeping }

section Steps

variable (change : κ → δ → δ × Notify) (take : δ → Option (ρ × δ))

/-- The test of a thread that has the mutex: it takes something and returns, or it goes to sleep. -/
def attempt (m : Monitor δ θ ρ) (t : θ) : Monitor δ θ ρ :=
  match take m.data with
  | some (result, d) => { m with data := d, returned := m.returned ++ [(t, result)] }
  | none => { m with sleeping := m.sleeping ++ [t] }

/-- A thread takes part in the monitor once at a time: other steps of it do not happen. -/
def step (m : Monitor δ θ ρ) : MonitorStep κ θ → Monitor δ θ ρ
  | .change op choice =>
      { m with data := (change op m.data).1 }.wake choice (change op m.data).2
  | .enter t =>
      if t ∈ m.sleeping ++ m.woken then m else { m with calls := m.calls ++ [t] }.attempt take t
  | .resume t => if t ∈ m.woken then { m with woken := m.woken.erase t }.attempt take t else m
  | .spurious t =>
      if t ∈ m.sleeping then
        { m with sleeping := m.sleeping.erase t, woken := m.woken ++ [t] }
      else m

def play (m : Monitor δ θ ρ) (steps : List (MonitorStep κ θ)) : Monitor δ θ ρ :=
  steps.foldl (step change take) m

variable {change take}

/-- What every step preserves holds after any number of them. -/
theorem play_inv (inv : Monitor δ θ ρ → Prop) (hstep : ∀ m a, inv m → inv (m.step change take a))
    {m : Monitor δ θ ρ} (hm : inv m) (steps : List (MonitorStep κ θ)) :
    inv (m.play change take steps) := by
  induction steps generalizing m with
  | nil => exact hm
  | cons a rest ih => exact ih (hstep m a hm)

omit [DecidableEq θ] in
/-- The two outcomes of a test. -/
theorem attempt_cases (m : Monitor δ θ ρ) (t : θ) :
    (∃ result d, take m.data = some (result, d) ∧
      m.attempt take t = { m with data := d, returned := m.returned ++ [(t, result)] }) ∨
    (take m.data = none ∧ m.attempt take t = { m with sleeping := m.sleeping ++ [t] }) := by
  unfold attempt
  cases htake : take m.data with
  | none => exact .inr ⟨rfl, rfl⟩
  | some answer => exact .inl ⟨answer.1, answer.2, rfl, rfl⟩

omit [DecidableEq θ] in
/-- `notify_one` wakes a sleeper if there is one. -/
theorem sleeper (m : Monitor δ θ ρ) (choice : Nat) (h : m.sleeping ≠ []) :
    ∃ t ∈ m.sleeping, m.sleeping[choice % m.sleeping.length]? = some t := by
  have hlt : choice % m.sleeping.length < m.sleeping.length :=
    Nat.mod_lt _ (List.length_pos_iff.mpr h)
  exact ⟨_, List.getElem_mem hlt, List.getElem?_eq_getElem hlt⟩

theorem wake_one (m : Monitor δ θ ρ) (choice : Nat) :
    (m.sleeping = [] ∧ m.wake choice .one = m) ∨
    ∃ t ∈ m.sleeping, m.wake choice .one =
      { m with sleeping := m.sleeping.erase t, woken := m.woken ++ [t] } := by
  by_cases hempty : m.sleeping = []
  · refine .inl ⟨hempty, ?_⟩
    simp [wake, hempty]
  · obtain ⟨t, ht, hchoice⟩ := m.sleeper choice hempty
    refine .inr ⟨t, ht, ?_⟩
    simp [wake, hchoice]

theorem wake_data (m : Monitor δ θ ρ) (choice : Nat) (n : Notify) : (m.wake choice n).data = m.data := by
  cases n with
  | none => rfl
  | one =>
      rcases m.wake_one choice with ⟨-, hwake⟩ | ⟨t, -, hwake⟩
      · rw [hwake]
      · rw [hwake]
  | all => rfl

theorem wake_returned (m : Monitor δ θ ρ) (choice : Nat) (n : Notify) :
    (m.wake choice n).returned = m.returned := by
  cases n with
  | none => rfl
  | one =>
      rcases m.wake_one choice with ⟨-, hwake⟩ | ⟨t, -, hwake⟩
      · rw [hwake]
      · rw [hwake]
  | all => rfl

/-! ### Every call is somewhere -/

/-- A call has returned, or its thread sleeps or is awake; and no thread is in two places. -/
structure Accounted (m : Monitor δ θ ρ) : Prop where
  calls : m.calls.Perm (m.returned.map Prod.fst ++ (m.sleeping ++ m.woken))
  nodup : (m.sleeping ++ m.woken).Nodup

omit [DecidableEq θ] in
theorem accounted_start (d : δ) : (start d : Monitor δ θ ρ).Accounted := ⟨.nil, List.nodup_nil⟩

omit [DecidableEq θ] in
/-- Threads only change places. -/
theorem Accounted.of_perm {m m' : Monitor δ θ ρ} (h : m.Accounted) (hcalls : m'.calls = m.calls)
    (hreturned : m'.returned = m.returned)
    (hinside : (m'.sleeping ++ m'.woken).Perm (m.sleeping ++ m.woken)) : m'.Accounted where
  calls := by
    rw [hcalls, hreturned]
    exact h.calls.trans (hinside.symm.append_left _)
  nodup := hinside.nodup_iff.mpr h.nodup

theorem perm_erase_append {t : θ} {sleeping : List θ} (woken : List θ) (ht : t ∈ sleeping) :
    (sleeping.erase t ++ (woken ++ [t])).Perm (sleeping ++ woken) := by
  rw [← List.append_assoc]
  refine (List.perm_append_singleton t _).trans ?_
  exact (List.perm_cons_erase ht).symm.append_right woken

theorem Accounted.wake {m : Monitor δ θ ρ} (h : m.Accounted) (choice : Nat) (n : Notify) :
    (m.wake choice n).Accounted := by
  cases n with
  | none => exact h
  | one =>
      rcases m.wake_one choice with ⟨-, hwake⟩ | ⟨t, ht, hwake⟩
      · rw [hwake]
        exact h
      · rw [hwake]
        exact h.of_perm rfl rfl (perm_erase_append m.woken ht)
  | all =>
      refine h.of_perm rfl rfl ?_
      change (m.woken ++ m.sleeping).Perm (m.sleeping ++ m.woken)
      exact List.perm_append_comm

omit [DecidableEq θ] in
/-- A thread that was taken out of the monitor is put back or returns. -/
theorem Accounted.attempt {m : Monitor δ θ ρ} {t : θ}
    (hcalls : m.calls.Perm (t :: (m.returned.map Prod.fst ++ (m.sleeping ++ m.woken))))
    (hnodup : (t :: (m.sleeping ++ m.woken)).Nodup) : (m.attempt take t).Accounted := by
  rcases m.attempt_cases t with ⟨result, d, -, hattempt⟩ | ⟨-, hattempt⟩
  · rw [hattempt]
    refine ⟨hcalls.trans ?_, (List.nodup_cons.mp hnodup).2⟩
    rw [List.map_append, List.map_cons, List.map_nil, List.append_assoc, List.singleton_append]
    exact List.perm_middle.symm
  · rw [hattempt]
    have hinside : (t :: (m.sleeping ++ m.woken)).Perm (m.sleeping ++ [t] ++ m.woken) := by
      rw [List.append_assoc, List.singleton_append]
      exact List.perm_middle.symm
    refine ⟨hcalls.trans ?_, hinside.nodup_iff.mp hnodup⟩
    exact List.perm_middle.symm.trans (hinside.append_left _)

theorem Accounted.step {m : Monitor δ θ ρ} (h : m.Accounted) (a : MonitorStep κ θ) :
    (m.step change take a).Accounted := by
  cases a with
  | change op choice =>
      have hchanged : ({ m with data := (change op m.data).1 } : Monitor δ θ ρ).Accounted :=
        ⟨h.calls, h.nodup⟩
      exact hchanged.wake choice _
  | enter t =>
      unfold Monitor.step
      simp only
      split_ifs with ht
      · exact h
      · refine Accounted.attempt ?_ (List.nodup_cons.mpr ⟨ht, h.nodup⟩)
        exact (List.perm_append_singleton t m.calls).trans (h.calls.cons t)
  | resume t =>
      unfold Monitor.step
      simp only
      split_ifs with ht
      · have hinside : (m.sleeping ++ m.woken).Perm (t :: (m.sleeping ++ m.woken.erase t)) :=
          ((List.perm_cons_erase ht).append_left _).trans List.perm_middle
        refine Accounted.attempt ?_ (hinside.nodup_iff.mp h.nodup)
        exact h.calls.trans ((hinside.append_left _).trans List.perm_middle)
      · exact h
  | spurious t =>
      unfold Monitor.step
      simp only
      split_ifs with ht
      · exact h.of_perm rfl rfl (perm_erase_append m.woken ht)
      · exact h

/-! ### No wake-up is lost -/

/-- From these data `n` threads can take something one after the other. -/
def Serves (take : δ → Option (ρ × δ)) : Nat → δ → Prop
  | 0, _ => True
  | n + 1, d => ∃ result d', take d = some (result, d') ∧ Serves take n d'

theorem Serves.pred {n : Nat} {d : δ} (h : Serves take (n + 1) d) : Serves take n d := by
  induction n generalizing d with
  | zero => trivial
  | succ n ih =>
      obtain ⟨result, d', htake, hrest⟩ := h
      exact ⟨result, d', htake, ih hrest⟩

theorem not_serves_of_none {n : Nat} {d : δ} (h : take d = none) : ¬Serves take (n + 1) d := by
  rintro ⟨result, d', htake, -⟩
  rw [h] at htake
  cases htake

/-- Every operation notifies as many waiters as it makes room for. -/
structure Disciplined (change : κ → δ → δ × Notify) (take : δ → Option (ρ × δ)) : Prop where
  none : ∀ op d n, (change op d).2 = .none → Serves take n (change op d).1 → Serves take n d
  one : ∀ op d n, (change op d).2 = .one → Serves take (n + 1) (change op d).1 → Serves take n d

/-- Somebody sleeps only while the data cannot serve more threads than are awake. -/
def NoneForgotten (take : δ → Option (ρ × δ)) (m : Monitor δ θ ρ) : Prop :=
  m.sleeping ≠ [] → ¬Serves take (m.woken.length + 1) m.data

omit [DecidableEq θ] in
theorem noneForgotten_start (d : δ) : (start d : Monitor δ θ ρ).NoneForgotten take :=
  fun h => absurd rfl h

omit [DecidableEq θ] in
/-- A thread that is no longer counted as awake tests the data. -/
theorem NoneForgotten.attempt {m : Monitor δ θ ρ} {t : θ}
    (h : m.sleeping ≠ [] → ¬Serves take (m.woken.length + 2) m.data) :
    (m.attempt take t).NoneForgotten take := by
  rcases m.attempt_cases t with ⟨result, d, htake, hattempt⟩ | ⟨htake, hattempt⟩
  · rw [hattempt]
    intro hsleeping hserves
    exact h hsleeping ⟨result, d, htake, hserves⟩
  · rw [hattempt]
    exact fun _ => not_serves_of_none htake

theorem NoneForgotten.step (hdisciplined : Disciplined change take) {m : Monitor δ θ ρ}
    (h : m.NoneForgotten take) (a : MonitorStep κ θ) :
    (m.step change take a).NoneForgotten take := by
  cases a with
  | change op choice =>
      unfold Monitor.step
      simp only
      cases hnotify : (change op m.data).2 with
      | none => exact fun hsleeping hserves => h hsleeping (hdisciplined.none op _ _ hnotify hserves)
      | one =>
          rcases wake_one ({ m with data := (change op m.data).1 } : Monitor δ θ ρ) choice with
            ⟨hempty, hwake⟩ | ⟨t, ht, hwake⟩
          · rw [hwake]
            exact fun hsleeping => absurd hempty hsleeping
          · rw [hwake]
            intro _ hserves
            rw [List.length_append, List.length_singleton] at hserves
            exact h (List.ne_nil_of_mem ht) (hdisciplined.one op _ _ hnotify hserves)
      | all => exact fun hsleeping => absurd rfl hsleeping
  | enter t =>
      unfold Monitor.step
      simp only
      split_ifs with ht
      · exact h
      · exact NoneForgotten.attempt (fun hsleeping hserves => h hsleeping hserves.pred)
  | resume t =>
      unfold Monitor.step
      simp only
      split_ifs with ht
      · refine NoneForgotten.attempt (fun hsleeping hserves => h hsleeping ?_)
        have hlength := List.length_erase_add_one ht
        rw [← hlength]
        exact hserves
      · exact h
  | spurious t =>
      unfold Monitor.step
      simp only
      split_ifs with ht
      · intro _ hserves
        rw [List.length_append, List.length_singleton] at hserves
        exact h (List.ne_nil_of_mem ht) hserves.pred
      · exact h

/-! ### What becomes of the threads that are awake -/

omit [DecidableEq θ] in
theorem woken_attempt (m : Monitor δ θ ρ) (t : θ) : (m.attempt take t).woken = m.woken := by
  rcases m.attempt_cases t with ⟨result, d, -, hattempt⟩ | ⟨-, hattempt⟩
  · rw [hattempt]
  · rw [hattempt]

theorem woken_resume (m : Monitor δ θ ρ) (t : θ) :
    (m.step change take (.resume t)).woken = m.woken.erase t := by
  unfold step
  simp only
  split_ifs with ht
  · rw [woken_attempt]
  · exact (List.erase_of_not_mem ht).symm

/-- Once everybody who is awake has tested, in whatever order, nobody is awake. -/
theorem woken_play_resume {order : List θ} {m : Monitor δ θ ρ} (h : m.woken.Perm order) :
    (m.play change take (order.map .resume)).woken = [] := by
  induction order generalizing m with
  | nil => exact h.eq_nil
  | cons t rest ih =>
      refine ih (m := m.step change take (.resume t)) ?_
      rw [woken_resume]
      exact (h.erase t).trans (by rw [List.erase_cons_head])

end Steps

end Monitor
