import Tokamak.Lifecycle

/-! The history a lifecycle keeps of itself. It has one slot for each state and one for the first token,
which is enough only because the transition graph has no cycle: with every transition the rank of the
state grows, and the first token falls between `decoding` and the terminal states. So the milestones
of any sequence of calls are sorted by rank, none is reached twice, and no slot is written twice. -/

open Outcome

namespace Tokamak

/-! ### Lists sorted by a key -/

section Sorted

variable {α : Type} (key : α → Nat) {items : List α} {a b : α}

theorem eq_of_key_eq (h : items.Pairwise (fun x y => key x < key y)) (ha : a ∈ items)
    (hb : b ∈ items) (heq : key a = key b) : a = b := by
  obtain ⟨i, hi, rfl⟩ := List.mem_iff_getElem.mp ha
  obtain ⟨j, hj, rfl⟩ := List.mem_iff_getElem.mp hb
  have hsorted := List.pairwise_iff_getElem.mp h
  rcases lt_trichotomy i j with hlt | rfl | hlt
  · exact absurd heq (hsorted i j hi hj hlt).ne
  · rfl
  · exact absurd heq (hsorted j i hj hi hlt).ne'

/-- Whatever else grows along the list grows with the key. -/
theorem le_of_key_lt {time : α → Int} (h : items.Pairwise (fun x y => key x < key y))
    (htime : items.Pairwise (fun x y => time x ≤ time y)) (ha : a ∈ items) (hb : b ∈ items)
    (hlt : key a < key b) : time a ≤ time b := by
  obtain ⟨i, hi, rfl⟩ := List.mem_iff_getElem.mp ha
  obtain ⟨j, hj, rfl⟩ := List.mem_iff_getElem.mp hb
  rcases lt_trichotomy i j with hij | rfl | hij
  · exact List.pairwise_iff_getElem.mp htime i j hi hj hij
  · exact absurd hlt (lt_irrefl _)
  · exact absurd (List.pairwise_iff_getElem.mp h j i hj hi hij) (not_lt.mpr hlt.le)

end Sorted

/-! ### The transition graph -/

/-- How far a state is from `received`. -/
def RequestState.rank : RequestState → Nat
  | received => 0
  | admitted => 1
  | waitingPrefill => 2
  | prefilling => 3
  | waitingDecode => 4
  | decoding => 5
  | completed | rejected | cancelled | failed => 6

/-- The graph has no cycle. -/
theorem rank_lt_of_isValidTransition {s target : RequestState}
    (h : isValidTransition s target = true) : s.rank < target.rank := by
  revert h
  cases s <;> cases target <;> decide

theorem rank_of_isTerminal {s : RequestState} (h : s.isTerminal = true) : s.rank = 6 := by
  cases s <;> first | rfl | cases h

/-- What a lifecycle records once. -/
inductive Milestone where
  | entered (state : RequestState)
  | firstToken
  deriving DecidableEq, Repr

/-- The first token comes while decoding. -/
def Milestone.rank : Milestone → Nat
  | entered state => 2 * state.rank
  | firstToken => 2 * RequestState.decoding.rank + 1

/-! ### Calls -/

inductive LifecycleCall where
  | transitionTo (target : RequestState)
  | cancel
  | recordFirstToken
  deriving DecidableEq, Repr

/-- A call, and the world at the moment it is made. -/
structure TimedCall (ω : Type) where
  call : LifecycleCall
  world : ω

/-- What the clock shows then. -/
def TimedCall.reading {ω : Type} [Clock ω] (c : TimedCall ω) : TimePoint := (Clock.now c.world).1

/-- The states among the milestones, with the times they were entered at. -/
def visits (events : List (Milestone × TimePoint)) : List (RequestState × TimePoint) :=
  events.filterMap fun e =>
    match e.1 with
    | .entered state => some (state, e.2)
    | .firstToken => none

theorem mem_visits {events : List (Milestone × TimePoint)} {state : RequestState} {t : TimePoint} :
    (state, t) ∈ visits events ↔ (Milestone.entered state, t) ∈ events := by
  unfold visits
  rw [List.mem_filterMap]
  constructor
  · rintro ⟨⟨milestone, t'⟩, hmem, heq⟩
    cases milestone with
    | entered state' =>
        cases heq
        exact hmem
    | firstToken => cases heq
  · intro hmem
    exact ⟨_, hmem, rfl⟩

/-- The visits are in the order of the milestones. -/
theorem pairwise_visits {events : List (Milestone × TimePoint)}
    {R : Milestone × TimePoint → Milestone × TimePoint → Prop}
    {S : RequestState × TimePoint → RequestState × TimePoint → Prop} (h : events.Pairwise R)
    (hRS : ∀ s t s' t', R (.entered s, t) (.entered s', t') → S (s, t) (s', t')) :
    (visits events).Pairwise S := by
  unfold visits
  rw [List.pairwise_filterMap]
  refine h.imp ?_
  rintro ⟨milestone, t⟩ ⟨milestone', t'⟩ hR visit hvisit visit' hvisit'
  cases milestone with
  | firstToken => cases hvisit
  | entered s =>
      cases milestone' with
      | firstToken => cases hvisit'
      | entered s' =>
          cases hvisit
          cases hvisit'
          exact hRS s t s' t' hR

namespace RequestLifecycle

variable {ω : Type} [Clock ω] {lc lc' : RequestLifecycle} {c : TimedCall ω}

def apply (lc : RequestLifecycle) (c : TimedCall ω) : Except Panic RequestLifecycle :=
  match c.call with
  | .transitionTo target => (lc.transitionTo target c.world).map Prod.fst
  | .cancel => (lc.cancel c.world).map Prod.fst
  | .recordFirstToken => (lc.recordFirstToken c.world).map Prod.fst

/-- The milestone a call reaches, if it reaches one. -/
def reaches (lc : RequestLifecycle) (c : TimedCall ω) : List (Milestone × TimePoint) :=
  match c.call with
  | .transitionTo target => [(.entered target, c.reading)]
  | .cancel => if lc.state.isTerminal then [] else [(.entered .cancelled, c.reading)]
  | .recordFirstToken => if lc.firstTokenAt.isNone then [(.firstToken, c.reading)] else []

/-- The milestones of a sequence of calls, in their order. -/
def milestones (lc : RequestLifecycle) (calls : List (TimedCall ω)) : List (Milestone × TimePoint) :=
  history apply reaches lc calls

/-- A call enters a state, records the first token, or changes nothing. -/
theorem apply_cases (h : lc.apply c = .ok lc') :
    (∃ target, isValidTransition lc.state target = true ∧ lc' = lc.enter target c.reading ∧
      lc.reaches c = [(.entered target, c.reading)]) ∨
    (lc.state = .decoding ∧ lc.firstTokenAt = none ∧ lc' = lc.stampFirstToken c.reading ∧
      lc.reaches c = [(.firstToken, c.reading)]) ∨
    (lc' = lc ∧ lc.reaches c = []) := by
  unfold apply at h
  unfold reaches
  cases hcall : c.call with
  | transitionTo target =>
      rw [hcall] at h
      obtain ⟨done, hdone, rfl⟩ := exists_of_map_ok h
      simp only [transitionTo] at hdone
      split_ifs at hdone with hvalid
      cases hdone
      exact .inl ⟨target, hvalid, rfl, rfl⟩
  | cancel =>
      rw [hcall] at h
      obtain ⟨done, hdone, rfl⟩ := exists_of_map_ok h
      simp only [cancel, transitionTo] at hdone
      split_ifs at hdone with hterminal hvalid
      · cases hdone
        exact .inr (.inr ⟨rfl, if_pos hterminal⟩)
      · cases hdone
        exact .inl ⟨.cancelled, hvalid, rfl, if_neg hterminal⟩
  | recordFirstToken =>
      rw [hcall] at h
      obtain ⟨done, hdone, rfl⟩ := exists_of_map_ok h
      simp only [recordFirstToken, firstToken] at hdone
      split_ifs at hdone with hstate hnone
      · cases hdone
        exact .inr (.inl ⟨not_not.mp hstate, Option.isNone_iff_eq_none.mp hnone, rfl, if_pos hnone⟩)
      · cases hdone
        exact .inr (.inr ⟨rfl, if_neg hnone⟩)

/-- The three stores agree with the milestones so far, and those are sorted. -/
structure Recorded (past : List (Milestone × TimePoint)) (lc : RequestLifecycle) : Prop where
  sorted : past.Pairwise (fun a b => a.1.rank < b.1.rank)
  entered : ∀ s t, (.entered s, t) ∈ past → 0 < s.rank ∧ s.rank ≤ lc.state.rank
  first : ∀ t, (.firstToken, t) ∈ past → RequestState.decoding.rank ≤ lc.state.rank ∧
    ∃ opened, (.entered .decoding, opened) ∈ past
  current : lc.state = .received ∨ ∃ t, (.entered lc.state, t) ∈ past
  stateEnteredAt : ∀ s t, lc.enteredAtState s = some t ↔ (.entered s, t) ∈ past
  firstTokenAt : ∀ t, lc.firstTokenAt = some t ↔ (.firstToken, t) ∈ past
  admittedAt : lc.admittedAt = lc.enteredAtState .admitted
  completedAt : lc.completedAt = lc.enteredAtState .completed

namespace Recorded

variable {past : List (Milestone × TimePoint)}

omit [Clock ω] in
theorem new (t₀ : TimePoint) : Recorded [] (RequestLifecycle.new t₀) where
  sorted := .nil
  entered s t h := by cases h
  first t h := by cases h
  current := .inl rfl
  stateEnteredAt s t := iff_of_false (by simp [enteredAtState, RequestLifecycle.new]) List.not_mem_nil
  firstTokenAt t := iff_of_false nofun List.not_mem_nil
  admittedAt := rfl
  completedAt := rfl

/-- A transition leaves everything recorded so far behind. -/
theorem enter (h : Recorded past lc) {target : RequestState}
    (hvalid : isValidTransition lc.state target = true) (t : TimePoint) :
    Recorded (past ++ [(.entered target, t)]) (lc.enter target t) := by
  have hrank := rank_lt_of_isValidTransition hvalid
  have hfresh : ∀ t', (Milestone.entered target, t') ∉ past :=
    fun t' hmem => absurd (h.entered target t' hmem).2 (not_le.mpr hrank)
  refine ⟨?_, ?_, ?_, .inr ⟨t, by simp⟩, ?_, ?_, ?_, ?_⟩
  · rw [List.pairwise_append]
    refine ⟨h.sorted, List.pairwise_singleton _ _, ?_⟩
    rintro ⟨milestone, t'⟩ hmem e he
    rw [List.mem_singleton.mp he]
    cases milestone with
    | entered s =>
        have hle := (h.entered s t' hmem).2
        simp only [Milestone.rank]
        omega
    | firstToken =>
        have hle := (h.first t' hmem).1
        simp only [Milestone.rank]
        omega
  · intro s t' hmem
    rw [state_enter]
    rcases List.mem_append.mp hmem with hmem | hmem
    · obtain ⟨hpos, hle⟩ := h.entered s t' hmem
      exact ⟨hpos, hle.trans hrank.le⟩
    · cases List.mem_singleton.mp hmem
      exact ⟨Nat.zero_lt_of_lt hrank, le_rfl⟩
  · intro t' hmem
    rw [state_enter]
    rcases List.mem_append.mp hmem with hmem | hmem
    · obtain ⟨hle, opened, hopened⟩ := h.first t' hmem
      exact ⟨hle.trans hrank.le, opened, List.mem_append_left _ hopened⟩
    · cases List.mem_singleton.mp hmem
  · intro s t'
    rw [enteredAtState_enter, List.mem_append, List.mem_singleton]
    by_cases hs : s = target
    · subst hs
      simp only [if_pos, Option.some.injEq, hfresh t', false_or, Prod.mk.injEq, true_and]
      exact eq_comm
    · rw [if_neg hs, h.stateEnteredAt]
      simp only [Prod.mk.injEq, Milestone.entered.injEq, hs, false_and, or_false]
  · intro t'
    rw [firstTokenAt_enter, h.firstTokenAt, List.mem_append, List.mem_singleton]
    simp
  · rw [admittedAt_enter, enteredAtState_enter, h.admittedAt]
    simp only [eq_comm]
  · rw [completedAt_enter, enteredAtState_enter, h.completedAt]
    simp only [eq_comm]

/-- The first token is recorded while decoding, and only once. -/
theorem stampFirstToken (h : Recorded past lc) (hstate : lc.state = .decoding)
    (hnone : lc.firstTokenAt = none) (t : TimePoint) :
    Recorded (past ++ [(.firstToken, t)]) (lc.stampFirstToken t) := by
  have hfresh : ∀ t', (Milestone.firstToken, t') ∉ past := by
    intro t' hmem
    rw [← h.firstTokenAt, hnone] at hmem
    cases hmem
  have hopened : ∃ opened, (Milestone.entered .decoding, opened) ∈ past := by
    rcases h.current with hreceived | hcurrent
    · rw [hstate] at hreceived
      cases hreceived
    · rw [hstate] at hcurrent
      exact hcurrent
  have hsame : ∀ s t', (Milestone.entered s, t') ∈ past ++ [(Milestone.firstToken, t)] ↔
      (Milestone.entered s, t') ∈ past := by
    intro s t'
    rw [List.mem_append, List.mem_singleton]
    simp
  refine ⟨?_, ?_, ?_, ?_, ?_, ?_, h.admittedAt, h.completedAt⟩
  · rw [List.pairwise_append]
    refine ⟨h.sorted, List.pairwise_singleton _ _, ?_⟩
    rintro ⟨milestone, t'⟩ hmem e he
    rw [List.mem_singleton.mp he]
    cases milestone with
    | entered s =>
        have hle := (h.entered s t' hmem).2
        rw [hstate] at hle
        simp only [Milestone.rank]
        omega
    | firstToken => exact absurd hmem (hfresh t')
  · intro s t' hmem
    exact h.entered s t' ((hsame s t').mp hmem)
  · intro t' _
    obtain ⟨opened, hmem⟩ := hopened
    exact ⟨hstate ▸ le_rfl, opened, List.mem_append_left _ hmem⟩
  · rcases h.current with hreceived | ⟨t', hmem⟩
    · exact .inl hreceived
    · exact .inr ⟨t', List.mem_append_left _ hmem⟩
  · intro s t'
    rw [hsame]
    exact h.stateEnteredAt s t'
  · intro t'
    rw [firstTokenAt_stampFirstToken, List.mem_append, List.mem_singleton]
    simp only [Option.some.injEq, hfresh t', false_or, Prod.mk.injEq, true_and]
    exact eq_comm

theorem apply (h : Recorded past lc) (hcall : lc.apply c = .ok lc') :
    Recorded (past ++ lc.reaches c) lc' := by
  rcases apply_cases hcall with ⟨target, hvalid, rfl, hreaches⟩ | ⟨hstate, hnone, rfl, hreaches⟩ |
    ⟨rfl, hreaches⟩
  · rw [hreaches]
    exact h.enter hvalid _
  · rw [hreaches]
    exact h.stampFirstToken hstate hnone _
  · rw [hreaches, List.append_nil]
    exact h

theorem run (h : Recorded past lc) {calls : List (TimedCall ω)}
    (hrun : Outcome.run RequestLifecycle.apply lc calls = .ok lc') :
    Recorded (past ++ lc.milestones calls) lc' := by
  have hall : Ensures (Outcome.run RequestLifecycle.apply lc calls) (fun _ => True)
      (Recorded (past ++ lc.milestones calls)) := by
    refine run_history Recorded (fun past lc c h => ?_) past lc h calls
    exact ensures_iff.mpr ⟨fun lc' hcall => h.apply hcall, fun _ _ => trivial⟩
  exact hall.ok hrun

end Recorded

/-! ### Any sequence of calls -/

theorem milestones_sorted (lc : RequestLifecycle) {calls : List (TimedCall ω)}
    (hclock : (calls.map fun c => c.reading).Pairwise (· ≤ ·)) :
    (lc.milestones calls).Pairwise (fun a b => a.2 ≤ b.2) := by
  have hreaches : ∀ (lc : RequestLifecycle) (c : TimedCall ω),
      ((lc.reaches c).map fun e => e.2).Sublist [c.reading] := by
    intro lc c
    unfold reaches
    split
    · exact .refl _
    · split_ifs
      · exact List.nil_sublist _
      · exact .refl _
    · split_ifs
      · exact .refl _
      · exact List.nil_sublist _
  have htimes : ((lc.milestones calls).map fun e => e.2).Sublist (calls.flatMap fun c => [c.reading]) := by
    unfold milestones
    exact history_sublist _ (fun c => [c.reading]) hreaches lc calls
  rw [← List.map_eq_flatMap] at htimes
  exact List.pairwise_map.mp (hclock.sublist htimes)

/-- What the slots of a lifecycle say, they still say in a later one. -/
structure KeptBy (lc later : RequestLifecycle) : Prop where
  enteredAt : ∀ s t, lc.enteredAtState s = some t → later.enteredAtState s = some t
  admittedAt : ∀ t, lc.admittedAt = some t → later.admittedAt = some t
  firstTokenAt : ∀ t, lc.firstTokenAt = some t → later.firstTokenAt = some t
  completedAt : ∀ t, lc.completedAt = some t → later.completedAt = some t

omit [Clock ω] in
theorem Recorded.keptBy {past more : List (Milestone × TimePoint)} (h : Recorded past lc)
    (h' : Recorded (past ++ more) lc') : lc.KeptBy lc' := by
  have hentered : ∀ s t, lc.enteredAtState s = some t → lc'.enteredAtState s = some t := by
    intro s t ht
    exact (h'.stateEnteredAt s t).mpr (List.mem_append_left _ ((h.stateEnteredAt s t).mp ht))
  refine ⟨hentered, fun t ht => ?_, fun t ht => ?_, fun t ht => ?_⟩
  · rw [h'.admittedAt]
    exact hentered _ t (h.admittedAt ▸ ht)
  · exact (h'.firstTokenAt t).mpr (List.mem_append_left _ ((h.firstTokenAt t).mp ht))
  · rw [h'.completedAt]
    exact hentered _ t (h.completedAt ▸ ht)

/-- A terminal state that was entered is the current one. -/
theorem Recorded.terminal_unique {past : List (Milestone × TimePoint)} (h : Recorded past lc)
    {s : RequestState} {t : TimePoint} (hmem : (.entered s, t) ∈ past) (hs : s.isTerminal = true) :
    lc.state = s := by
  have hle := (h.entered s t hmem).2
  rcases h.current with hreceived | ⟨t', hcurrent⟩
  · rw [hreceived, rank_of_isTerminal hs] at hle
    exact absurd hle (by decide)
  · have hrank : lc.state.rank = s.rank := by
      refine le_antisymm ?_ hle
      rw [rank_of_isTerminal hs]
      cases lc.state <;> decide
    have hsame := eq_of_key_eq (fun e : Milestone × TimePoint => e.1.rank) h.sorted hcurrent hmem
      (congrArg (2 * ·) hrank)
    cases hsame
    rfl

/-- **The history of a lifecycle is consistent.** For every sequence of calls that does not abort, on a
clock that does not go back: every state is entered once at most and `received` never; a slot that was
written keeps its value; `entered_at` says which states were visited and when, and these times grow
along the path; the two milestones with names of their own agree with it; the first token lies between
`decoding` and the terminal state; and there is one terminal state at most, after which `cancel`
changes nothing and the other calls abort. -/
theorem history_consistent (t₀ : TimePoint) (calls : List (TimedCall ω)) (lc : RequestLifecycle)
    (hrun : run apply (new t₀) calls = .ok lc)
    (hclock : (calls.map fun c => c.reading).Pairwise (· ≤ ·)) :
    let visited := visits ((new t₀).milestones calls)
    (visited.map Prod.fst).Nodup ∧ .received ∉ visited.map Prod.fst ∧
    (∀ front back u, calls = front ++ back → run apply (new t₀) front = .ok u → u.KeptBy lc) ∧
    (∀ s t, lc.enteredAtState s = some t ↔ (s, t) ∈ visited) ∧
    (visited.map Prod.snd).Pairwise (· ≤ ·) ∧
    lc.admittedAt = lc.enteredAtState .admitted ∧
    lc.completedAt = lc.enteredAtState .completed ∧
    (∀ t, lc.firstTokenAt = some t →
      (∃ opened, lc.enteredAtState .decoding = some opened ∧ opened ≤ t) ∧
      ∀ s ended, s.isTerminal = true → lc.enteredAtState s = some ended → t ≤ ended) ∧
    (∀ s ∈ visited.map Prod.fst, s.isTerminal = true → lc.state = s ∧
      ∀ w : ω, lc.cancel w = .ok (lc, w) ∧
        (∀ target, lc.transitionTo target w = .error .illegalTransition) ∧
        lc.recordFirstToken w = .error .firstTokenOutsideDecoding) := by
  have hdone := (Recorded.new t₀).run hrun
  rw [List.nil_append] at hdone
  have htimes := milestones_sorted (new t₀) hclock
  have hordered : ∀ {a b : Milestone × TimePoint}, a ∈ (new t₀).milestones calls →
      b ∈ (new t₀).milestones calls → a.1.rank < b.1.rank → a.2 ≤ b.2 := fun ha hb hlt =>
    le_of_key_lt (fun e : Milestone × TimePoint => e.1.rank) hdone.sorted htimes ha hb hlt
  refine ⟨?_, ?_, ?_, fun s t => (hdone.stateEnteredAt s t).trans mem_visits.symm, ?_,
    hdone.admittedAt, hdone.completedAt, ?_, ?_⟩
  · refine List.pairwise_map.mpr (pairwise_visits hdone.sorted fun s t s' t' hlt heq => ?_)
    change s = s' at heq
    exact absurd hlt (heq ▸ lt_irrefl _)
  · intro hmem
    obtain ⟨⟨s, t⟩, hmem, rfl⟩ := List.mem_map.mp hmem
    exact absurd (hdone.entered _ t (mem_visits.mp hmem)).1 (by decide)
  · rintro front back u rfl hfront
    have hu := (Recorded.new t₀).run hfront
    rw [run_append, hfront] at hrun
    exact hu.keptBy (hu.run hrun)
  · exact List.pairwise_map.mpr (pairwise_visits htimes fun _ _ _ _ hle => hle)
  · intro t ht
    have hmem := (hdone.firstTokenAt t).mp ht
    obtain ⟨-, opened, hopened⟩ := hdone.first t hmem
    have hrank : Milestone.rank (.entered .decoding) < Milestone.rank .firstToken := by decide
    refine ⟨⟨opened, (hdone.stateEnteredAt _ _).mpr hopened, hordered hopened hmem hrank⟩, ?_⟩
    intro s ended hs hended
    refine hordered hmem ((hdone.stateEnteredAt _ _).mp hended) ?_
    change 2 * RequestState.decoding.rank + 1 < 2 * s.rank
    rw [rank_of_isTerminal hs]
    decide
  · intro s hmem hs
    obtain ⟨⟨s, t⟩, hvisit, rfl⟩ := List.mem_map.mp hmem
    have hstate := hdone.terminal_unique (mem_visits.mp hvisit) hs
    rw [← hstate] at hs
    refine ⟨hstate, fun w => ⟨if_pos hs, fun target => ?_, if_pos (fun hdecoding => ?_)⟩⟩
    · unfold transitionTo
      rw [isValidTransition_of_isTerminal hs]
      rfl
    · rw [hdecoding] at hs
      cases hs

instance : Clock FakeClock := ⟨fun c => (c.now, c)⟩

/-- A request that decodes from 4 on, has its first token at 6 and is cancelled at 9, twice. -/
def cancelledTwice : List (TimedCall FakeClock) :=
  [⟨.transitionTo .admitted, ⟨1⟩⟩, ⟨.transitionTo .waitingPrefill, ⟨1⟩⟩,
    ⟨.transitionTo .prefilling, ⟨3⟩⟩, ⟨.transitionTo .waitingDecode, ⟨4⟩⟩,
    ⟨.transitionTo .decoding, ⟨4⟩⟩, ⟨.recordFirstToken, ⟨6⟩⟩, ⟨.recordFirstToken, ⟨7⟩⟩,
    ⟨.cancel, ⟨9⟩⟩, ⟨.cancel, ⟨12⟩⟩]

theorem history_consistent_cancelled :
    ∃ lc, run apply (new 0) cancelledTwice = .ok lc ∧ lc.state = .cancelled ∧
      lc.enteredAtState .decoding = some 4 ∧ lc.firstTokenAt = some 6 ∧
      lc.enteredAtState .cancelled = some 9 ∧
      lc.transitionTo .failed (⟨13⟩ : FakeClock) = .error .illegalTransition := by
  obtain ⟨lc, hrun, hview⟩ := exists_of_map_ok (x := run apply (new 0) cancelledTwice)
    (f := fun lc => (lc.state, lc.firstTokenAt)) (b := (.cancelled, some 6)) (by decide +kernel)
  obtain ⟨hstate, hfirst⟩ := Prod.mk.inj hview
  obtain ⟨-, -, -, hentered, -, -, -, -, hterminal⟩ :=
    history_consistent 0 cancelledTwice lc hrun (by decide)
  refine ⟨lc, hrun, hstate, (hentered _ _).mpr (by decide +kernel), hfirst,
    (hentered _ _).mpr (by decide +kernel), ?_⟩
  exact ((hterminal .cancelled (by decide +kernel) rfl).2 ⟨13⟩).2.1 .failed

end RequestLifecycle

end Tokamak
