import Tokamak.EngineLoop

/-! Back-pressure. An entry carries a timer that the pushes of one pass of `push_tokens` set and clear
and that the next `check_backpressure` reads. Beside the run stands the history of its pushes; the
timer of an entry is a function of the pushes of its request, and it runs exactly while a token is
undelivered. Hence `check_backpressure` cancels the requests that are stalled and no others. -/

open Outcome

namespace Tokamak

/-- A `try_push` of `push_tokens`: for which request, when, and what it returned. -/
structure PushAttempt where
  id : RequestId
  time : TimePoint
  accepted : Bool
  deriving DecidableEq, Repr

namespace PushAttempt

/-- The attempts for one request. -/
def ofId (id : RequestId) (attempts : List PushAttempt) : List PushAttempt :=
  attempts.filter fun a => decide (a.id = id)

/-- The attempts since the last one that was accepted. -/
def refusals (attempts : List PushAttempt) : List PushAttempt :=
  attempts.rtakeWhile fun a => !a.accepted

/-- When the first of these was made. -/
def refusedSince (attempts : List PushAttempt) : Option TimePoint :=
  (refusals attempts).head?.map fun a => a.time

/-- An attempt was refused at `bound` or before, and so was every later one. -/
def StalledSince (bound : TimePoint) (attempts : List PushAttempt) : Prop :=
  ∃ before a later, attempts = before ++ a :: later ∧ a.time ≤ bound ∧
    ∀ b ∈ a :: later, b.accepted = false

variable {attempts : List PushAttempt} {a : PushAttempt} {id : RequestId}

theorem ofId_concat_of_eq (h : a.id = id) : ofId id (attempts ++ [a]) = ofId id attempts ++ [a] := by
  simp [ofId, h]

theorem ofId_concat_of_ne (h : a.id ≠ id) : ofId id (attempts ++ [a]) = ofId id attempts := by
  simp [ofId, h]

theorem refusedSince_concat_accepted (h : a.accepted = true) :
    refusedSince (attempts ++ [a]) = none := by
  unfold refusedSince refusals
  rw [List.rtakeWhile_concat_neg _ _ _ (by simp [h])]
  rfl

theorem refusedSince_concat_refused (h : a.accepted = false) :
    refusedSince (attempts ++ [a]) = some ((refusedSince attempts).getD a.time) := by
  unfold refusedSince refusals
  rw [List.rtakeWhile_concat_pos _ _ _ (by simp [h])]
  cases List.rtakeWhile (fun a : PushAttempt => !a.accepted) attempts with
  | nil => rfl
  | cons first rest => rfl

/-- On a clock that does not go back, the first refusal since the last success decides. -/
theorem stalledSince_iff (hsorted : (attempts.map fun a => a.time).Pairwise (· ≤ ·))
    {bound : TimePoint} :
    StalledSince bound attempts ↔ ∃ since, refusedSince attempts = some since ∧ since ≤ bound := by
  have hsplit : attempts.rdropWhile (fun a => !a.accepted) ++ refusals attempts = attempts :=
    List.rdropWhile_append_rtakeWhile
  constructor
  · rintro ⟨before, a, later, rfl, hbound, hrefused⟩
    -- the refusals reach back to `a` at least
    have htail : refusals (before ++ a :: later) = refusals before ++ a :: later := by
      unfold refusals List.rtakeWhile
      rw [List.reverse_append, List.takeWhile_append_of_pos, List.reverse_append,
        List.reverse_reverse]
      intro b hb
      rw [hrefused b (List.mem_reverse.mp hb)]
      rfl
    unfold refusedSince
    rw [htail]
    cases hfirst : refusals before with
    | nil => exact ⟨a.time, rfl, hbound⟩
    | cons first rest =>
        have hmem : first ∈ before :=
          (List.rtakeWhile_suffix _ _).subset (show first ∈ refusals before by simp [hfirst])
        rw [List.map_append, List.pairwise_append] at hsorted
        exact ⟨first.time, rfl, (hsorted.2.2 _ (List.mem_map_of_mem hmem) _
          (List.mem_map_of_mem List.mem_cons_self)).trans hbound⟩
  · rintro ⟨since, hsince, hbound⟩
    unfold refusedSince at hsince
    cases hfirst : refusals attempts with
    | nil =>
        rw [hfirst] at hsince
        cases hsince
    | cons first rest =>
        rw [hfirst] at hsince hsplit
        cases hsince
        refine ⟨_, first, rest, hsplit.symm, hbound, fun b hb => ?_⟩
        have hrefused := List.mem_rtakeWhile_imp (hfirst ▸ hb)
        simpa using hrefused

end PushAttempt

open PushAttempt (ofId refusedSince StalledSince)

/-- The ids `push_tokens` has still to deal with. -/
def EnginePc.pushBatch : EnginePc → List RequestId
  | .pushTokens todo => todo
  | .pushing id todo => id :: todo
  | _ => []

/-- The ids `check_backpressure` has still to cancel. -/
def EnginePc.expelBatch : EnginePc → List RequestId
  | .expelling toCancel => toCancel
  | _ => []

theorem Request.Ticked.emitted_le {q q' : Request} (h : Ticked q q') :
    q.outputTokensEmitted ≤ q'.outputTokensEmitted := by
  cases h with
  | frozen => exact le_rfl
  | advanced _ hadvanced =>
      cases hadvanced with
      | failed _ htokens => exact htokens.outputTokensEmitted.ge
      | emitted _ _ _ _ _ hcount => exact hcount ▸ Nat.le_succ _

theorem FifoScheduler.CancelledById.emitted {ω : Type} {s t : FifoScheduler ω} {id : RequestId}
    (h : CancelledById s id t) (p : RequestPtr) :
    (t.request p).outputTokensEmitted = (s.request p).outputTokensEmitted := by
  rcases h.request p with heq | ⟨-, -, τ, heq⟩
  · rw [heq]
  · rw [heq]
    rfl

/-- The engine thread is in the cancelling loop of `check_backpressure`. -/
def EnginePc.isExpelling : EnginePc → Bool
  | .expelling _ => true
  | _ => false

namespace Engine

variable {ω : Type}

/-- A token of the entry's request is not delivered yet. -/
def Behind (g : Engine ω) (e : ActiveEntry) : Prop :=
  e.lastSeenTokens < (g.scheduler.request e.request).outputTokensEmitted

section Attempts

variable [Environment ω]

/-- What the steady clock reads in a step. -/
def steadyTimes : EngineAction ω → List TimePoint
  | .engine _ steadyNow => [steadyNow]
  | _ => []

/-- The `try_push` of a step, if it makes one. -/
def attempted (g : Engine ω) : EngineAction ω → List PushAttempt
  | .engine _ steadyNow =>
      match g.pc with
      | .pushing id _ =>
          match g.active.find id with
          | none => []
          | some e =>
              if (g.scheduler.request e.request).outputTokensEmitted ≤ e.lastSeenTokens then []
              else [⟨id, steadyNow, !(g.channels e.channel).refuses⟩]
      | _ => []
  | _ => []

theorem attempted_sublist (g : Engine ω) (a : EngineAction ω) :
    ((g.attempted a).map fun a => a.time).Sublist (steadyTimes a) := by
  unfold attempted
  cases a with
  | engine choice steadyNow =>
      simp only
      split
      · split
        · exact List.nil_sublist _
        · split_ifs
          · exact List.nil_sublist _
          · exact List.Sublist.refl _
      · exact List.nil_sublist _
  | _ => exact List.Sublist.refl _

variable [Clock ω] [InferenceBackend ω]

/-- The attempts of a run, in their order. -/
def attempts (g : Engine ω) (actions : List (EngineAction ω)) : List PushAttempt :=
  history Engine.step attempted g actions

/-- The attempts for a request are in the order of their times. -/
theorem attempts_sorted (g : Engine ω) {actions : List (EngineAction ω)}
    (hclock : (actions.flatMap steadyTimes).Pairwise (· ≤ ·)) (id : RequestId) :
    ((ofId id (g.attempts actions)).map fun a => a.time).Pairwise (· ≤ ·) := by
  have htimes : ((g.attempts actions).map fun a => a.time).Sublist (actions.flatMap steadyTimes) :=
    history_sublist (fun a : PushAttempt => a.time) steadyTimes attempted_sublist g actions
  exact hclock.sublist ((List.filter_sublist.map _).trans htimes)

end Attempts

/-! ### The timers -/

/-- The timers are right about the attempts so far, and they run where tokens are undelivered. -/
structure Timed (past : List PushAttempt) (g : Engine ω) : Prop where
  since : ∀ id e, g.active.find id = some e → e.backpressureSince = refusedSince (ofId id past)
  owner : ∀ a ∈ past, ∃ i sub, i < g.owned ∧ g.accepted[i]? = some sub ∧ sub.id = a.id
  behind : ∀ id e, g.active.find id = some e → e.backpressureSince.isSome = true → g.Behind e
  waiting : ∀ id e, g.active.find id = some e → id ∉ g.pc.pushBatch → g.Behind e →
    e.backpressureSince.isSome = true

namespace Timed

variable {past : List PushAttempt} {g g' : Engine ω}

theorem new (w : ω) (timeout : Duration) (channels : ChannelPtr → TokenChannel) :
    Timed [] (Engine.new w timeout channels) where
  since id e h := by simp [Engine.new] at h
  owner a ha := by cases ha
  behind id e h := by simp [Engine.new] at h
  waiting id e h := by simp [Engine.new] at h

theorem owner_of_frame (h : Timed past g) (hg : Books g) (hframe : Frame g g') :
    ∀ a ∈ past, ∃ i sub, i < g'.owned ∧ g'.accepted[i]? = some sub ∧ sub.id = a.id := by
  intro a ha
  obtain ⟨i, sub, hi, hsub, hid⟩ := h.owner a ha
  refine ⟨i, sub, lt_of_lt_of_le hi hframe.owned, ?_, hid⟩
  rw [getElem?_of_isPrefix hframe.accepted (lt_of_lt_of_le hi hg.owned_le)]
  exact hsub

/-- Steps that may drop entries, and touch neither those they keep nor what these have emitted. -/
theorem of_kept (h : Timed past g) (hg : Books g) (hframe : Frame g g')
    (hkept : ∀ id e, g'.active.find id = some e → g.active.find id = some e ∧
      (g'.scheduler.request e.request).outputTokensEmitted =
        (g.scheduler.request e.request).outputTokensEmitted)
    (hbatch : ∀ id ∈ g.pc.pushBatch, id ∈ g'.pc.pushBatch) : Timed past g' where
  since id e he := h.since id e (hkept id e he).1
  owner := h.owner_of_frame hg hframe
  behind id e he hset := by
    obtain ⟨hfind, hemitted⟩ := hkept id e he
    unfold Behind
    rw [hemitted]
    exact h.behind id e hfind hset
  waiting id e he hid hbehind := by
    obtain ⟨hfind, hemitted⟩ := hkept id e he
    unfold Behind at hbehind
    rw [hemitted] at hbehind
    exact h.waiting id e hfind (fun hmem => hid (hbatch id hmem)) hbehind

theorem outside (h : Timed past g) (hg : Books g) (hframe : Frame g g') (hstep : Outside g g') :
    Timed past g' := by
  obtain ⟨w, hscheduler⟩ := hstep.world
  refine h.of_kept hg hframe (fun id e he => ?_) (fun id hid => ?_)
  · rw [hstep.active] at he
    rw [hscheduler]
    exact ⟨he, rfl⟩
  · rw [hstep.pc_same hg.thread (f := EnginePc.pushBatch) rfl]
    exact hid

/-- A request that is admitted has neither emitted nor attempted anything. -/
theorem admitted (h : Timed past g) (hg : Books g) (hids : g.DistinctIds) {sub : Submission}
    {rest : List Submission} {q : Request} {w : ω} (hpc : g.pc = .admitting (sub :: rest))
    (hq : sub.Queued q) {pc : EnginePc} (hframe : Frame g { g with
      scheduler := g.scheduler.admitted q w
      active := g.active.emplace sub.id ⟨g.owned, sub.channel, 0, none⟩
      pc := pc }) :
    Timed past { g with
      scheduler := g.scheduler.admitted q w
      active := g.active.emplace sub.id ⟨g.owned, sub.channel, 0, none⟩
      pc := pc } := by
  have hnext := hg.next_accepted hpc
  have hfree : sub.id ∉ g.active := hg.admitSafe hids sub rest hpc
  have hunused : ofId sub.id past = [] := by
    refine List.filter_eq_nil_iff.mpr (fun a ha hid => ?_)
    obtain ⟨i, sub', hi, hsub', hid'⟩ := h.owner a ha
    exact (Nat.ne_of_lt hi) (hids.index_eq hsub' hnext (hid'.trans (of_decide_eq_true hid)))
  -- an entry is the new one, or an old one whose request is as it was
  have hcases : ∀ id e,
      FinMap.find (g.active.emplace sub.id ⟨g.owned, sub.channel, 0, none⟩) id = some e →
      (id = sub.id ∧ e = ⟨g.owned, sub.channel, 0, none⟩) ∨ (g.active.find id = some e ∧
        (g.scheduler.admitted q w).request e.request = g.scheduler.request e.request) := by
    intro id e he
    rw [FinMap.emplace_of_notMem hfree, FinMap.find_insert] at he
    split_ifs at he with hid
    · exact .inl ⟨hid, (Option.some.inj he).symm⟩
    · exact .inr ⟨he, FifoScheduler.request_admitted_of_lt g.scheduler q w (hg.entry id e he).1⟩
  refine ⟨fun id e he => ?_, h.owner_of_frame hg hframe, fun id e he hset => ?_,
    fun id e he _ hbehind => ?_⟩
  · rcases hcases id e he with ⟨rfl, rfl⟩ | ⟨hfind, -⟩
    · rw [hunused]
      rfl
    · exact h.since id e hfind
  · rcases hcases id e he with ⟨rfl, rfl⟩ | ⟨hfind, hrequest⟩
    · cases hset
    · unfold Behind
      rw [show (g.scheduler.admitted q w).request e.request = _ from hrequest]
      exact h.behind id e hfind hset
  · rcases hcases id e he with ⟨rfl, rfl⟩ | ⟨hfind, hrequest⟩
    · unfold Behind at hbehind
      rw [show (g.scheduler.admitted q w).request g.owned = q from
        FifoScheduler.request_admitted_self g.scheduler q w, hq.outputTokensEmitted] at hbehind
      cases hbehind
    · unfold Behind at hbehind
      rw [show (g.scheduler.admitted q w).request e.request = _ from hrequest] at hbehind
      exact h.waiting id e hfind (by rw [hpc]; exact List.not_mem_nil) hbehind

/-- One attempt: an accepted one clears the timer, a refused one starts it or leaves it running. -/
theorem pushEvent (h : Timed past g) (hg : Books g) {id : RequestId} {todo : List RequestId}
    {e : ActiveEntry} {event : TokenEvent} {steadyNow : TimePoint} (hpc : g.pc = .pushing id todo)
    (he : g.active.find id = some e) (hbehind : g.Behind e)
    (hframe : Frame g (g.pushEvent id e event todo steadyNow)) :
    Timed (past ++ [⟨id, steadyNow, !(g.channels e.channel).refuses⟩])
      (g.pushEvent id e event todo steadyNow) := by
  have hfind : ∀ a, (g.pushEvent id e event todo steadyNow).active.find a = if a = id then
      some (if (g.channels e.channel).refuses = true then e.blocked steadyNow else e.sent)
      else g.active.find a := by
    intro a
    rw [pushEvent_active]
    exact FinMap.find_replace (FinMap.mem_of_find he) a _
  have hscheduler := pushEvent_scheduler g id e event todo steadyNow
  have hown : ofId id (past ++ [⟨id, steadyNow, !(g.channels e.channel).refuses⟩]) =
      ofId id past ++ [⟨id, steadyNow, !(g.channels e.channel).refuses⟩] :=
    PushAttempt.ofId_concat_of_eq rfl
  refine ⟨fun a e' he' => ?_, fun a ha => ?_, fun a e' he' hset => ?_, fun a e' he' hid hb => ?_⟩
  · rw [hfind] at he'
    split_ifs at he' with ha hrefuses
    · subst ha
      cases he'
      rw [hown, PushAttempt.refusedSince_concat_refused (by simp [hrefuses]), ← h.since a e he]
      rfl
    · subst ha
      cases he'
      rw [hown, PushAttempt.refusedSince_concat_accepted (by simp [hrefuses])]
      rfl
    · rw [PushAttempt.ofId_concat_of_ne (fun heq => ha heq.symm)]
      exact h.since a e' he'
  · rcases List.mem_append.mp ha with ha | ha
    · exact h.owner_of_frame hg hframe a ha
    · obtain ⟨hlt, hkey, sub, hsub, -⟩ := hg.entry id e he
      rw [List.mem_singleton.mp ha]
      refine ⟨e.request, sub, lt_of_lt_of_le hlt hframe.owned, ?_, ?_⟩
      · rw [getElem?_of_isPrefix hframe.accepted (lt_of_lt_of_le hlt hg.owned_le)]
        exact hsub
      · exact (hg.requestId _ _ hlt hsub).symm.trans hkey
  · unfold Behind
    rw [hscheduler]
    rw [hfind] at he'
    split_ifs at he' with ha hrefuses
    · cases he'
      exact hbehind
    · cases he'
      cases hset
    · exact h.behind a e' he' hset
  · unfold Behind at hb
    rw [hscheduler] at hb
    rw [pushEvent_pc] at hid
    rw [hfind] at he'
    split_ifs at he' hid with ha hrefuses hrefuses
    · cases he'
      rfl
    · -- the loop goes on with this entry
      rw [hpc, ha] at hid
      exact absurd List.mem_cons_self hid
    · refine h.waiting a e' he' (fun hmem => ?_) hb
      rw [hpc] at hmem
      exact (List.mem_cons.mp hmem).elim ha hid
    · exact h.waiting a e' he' hid hb

/-- One turn of the push loop. -/
theorem pushToken [Environment ω] (h : Timed past g) (hg : Books g) {id : RequestId} {todo : List RequestId}
    {steadyNow : TimePoint} (hpc : g.pc = .pushing id todo) (hframe : Frame g g')
    (hturn : g.pushToken id todo steadyNow = .ok g') (choice : Nat) :
    Timed (past ++ g.attempted (.engine choice steadyNow)) g' := by
  rcases pushToken_ok hturn with ⟨rfl, hseen⟩ | ⟨e, tokenId, he, hunseen, htoken, rfl⟩
  · have hnone : g.attempted (.engine choice steadyNow) = [] := by
      simp only [attempted, hpc]
      cases he : g.active.find id with
      | none => rfl
      | some e => exact if_pos (hseen e he)
    rw [hnone, List.append_nil]
    refine ⟨h.since, h.owner, h.behind, fun a e he hid hbehind => ?_⟩
    by_cases ha : a = id
    · subst ha
      exact absurd hbehind (not_lt.mpr (hseen e he))
    · refine h.waiting a e he (fun hmem => ?_) hbehind
      rw [hpc] at hmem
      exact (List.mem_cons.mp hmem).elim ha hid
  · have hone : g.attempted (.engine choice steadyNow) =
        [⟨id, steadyNow, !(g.channels e.channel).refuses⟩] := by
      simp only [attempted, hpc, he]
      exact if_neg (not_le.mpr hunseen)
    rw [hone]
    exact h.pushEvent hg hpc he hunseen hframe

section Moves

variable [Clock ω] [InferenceBackend ω]

/-- The moves of the engine thread that push nothing. -/
theorem move [AlignedBackend ω] (h : Timed past g) (hg : Books g) (hids : g.DistinctIds)
    (hframe : Frame g g') (hmove : Move g g') (hpush : ∀ id todo, g.pc ≠ .pushing id todo)
    (hbatch : ∀ id ∈ g.pc.pushBatch, id ∈ g'.pc.pushBatch) : Timed past g' := by
  have herased : ∀ (id a : RequestId) (e : ActiveEntry),
      FinMap.find (g.active.erase id) a = some e → g.active.find a = some e := by
    intro id a e he
    rw [FinMap.find_erase] at he
    split_ifs at he
    exact he
  cases hmove with
  | idle => exact h
  | admission hpc hq => exact h.admitted hg hids hpc hq hframe
  | @tick done hpc htick =>
      obtain ⟨-, -, -, hticked⟩ := (FifoScheduler.tick_evolves hg.partition).ok htick
      refine ⟨h.since, h.owner_of_frame hg hframe, fun id e he hset => ?_, fun id e he hid => ?_⟩
      · exact lt_of_lt_of_le (h.behind id e he hset) (hticked _ (hg.entry id e he).1).emitted_le
      · -- every entry is visited after a tick
        exact absurd (AList.mem_keys.mp (FinMap.mem_of_find he)) hid
  | push steadyNow hpc => exact absurd hpc (hpush _ _)
  | cancelInactive hpc hcancel =>
      have ht := FifoScheduler.cancel_cancelled hg.partition hcancel
      exact h.of_kept hg hframe (fun id e he => ⟨he, ht.emitted _⟩) hbatch
  | cancelActive hpc hcancel =>
      have ht := FifoScheduler.cancel_cancelled hg.partition hcancel
      exact h.of_kept hg hframe (fun id e he => ⟨herased _ id e he, ht.emitted _⟩) hbatch
  | expel hpc hid hcancel =>
      have ht := FifoScheduler.cancel_cancelled hg.partition hcancel
      exact h.of_kept hg hframe (fun id e he => ⟨herased _ id e he, ht.emitted _⟩) hbatch
  | reap => exact h.of_kept hg hframe (fun id e he => ⟨herased _ id e he, rfl⟩) hbatch
  | _ => exact h.of_kept hg hframe (fun id e he => ⟨he, rfl⟩) hbatch

/-- Between the turns the loop keeps every id it has not visited. -/
theorem engineStep_pushBatch {choice : Nat} {steadyNow : TimePoint}
    (hstep : g.engineStep choice steadyNow = .ok g') (hpush : ∀ id todo, g.pc ≠ .pushing id todo) :
    ∀ id ∈ g.pc.pushBatch, id ∈ g'.pc.pushBatch := by
  intro id hid
  cases hpc : g.pc with
  | pushTokens todo =>
      unfold Engine.engineStep at hstep
      rw [hpc] at hid hstep
      simp only at hstep
      split at hstep
      · rename_i hpick
        rw [eq_nil_of_pick hpick] at hid
        cases hid
      · rename_i next hpick
        cases hstep
        by_cases heq : id = next
        · rw [heq]
          exact List.mem_cons_self
        · exact List.mem_cons_of_mem _ ((List.mem_erase_of_ne heq).mpr hid)
  | pushing a todo => exact absurd hpc (hpush a todo)
  | _ =>
      rw [hpc] at hid
      cases hid

variable [Environment ω]

theorem step [AlignedBackend ω] (h : Timed past g) (hg : Books g) (hids : g.DistinctIds)
    (hframe : Frame g g') {a : EngineAction ω} (hstep : g.step a = .ok g') :
    Timed (past ++ g.attempted a) g' := by
  cases a with
  | engine choice steadyNow =>
      by_cases hpush : ∃ id todo, g.pc = .pushing id todo
      · obtain ⟨id, todo, hpc⟩ := hpush
        have hturn : g.engineStep choice steadyNow = .ok g' := hstep
        unfold Engine.engineStep at hturn
        rw [hpc] at hturn
        exact h.pushToken hg hpc hframe hturn choice
      · have hother : ∀ id todo, g.pc ≠ .pushing id todo := fun id todo hpc => hpush ⟨id, todo, hpc⟩
        have hnone : g.attempted (.engine choice steadyNow) = [] := by simp only [attempted]
        rw [hnone, List.append_nil]
        exact h.move hg hids hframe (engineStep_move hstep) hother
          (engineStep_pushBatch hstep hother)
  | _ =>
      change Timed (past ++ []) g'
      rw [List.append_nil]
      rcases step_cases hstep with houtside | ⟨choice, steadyNow, heq, -⟩
      · exact h.outside hg hframe houtside
      · cases heq

end Moves

end Timed

/-! ### The check -/

/-- What `check_backpressure` does to a request it cancels; the tick may have finished it before. -/
structure Expelled (g g' : Engine ω) (id : RequestId) (e : ActiveEntry) : Prop where
  gone : g'.active.find id = none
  closed : (g'.channels e.channel).closed = true
  cancelled : (g.scheduler.state e.request).isTerminal = false →
    g'.scheduler.state e.request = .cancelled
  settled : (g.scheduler.state e.request).isTerminal = true →
    g'.scheduler.request e.request = g.scheduler.request e.request

/-- What it does to all others. -/
structure Spared (g g' : Engine ω) (id : RequestId) (e : ActiveEntry) : Prop where
  kept : g'.active.find id = some e
  request : g'.scheduler.request e.request = g.scheduler.request e.request

theorem Expelled.terminal {g g' : Engine ω} {id : RequestId} {e : ActiveEntry}
    (h : Expelled g g' id e) : (g'.scheduler.state e.request).isTerminal = true := by
  cases hterminal : (g.scheduler.state e.request).isTerminal with
  | false =>
      rw [h.cancelled hterminal]
      rfl
  | true =>
      rw [FifoScheduler.state, h.settled hterminal]
      exact hterminal

/-- The entries whose timer has run out. -/
theorem mem_select_isOverdue {past : List PushAttempt} {g : Engine ω} (h : Timed past g)
    {id : RequestId} {e : ActiveEntry} (he : g.active.find id = some e)
    (hsorted : ((ofId id past).map fun a => a.time).Pairwise (· ≤ ·)) (now : TimePoint) :
    id ∈ g.select (g.isOverdue now) ↔
      g.Behind e ∧ StalledSince (now - g.backpressureTimeout) (ofId id past) := by
  have hselect : id ∈ g.select (g.isOverdue now) ↔ g.isOverdue now e = true := by
    unfold select
    rw [List.mem_filter, he]
    exact and_iff_right (AList.mem_keys.mp (FinMap.mem_of_find he))
  rw [hselect, PushAttempt.stalledSince_iff hsorted, ← h.since id e he]
  unfold isOverdue
  cases hsince : e.backpressureSince with
  | none => simp
  | some since =>
      have hbehind := h.behind id e he (by rw [hsince]; rfl)
      simp only [decide_eq_true_eq, Option.some.injEq, exists_eq_left', hbehind, true_and]
      exact le_sub_comm

/-- How far the cancelling loop of a check of `g` has come. -/
structure Expelling (g : Engine ω) (toCancel : List RequestId) (s : Engine ω) : Prop where
  books : Books s
  nodup : s.pc.expelBatch.Nodup
  subset : ∀ id ∈ s.pc.expelBatch, id ∈ toCancel
  expelled : ∀ id e, g.active.find id = some e → id ∈ toCancel → id ∉ s.pc.expelBatch →
    Expelled g s id e
  spared : ∀ id e, g.active.find id = some e → (id ∈ toCancel → id ∈ s.pc.expelBatch) →
    Spared g s id e

namespace Expelling

variable {g s s' : Engine ω} {toCancel : List RequestId}

/-- Steps that touch neither the requests nor the entries nor the rest of the batch. -/
theorem of_eq (h : Expelling g toCancel s) (hbooks : Books s')
    (hrequest : ∀ p, s'.scheduler.request p = s.scheduler.request p) (hactive : s'.active = s.active)
    (hclosed : ∀ c, (s.channels c).closed = true → (s'.channels c).closed = true)
    (hbatch : s'.pc.expelBatch = s.pc.expelBatch) : Expelling g toCancel s' := by
  refine ⟨hbooks, ?_, ?_, fun id e he hid hdone => ?_, fun id e he hid => ?_⟩
  · rw [hbatch]
    exact h.nodup
  · rw [hbatch]
    exact h.subset
  · rw [hbatch] at hdone
    have hexpelled := h.expelled id e he hid hdone
    refine ⟨?_, hclosed _ hexpelled.closed, fun hlive => ?_, fun hterminal => ?_⟩
    · rw [hactive]
      exact hexpelled.gone
    · rw [FifoScheduler.state, hrequest]
      exact hexpelled.cancelled hlive
    · rw [hrequest]
      exact hexpelled.settled hterminal
  · rw [hbatch] at hid
    have hspared := h.spared id e he hid
    refine ⟨?_, ?_⟩
    · rw [hactive]
      exact hspared.kept
    · rw [hrequest]
      exact hspared.request

section Expel

variable [Clock ω] [InferenceBackend ω]

/-- One id is cancelled: its entry goes, the others stay. -/
theorem expel (h : Expelling g toCancel s) {id : RequestId} {todo : List RequestId}
    {e : ActiveEntry} {t : FifoScheduler ω} (hpc : s.pc = .expelling todo) (hid : id ∈ todo)
    (hcancel : s.scheduler.cancel id = .ok t) (he : s.active.find id = some e)
    (hbooks : Books { ({ s with scheduler := t }.closeEntry id e .backpressure) with
      pc := .expelling (todo.erase id) }) :
    Expelling g toCancel { ({ s with scheduler := t }.closeEntry id e .backpressure) with
      pc := .expelling (todo.erase id) } := by
  have hnodup := h.nodup
  have hsubset := h.subset
  have hexpelled := h.expelled
  have hspared := h.spared
  rw [hpc] at hnodup hsubset hexpelled hspared
  have ht := FifoScheduler.cancel_cancelled h.books.partition hcancel
  refine ⟨hbooks, hnodup.erase id, fun a ha => hsubset a (List.mem_of_mem_erase ha),
    fun a e' he' ha hdone => ?_, fun a e' he' ha => ?_⟩
  · by_cases heq : a = id
    · -- the entry that goes here was spared so far
      subst heq
      have hsame := hspared a e' he' (fun _ => hid)
      have hfound := hsame.kept
      rw [he] at hfound
      cases hfound
      refine ⟨?_, ?_, fun hlive => ?_, fun hterminal => ?_⟩
      · change FinMap.find (s.active.erase a) a = none
        rw [FinMap.find_erase, if_pos rfl]
      · simp [closeEntry]
      · have hdead := h.books.terminal_of_cancel he hcancel
        rcases ht.request e.request with hkept | ⟨-, -, τ, hkept⟩
        · rw [FifoScheduler.state, hkept, hsame.request] at hdead
          rw [FifoScheduler.state, hdead] at hlive
          cases hlive
        · change (t.request e.request).state = .cancelled
          rw [hkept]
          rfl
      · rcases ht.request e.request with hkept | ⟨hlive, -⟩
        · exact hkept.trans hsame.request
        · have hlive := ((h.books.partition.live_iff _).mp hlive).2
          rw [FifoScheduler.state, hsame.request] at hlive
          rw [FifoScheduler.state, hlive] at hterminal
          cases hterminal
    · have hgone := hexpelled a e' he' ha
        (fun hmem => hdone ((List.mem_erase_of_ne heq).mpr hmem))
      have hkept : t.request e'.request = s.scheduler.request e'.request := by
        rcases ht.request e'.request with hkept | ⟨hlive, -⟩
        · exact hkept
        · have hlive := ((h.books.partition.live_iff _).mp hlive).2
          rw [hgone.terminal] at hlive
          cases hlive
      refine ⟨?_, ?_, fun hlive => ?_, fun hterminal => hkept.trans (hgone.settled hterminal)⟩
      · change FinMap.find (s.active.erase id) a = none
        rw [FinMap.find_erase, if_neg heq]
        exact hgone.gone
      · simp only [closeEntry, Function.update_apply]
        split_ifs
        · rfl
        · exact hgone.closed
      · change (t.request e'.request).state = .cancelled
        rw [hkept]
        exact hgone.cancelled hlive
  · have hne : a ≠ id := by
      rintro rfl
      exact hnodup.not_mem_erase (ha (hsubset a hid))
    have hsame := hspared a e' he' (fun hmem => List.mem_of_mem_erase (ha hmem))
    refine ⟨?_, ?_⟩
    · change FinMap.find (s.active.erase id) a = some e'
      rw [FinMap.find_erase, if_neg hne]
      exact hsame.kept
    · rcases ht.request e'.request with hkept | ⟨-, hkey, -⟩
      · exact hkept.trans hsame.request
      · -- the cancelled request has another id
        exact absurd ((h.books.entry a e' hsame.kept).2.1.symm.trans hkey) hne

variable [Environment ω] [AlignedBackend ω]

/-- A step taken in the loop, by whichever party. -/
theorem step (h : Expelling g toCancel s) (hpc : s.pc.isExpelling = true) {a : EngineAction ω}
    (hstep : s.step a = .ok s') : Expelling g toCancel s' := by
  cases hloop : s.pc with
  | expelling todo =>
      have hsafe : AdmitSafe s := by
        intro sub rest hadmit
        rw [hloop] at hadmit
        cases hadmit
      have hbooks := (h.books.step hsafe hstep).1
      cases a with
      | engine choice steadyNow =>
          have hturn : s.engineStep choice steadyNow = .ok s' := hstep
          unfold Engine.engineStep at hturn
          rw [hloop] at hturn
          simp only at hturn
          split at hturn
          · rename_i hpick
            cases hturn
            refine h.of_eq hbooks (fun _ => rfl) rfl (fun _ hc => hc) ?_
            rw [hloop, eq_nil_of_pick hpick]
            rfl
          · rename_i id hpick
            obtain ⟨u, hu, hturn⟩ := bind_eq_ok.mp hturn
            obtain ⟨e, t, hcancel, he, rfl⟩ := expel_ok hu
            cases hturn
            exact h.expel hloop (mem_of_pick hpick) hcancel he hbooks
      | _ =>
          rcases step_cases hstep with houtside | ⟨choice, steadyNow, heq, -⟩
          · obtain ⟨w, hscheduler⟩ := houtside.world
            refine h.of_eq hbooks (fun p => ?_) houtside.active houtside.closed
              (houtside.pc_same h.books.thread (f := EnginePc.expelBatch) rfl)
            rw [hscheduler]
            rfl
          · cases heq
  | _ =>
      rw [hloop] at hpc
      cases hpc

theorem run (h : Expelling g toCancel s) {actions : List (EngineAction ω)}
    (hloop : Guarded Engine.step (fun s _ => s.pc.isExpelling = true) s actions)
    (hrun : Outcome.run Engine.step s actions = .ok s') : Expelling g toCancel s' := by
  have hall : Ensures (Outcome.run Engine.step s actions) (fun _ => True) (Expelling g toCancel) := by
    refine run_ensures_guarded (fun u a hu hpc => ?_) s h actions hloop
    exact ensures_iff.mpr ⟨fun u' hstep => hu.step hpc hstep, fun _ _ => trivial⟩
  exact hall.ok hrun

end Expel

/-- Where the loop starts everything is as it was checked. -/
theorem start (hbooks : Books { g with pc := .expelling toCancel })
    (hnodup : toCancel.Nodup) : Expelling g toCancel { g with pc := .expelling toCancel } where
  books := hbooks
  nodup := hnodup
  subset _ hid := hid
  expelled _ _ _ hid hdone := absurd hid hdone
  spared _ _ he _ := ⟨he, rfl⟩

end Expelling

/-! ### Runs -/

section Runs

variable [Clock ω] [InferenceBackend ω] {g g' : Engine ω}

theorem Move.backpressureTimeout (h : Move g g') :
    g'.backpressureTimeout = g.backpressureTimeout := by
  cases h with
  | push =>
      unfold pushEvent
      simp only
      split_ifs <;> rfl
  | _ => rfl

variable [Environment ω]

/-- The configuration is never written. -/
theorem step_backpressureTimeout {a : EngineAction ω} (h : g.step a = .ok g') :
    g'.backpressureTimeout = g.backpressureTimeout := by
  unfold step at h
  cases a with
  | start =>
      simp only at h
      split_ifs at h
      · cases h
        rfl
      · cases h
        rfl
  | stop =>
      cases h
      split_ifs <;> rfl
  | join =>
      cases h
      split_ifs <;> rfl
  | submit sub =>
      cases h
      split_ifs <;> rfl
  | push k =>
      simp only at h
      split at h
      · cases h
        rfl
      · cases h
        rfl
  | cancel id =>
      cases h
      rfl
  | pop channel =>
      simp only at h
      split at h
      · cases h
        rfl
      · cases h
        rfl
  | close channel =>
      cases h
      rfl
  | event e =>
      obtain ⟨w, -, h⟩ := bind_eq_ok.mp h
      cases h
      rfl
  | engine choice steadyNow => exact (engineStep_move h).backpressureTimeout

/-- **Back-pressure cancels the stalled requests and no others.** In every run with distinct ids on a
steady clock that does not go back: outside of `push_tokens` the timer of an entry runs if and only if
a token is undelivered, and it always shows the first refused push since the last accepted one. A
check that starts at `now` and runs to its end, whatever the other parties do meanwhile, cancels a
request if and only if a token of it is undelivered and all pushes were refused since one at
`now - backpressure_timeout` or before. -/
theorem backpressure_exact [AlignedBackend ω] (w : ω) (timeout : Duration)
    (channels : ChannelPtr → TokenChannel) (actions : List (EngineAction ω)) (g : Engine ω)
    (hrun : run step (new w timeout channels) actions = .ok g) (hids : g.DistinctIds)
    (hclock : (actions.flatMap steadyTimes).Pairwise (· ≤ ·)) :
    (∀ id e, g.active.find id = some e →
      (id ∉ g.pc.pushBatch → (e.backpressureSince.isSome = true ↔ g.Behind e)) ∧
      e.backpressureSince =
        refusedSince (ofId id (attempts (new w timeout channels) actions))) ∧
    (g.pc = .checkBackpressure → ∀ choice now checked rest g',
      g.step (.engine choice now) = .ok checked → run step checked rest = .ok g' →
      Guarded step (fun s _ => s.pc.isExpelling = true) checked rest → g'.pc = .reapTerminal →
      ∀ id e, g.active.find id = some e →
        ((g.Behind e ∧ StalledSince (now - timeout)
          (ofId id (attempts (new w timeout channels) actions))) → Expelled g g' id e) ∧
        (¬(g.Behind e ∧ StalledSince (now - timeout)
          (ofId id (attempts (new w timeout channels) actions))) → Spared g g' id e)) := by
  obtain ⟨hbooks, htimeout, htimed⟩ := run_distinct_history
    (fun past u => u.backpressureTimeout = timeout ∧ Timed past u)
    (fun _ _ _ _ hu _ hframe hids' hinv hstep => ⟨(step_backpressureTimeout hstep).trans hinv.1,
      hinv.2.step hu (hids'.of_isPrefix hframe.accepted) hframe hstep⟩)
    (Books.new w timeout channels) ⟨rfl, Timed.new w timeout channels⟩ hrun hids
  rw [List.nil_append] at htimed
  refine ⟨fun id e he => ⟨fun hid => ⟨htimed.behind id e he, htimed.waiting id e he hid⟩,
    htimed.since id e he⟩, ?_⟩
  intro hpc choice now checked rest g' hcheck hrest hloop hend id e he
  have hchosen := mem_select_isOverdue htimed he
    (attempts_sorted (new w timeout channels) hclock id) now
  rw [htimeout] at hchosen
  have hchecked : checked = { g with pc := .expelling (g.select (g.isOverdue now)) } := by
    have hturn : g.engineStep choice now = .ok checked := hcheck
    unfold engineStep at hturn
    rw [hpc] at hturn
    cases hturn
    rfl
  have hbooks' := (hbooks.step (hbooks.admitSafe hids) hcheck).1
  subst hchecked
  have hdone := (Expelling.start hbooks' (g.active.keys_nodup.filter _)).run hloop hrest
  have hbatch : g'.pc.expelBatch = [] := by
    rw [hend]
    rfl
  refine ⟨fun hstalled => ?_, fun hstalled => ?_⟩
  · refine hdone.expelled id e he (hchosen.mpr hstalled) ?_
    rw [hbatch]
    exact List.not_mem_nil
  · exact hdone.spared id e he (fun hmem => absurd (hchosen.mp hmem) hstalled)

/-- Steps of the engine thread on a steady clock that goes on by one with each. -/
def timedSteps (n : Nat) : List (EngineAction MockBackend) :=
  (List.range n).map fun (k : Nat) => .engine 0 k

/-- A prompt for four tokens. -/
def fourTokens : Submission := { oneToken with maxTokens := 4 }

/-- The channel holds one token: the second is refused at 24 and at 38, and the check at 40 cancels
the request, though the consumer reads while it does. -/
theorem backpressure_exact_unread :
    ∃ (g g' : Engine MockBackend) (e : ActiveEntry),
      run step (new (.new ⟨0⟩ 1 5) 16 (fun _ => .new 1))
        ([.start, .submit fourTokens, .push 0] ++ timedSteps 40) = .ok g ∧
      run step g [.engine 0 40, .pop 0, .engine 0 41, .engine 0 42] = .ok g' ∧
      g.active.find "a" = some e ∧ g.scheduler.state e.request = .decoding ∧
      Expelled g g' "a" e := by
  obtain ⟨⟨g, checked, g'⟩, hsystem, hview⟩ := exists_of_map_ok
    (x := run step (new (.new ⟨0⟩ 1 5) 16 (fun _ => .new 1))
      ([.start, .submit fourTokens, .push 0] ++ timedSteps 40) >>= fun g =>
        g.step (.engine 0 40) >>= fun checked =>
          run step checked [.pop 0, .engine 0 41, .engine 0 42] >>= fun g' =>
            .ok ((g, checked, g') : Engine MockBackend × Engine MockBackend × Engine MockBackend))
    (f := fun v => decide (v.1.pc = .checkBackpressure ∧ v.1.accepted = [fourTokens] ∧
      v.1.active.find "a" = some ⟨0, 0, 1, some 24⟩ ∧ v.1.scheduler.state 0 = .decoding ∧
      (v.1.scheduler.request 0).outputTokensEmitted = 3 ∧ Guarded step
        (fun s _ => s.pc.isExpelling = true) v.2.1 [.pop 0, .engine 0 41, .engine 0 42] ∧
      v.2.2.pc = .reapTerminal))
    (b := true) (by decide +kernel)
  obtain ⟨u, hrun, hsystem⟩ := bind_eq_ok.mp hsystem
  obtain ⟨u', hcheck, hsystem⟩ := bind_eq_ok.mp hsystem
  obtain ⟨u'', hrest, hsystem⟩ := bind_eq_ok.mp hsystem
  cases hsystem
  obtain ⟨hpc, haccepted, hfind, hstate, hemitted, hloop, hend⟩ := of_decide_eq_true hview
  have hids : g.DistinctIds := by
    rw [DistinctIds, haccepted]
    decide
  have hattempts : ofId "a" (attempts (new (MockBackend.new ⟨0⟩ 1 5) 16 (fun _ => .new 1))
      ([.start, .submit fourTokens, .push 0] ++ timedSteps 40)) =
      [⟨"a", 9, true⟩, ⟨"a", 24, false⟩, ⟨"a", 38, false⟩] := by
    decide +kernel
  have hcheckAt := (backpressure_exact (MockBackend.new ⟨0⟩ 1 5) 16 (fun _ => .new 1) _ g hrun hids
    (by decide)).2 hpc 0 40 checked _ g' hcheck hrest hloop hend "a" _ hfind
  refine ⟨g, g', _, hrun, ?_, hfind, hstate, hcheckAt.1 ⟨?_, ?_⟩⟩
  · rw [run_cons, hcheck]
    exact hrest
  · unfold Behind
    rw [hemitted]
    decide
  · rw [hattempts]
    exact ⟨[⟨"a", 9, true⟩], ⟨"a", 24, false⟩, [⟨"a", 38, false⟩], rfl, by decide, by decide⟩

end Runs

end Engine

end Tokamak
