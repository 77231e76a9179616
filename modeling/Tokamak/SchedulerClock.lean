import Tokamak.SchedulerHandles

/-! Time over a mock backend. The fake clock never goes back, and a milestone is stamped with the time
it shows, so the milestones of a request are in order: admission, first token, completion. -/

open Outcome

namespace Tokamak

/-- The milestones of a request at time `now`: none lies in the future, each lies after the ones
before it, and only a completed request has the last one. -/
structure Request.Milestones (now : TimePoint) (q : Request) : Prop where
  admitted : ∃ a, q.lifecycle.admittedAt = some a ∧ a ≤ now
  first_le : ∀ t, q.lifecycle.firstTokenAt = some t → t ≤ now
  admitted_first : ∀ a t, q.lifecycle.admittedAt = some a → q.lifecycle.firstTokenAt = some t → a ≤ t
  completed : ∀ t, q.lifecycle.completedAt = some t → q.state = .completed
  admitted_completed : ∀ a t, q.lifecycle.admittedAt = some a → q.lifecycle.completedAt = some t → a ≤ t
  first_completed : ∀ f t, q.lifecycle.firstTokenAt = some f → q.lifecycle.completedAt = some t → f ≤ t

namespace Request.Milestones

variable {now : TimePoint} {q : Request}

theorem mono (h : Milestones now q) {later : TimePoint} (hle : now ≤ later) :
    Milestones later q := by
  obtain ⟨a, ha, hle'⟩ := h.admitted
  exact ⟨⟨a, ha, hle'.trans hle⟩, fun t ht => (h.first_le t ht).trans hle, h.admitted_first,
    h.completed, h.admitted_completed, h.first_completed⟩

theorem completedAt_eq_none (h : Milestones now q) (hq : q.state ≠ .completed) :
    q.lifecycle.completedAt = none := by
  cases hcompleted : q.lifecycle.completedAt with
  | none => rfl
  | some t => exact absurd (h.completed t hcompleted) hq

/-- A transition of a request that is not completed, made now. -/
theorem enter (h : Milestones now q) (hq : q.state ≠ .completed) {target : RequestState}
    (htarget : target ≠ .admitted) : Milestones now (q.enter target now) := by
  have hnone := h.completedAt_eq_none hq
  have hadmitted : (q.enter target now).lifecycle.admittedAt = q.lifecycle.admittedAt :=
    if_neg htarget
  have hcompleted : ∀ t, (q.enter target now).lifecycle.completedAt = some t →
      target = .completed ∧ t = now := by
    intro t ht
    rw [Request.lifecycle_enter, RequestLifecycle.completedAt_enter, hnone] at ht
    split_ifs at ht with heq
    exact ⟨heq, (Option.some.inj ht).symm⟩
  refine ⟨?_, h.first_le, ?_, ?_, ?_, ?_⟩
  · rw [hadmitted]
    exact h.admitted
  · rw [hadmitted]
    exact h.admitted_first
  · intro t ht
    exact (hcompleted t ht).1
  · intro a t ha ht
    rw [hadmitted] at ha
    obtain ⟨a', ha', hle⟩ := h.admitted
    rw [ha] at ha'
    cases ha'
    rw [(hcompleted t ht).2]
    exact hle
  · intro f t hf ht
    rw [(hcompleted t ht).2]
    exact h.first_le f hf

/-- A token emitted now by a request that is not completed. -/
theorem emitted (h : Milestones now q) (hq : q.state ≠ .completed) {b : MockBackend}
    (hb : b.clock.current = now) (tokenId : UInt32) :
    Milestones now (q.emitted (q.lifecycle.firstToken b).1 tokenId) := by
  have hnone := h.completedAt_eq_none hq
  have hfirst : ∀ t, (q.lifecycle.firstToken b).1.firstTokenAt = some t →
      q.lifecycle.firstTokenAt = some t ∨ t = now := by
    intro t ht
    unfold RequestLifecycle.firstToken at ht
    split_ifs at ht
    · right
      exact (Option.some.inj ht).symm.trans hb
    · exact .inl ht
  obtain ⟨a, ha, hle⟩ := h.admitted
  refine ⟨?_, ?_, ?_, ?_, ?_, ?_⟩
  · rw [Request.lifecycle_emitted, RequestLifecycle.admittedAt_firstToken]
    exact ⟨a, ha, hle⟩
  · intro t ht
    rcases hfirst t ht with ht | rfl
    · exact h.first_le t ht
    · exact le_rfl
  · intro a' t ha' ht
    rw [Request.lifecycle_emitted, RequestLifecycle.admittedAt_firstToken] at ha'
    rcases hfirst t ht with ht | rfl
    · exact h.admitted_first a' t ha' ht
    · rw [ha] at ha'
      cases ha'
      exact hle
  · intro t ht
    rw [Request.lifecycle_emitted, RequestLifecycle.completedAt_firstToken, hnone] at ht
    cases ht
  · intro a' t _ ht
    rw [Request.lifecycle_emitted, RequestLifecycle.completedAt_firstToken, hnone] at ht
    cases ht
  · intro f t _ ht
    rw [Request.lifecycle_emitted, RequestLifecycle.completedAt_firstToken, hnone] at ht
    cases ht

end Request.Milestones

namespace FifoScheduler

/-- The clock has not gone back behind `since`, and every owned request has its milestones in order. -/
structure Punctual (since : TimePoint) (s : FifoScheduler MockBackend) : Prop where
  since_le : since ≤ s.clockNow
  milestones : ∀ p < s.requests.size, (s.request p).Milestones s.clockNow

section

variable {since : TimePoint} {s : FifoScheduler MockBackend} {r : RequestPtr}

/-- Time passes. -/
theorem Punctual.world (h : Punctual since s) {w : MockBackend}
    (hw : s.world.clock.current ≤ w.clock.current) : Punctual since { s with world := w } :=
  ⟨h.since_le.trans hw, fun p hp => (h.milestones p hp).mono hw⟩

/-- One request is rewritten, and the clock stands still. -/
theorem Punctual.rewrite (h : Punctual since s) {t : FifoScheduler MockBackend} {q : Request}
    (hclock : t.clockNow = s.clockNow) (hrequests : t.requests = s.requests.write r q)
    (hq : q.Milestones s.clockNow) : Punctual since t := by
  refine ⟨hclock ▸ h.since_le, ?_⟩
  intro p hp
  rw [hclock]
  rw [hrequests, Arena.size_write] at hp
  by_cases hpr : p = r
  · subst hpr
    rw [show t.request p = q by rw [request, hrequests, Arena.cell_write_self]]
    exact hq
  · rw [show t.request p = s.request p by
      rw [request, hrequests, Arena.cell_write_of_ne s.requests hpr]; rfl]
    exact h.milestones p hp

theorem Punctual.retired (h : Punctual since s) {q : Request} (hq : q.Milestones s.clockNow) :
    Punctual since (s.retired r q (s.releasedMock (s.requestId r))) := by
  exact h.rewrite (clockNow_retired s r q) rfl hq

theorem Punctual.tokenEmitted (h : Punctual since s) (hr : r < s.requests.size)
    (hstate : s.state r = .decoding) (tokenId : UInt32) :
    Punctual since (s.tokenEmitted r tokenId) := by
  refine h.rewrite ?_ rfl ((h.milestones r hr).emitted ?_ rfl tokenId)
  · change (s.tokenEmitted r tokenId).world.clock.current = s.world.clock.current
    rw [tokenEmitted_world]
  · change s.state r ≠ .completed
    rw [hstate]
    decide

variable {dead : Nat → Prop}

theorem expireDeadlines_punctual (hp : s.Partition) (hs : HandlesLive dead s)
    (h : Punctual since s) :
    Ensures s.expireDeadlines (fun _ => True) (fun done =>
      done.1.Partition ∧ HandlesLive dead done.1 ∧ Punctual since done.1) := by
  refine expireDeadlines_ensures hp (fun _ _ t => HandlesLive dead t ∧ Punctual since t) ?_ ?_ ?_
  · rw [expiredDecoding_mock]
    exact ⟨hs, h⟩
  · rintro r rest t ht hr - - ⟨hlive, hinv⟩
    have hstate := ht.waiting_state r hr
    rw [failWaiting_mock hstate (hlive.live _)]
    refine ⟨hlive.release r _, hinv.retired ?_⟩
    refine ((hinv.milestones r (ht.waiting_lt r hr)).enter ?_ (by decide)).enter (by simp) (by decide)
    rw [show (t.request r).state = .waitingPrefill from hstate]
    decide
  · rintro r rest t ht hr - ⟨hlive, hinv⟩
    have hstate := ht.decoding_state r hr
    rw [failDecoding_mock hstate (hlive.live _)]
    refine ⟨hlive.release r _, hinv.retired ?_⟩
    refine (hinv.milestones r (ht.decoding_lt r hr)).enter ?_ (by decide)
    rw [show (t.request r).state = .decoding from hstate]
    decide

theorem prefillPhase_punctual (hp : s.Partition) (hs : HandlesLive dead s)
    (h : Punctual since s) :
    Ensures s.prefillPhase (fun _ => True) (fun done =>
      done.1.Partition ∧ HandlesLive dead done.1 ∧ Punctual since done.1) := by
  refine (prefillPhase_ensures hp (fun _ outcomes t =>
    HandlesLive dead t.1 ∧ Unclaimed outcomes t.1 ∧ Punctual since t.1) ?_ ?_).imp
    (fun _ h => ⟨h.1, h.2.2.1, h.2.2.2.2⟩)
  · refine (MockBackend.prefill_ensures hs.fresh _).mono (fun _ _ => trivial) ?_
    intro answer hanswer
    exact ⟨hs.prefilled hanswer, hs.unclaimed hanswer, h.world hanswer.clock_le⟩
  · rintro r rest outcome outcomes t report ht hwaiting ⟨hlive, hunclaimed, hinv⟩
    have hr : r ∈ t.waiting := by rw [hwaiting]; exact List.mem_cons_self
    have hstate := ht.waiting_state r hr
    have hmilestones := hinv.milestones r (ht.waiting_lt r hr)
    have hopen : (t.request r).state ≠ .completed := by
      rw [show (t.request r).state = .waitingPrefill from hstate]
      decide
    unfold prefillOutcome
    cases outcome with
    | error e =>
        simp only
        rw [failWaiting_mock hstate (hlive.live _)]
        exact ⟨hlive.release r _, hunclaimed.retired r _,
          hinv.retired ((hmilestones.enter hopen (by decide)).enter (by simp) (by decide))⟩
    | ok out =>
        obtain ⟨hmem, hfree⟩ := hunclaimed.2 out.handle.id List.mem_cons_self
        simp only
        rw [promote_mock out.handle hstate]
        refine ⟨hlive.promoted r out.handle _ hmem hfree, hunclaimed.promoted r _, ?_⟩
        refine hinv.rewrite rfl rfl ?_
        exact ((hmilestones.enter hopen (by decide)).enter (by simp) (by decide)).enter (by simp)
          (by decide)

theorem decodePhase_punctual (hp : s.Partition) (hs : HandlesLive dead s)
    (h : Punctual since s) :
    Ensures s.decodePhase (fun _ => True) (fun done =>
      done.1.Partition ∧ HandlesLive dead done.1 ∧ Punctual since done.1) := by
  refine (decodePhase_ensures hp (fun _ _ t => HandlesLive dead t.1 ∧ Punctual since t.1) ?_ ?_).imp
    (fun _ h => ⟨h.1, h.2.2⟩)
  · refine ((decodeBatch_live hs).mono (fun _ _ => trivial) (fun batch hbatch => ?_))
    refine (MockBackend.decode_ensures hbatch).mono (fun _ _ => trivial) ?_
    rintro answer ⟨hcost, hdecoded⟩
    refine ⟨hs.world ⟨hdecoded.mem, hdecoded.nextSequenceId⟩, h.world ?_⟩
    rw [hdecoded.clock]
    exact Int.le_add_of_nonneg_right hcost
  · rintro r rest outcome outcomes t report ht hr - - - ⟨hlive, hinv⟩
    have hstate := ht.decoding_state r hr
    have hlt := ht.decoding_lt r hr
    have hopen : (t.request r).state ≠ .completed := by
      rw [show (t.request r).state = .decoding from hstate]
      decide
    cases outcome with
    | error e =>
        unfold decodeOutcome
        simp only
        rw [failDecoding_mock hstate (hlive.live _)]
        exact ⟨hlive.release r _, hinv.retired ((hinv.milestones r hlt).enter hopen (by decide))⟩
    | ok token =>
        rw [decodeOutcome_mock hstate (hlive.live _)]
        split_ifs
        · trivial
        · refine ⟨hlive.release r _, hinv.retired ?_⟩
          have hemitted := (hinv.tokenEmitted hlt hstate token.tokenId).milestones r hlt
          have hclock : (t.tokenEmitted r token.tokenId).clockNow = t.clockNow := by
            unfold clockNow
            rw [tokenEmitted_world]
          rw [hclock] at hemitted
          refine hemitted.enter ?_ (by decide)
          change (t.tokenEmitted r token.tokenId).state r ≠ .completed
          rw [state_tokenEmitted_self, hstate]
          decide
        · exact ⟨hlive.of_eq (tokenEmitted_world t r token.tokenId) rfl,
            hinv.tokenEmitted hlt hstate token.tokenId⟩

/-- A tick takes time and keeps the milestones in order. -/
theorem tick_punctual (hp : s.Partition) (hs : HandlesLive dead s) (h : Punctual since s) :
    Ensures s.tick (fun _ => True) (fun done =>
      done.1.Partition ∧ HandlesLive dead done.1 ∧ Punctual since done.1) :=
  tick_ensures (fun a => a.1.Partition ∧ HandlesLive dead a.1 ∧ Punctual since a.1)
    (fun _ b => b.1.Partition ∧ HandlesLive dead b.1 ∧ Punctual since b.1)
    (expireDeadlines_punctual hp hs h)
    (fun _ ha => prefillPhase_punctual ha.1 ha.2.1 ha.2.2)
    (fun _ _ hb => (decodePhase_punctual hb.1 hb.2.1 hb.2.2).imp
      (fun _ h => ⟨h.1.world _, h.2.1, h.2.2⟩))

end

end FifoScheduler

end Tokamak
