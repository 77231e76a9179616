import Tokamak.EngineBooks

/-! Cancels that come after their submission. The engine swaps the pending submissions out first and
the pending cancels second, so a cancel normally finds its request admitted. The one exception is a
client whose two pushes both fall between the two swaps: then the cancel overtakes the submission. A
cancel is followed by its position among all cancels, since ids may be cancelled more than once. -/

open Outcome

namespace Tokamak.Engine

variable {ω : Type}

/-- A cancel pushed now would be drained before a submission of its id. -/
def Overtakes (g : Engine ω) (id : RequestId) : Prop :=
  g.pc.betweenSwaps = true ∧ ∃ sub ∈ g.pendingSubmissions, sub.id = id

/-- The submission is finished with: admitted, no longer live, and its channel closed. -/
structure Finished (sub : Submission) (g : Engine ω) : Prop where
  admitted : ∃ r < g.owned, g.accepted[r]? = some sub
  not_live : ∀ p, g.scheduler.Live p → g.scheduler.requestId p ≠ sub.id
  closed : (g.channels sub.channel).closed = true

/-- The `k`-th cancel is one of `sub`, which was accepted before. -/
structure Tracked (sub : Submission) (k : Nat) (g : Engine ω) : Prop where
  accepted : sub ∈ g.accepted
  position : g.cancels[k]? = some sub.id
  pending : g.handled.length + g.pc.cancelBatch.length ≤ k → g.pc.betweenSwaps = true →
    sub ∉ g.pendingSubmissions
  drained : k < g.handled.length + g.pc.cancelBatch.length → ∃ r < g.owned, g.accepted[r]? = some sub
  finished : k < g.handled.length → Finished sub g

section

variable {g g' : Engine ω} {sub : Submission} {k : Nat}

theorem admitted_of_isPrefix (howned : g.owned ≤ g'.owned) (haccepted : g.accepted <+: g'.accepted)
    (h : ∃ r < g.owned, g.accepted[r]? = some sub) : ∃ r < g'.owned, g'.accepted[r]? = some sub := by
  obtain ⟨r, hr, hsub⟩ := h
  exact ⟨r, lt_of_lt_of_le hr howned, getElem?_mono haccepted hsub⟩

/-- Nothing brings a finished submission back: its id is taken. -/
theorem Finished.mono (h : Finished sub g) (hg : Books g) (hg' : Books g') (hframe : Frame g g')
    (hdistinct : g'.DistinctIds) : Finished sub g' := by
  refine ⟨admitted_of_isPrefix hframe.owned hframe.accepted h.admitted, ?_, hframe.closed _ h.closed⟩
  intro p hp hid
  obtain ⟨hlt, hlive⟩ := (hg'.partition.live_iff p).mp hp
  obtain ⟨r, hr, hsub⟩ := h.admitted
  -- a live request of that id would be the request of `sub`, and that one was finished before
  have hp' := List.getElem?_eq_getElem (lt_of_lt_of_le hlt hg'.owned_le)
  rw [hg'.requestId p _ hlt hp'] at hid
  have hpr : p = r := hdistinct.index_eq hp' (getElem?_mono hframe.accepted hsub) hid
  subst hpr
  have hlive' := hframe.live p hr hlive
  have hlive'' : g.scheduler.Live p := (hg.partition.live_iff p).mpr ⟨hr, hlive'⟩
  exact h.not_live p hlive'' (hg.requestId p sub hr hsub)

/-- A submission the engine accepted is admitted unless it is still waiting for that. -/
theorem Books.admitted_of_notMem (hg : Books g) (hsub : sub ∈ g.accepted)
    (hbatch : sub ∉ g.pc.admitBatch) (hpending : sub ∉ g.pendingSubmissions) :
    ∃ r < g.owned, g.accepted[r]? = some sub := by
  rw [← List.take_append_drop g.owned g.accepted, hg.backlog, List.mem_append,
    List.mem_append] at hsub
  rcases hsub with hsub | hsub | hsub
  · obtain ⟨r, hr⟩ := List.getElem?_of_mem hsub
    rw [List.getElem?_take] at hr
    split_ifs at hr with hlt
    exact ⟨r, hlt, hr⟩
  · exact absurd hsub hbatch
  · exact absurd hsub hpending

/-- The cancel as it is pushed. -/
theorem Tracked.start (hg : Books g) (hsub : sub ∈ g.accepted) (hsafe : ¬g.Overtakes sub.id) :
    Tracked sub g.cancels.length { g with
      pendingCancels := g.pendingCancels ++ [sub.id], cancels := g.cancels ++ [sub.id] } := by
  have hle : g.handled.length + g.pc.cancelBatch.length ≤ g.cancels.length := by
    rw [hg.cancelled, List.length_append, List.length_append]
    omega
  refine ⟨hsub, ?_, ?_, ?_, ?_⟩
  · rw [List.getElem?_append_right le_rfl, Nat.sub_self]
    rfl
  · intro _ hswaps hmem
    exact hsafe ⟨hswaps, sub, hmem, rfl⟩
  · intro hk
    exact absurd hk (not_lt.mpr hle)
  · intro hk
    exact absurd hk (not_lt.mpr ((Nat.le_add_right _ _).trans hle))

/-- An admitted submission is not pending any more. -/
theorem Books.notMem_pending (hg : Books g) (hdistinct : g.DistinctIds)
    (h : ∃ r < g.owned, g.accepted[r]? = some sub) : sub ∉ g.pendingSubmissions := by
  intro hmem
  obtain ⟨r, hr, hsub⟩ := h
  have hdrop : sub ∈ g.accepted.drop g.owned := hg.backlog ▸ List.mem_append_right _ hmem
  obtain ⟨j, hj⟩ := List.getElem?_of_mem hdrop
  rw [List.getElem?_drop] at hj
  have hindex := hdistinct.index_eq hsub hj rfl
  omega

namespace Tracked

theorem outside (h : Tracked sub k g) (hg : Books g) (hg' : Books g') (hframe : Frame g g')
    (hdistinct : g'.DistinctIds) (hstep : Outside g g') : Tracked sub k g' := by
  obtain ⟨subs, haccepted, hsubs⟩ := hstep.submissions
  obtain ⟨ids, hcancels, -⟩ := hstep.cancels
  have hcancel := hstep.pc_same hg.thread (f := EnginePc.cancelBatch) rfl
  have hbetween := hstep.pc_same hg.thread (f := EnginePc.betweenSwaps) rfl
  refine ⟨?_, ?_, ?_, ?_, ?_⟩
  · rw [haccepted]
    exact List.mem_append_left _ h.accepted
  · rw [hcancels]
    exact getElem?_mono (List.prefix_append _ _) h.position
  · rw [hstep.handled, hcancel, hsubs]
    intro hk hswaps hmem
    rcases List.mem_append.mp hmem with hmem | hmem
    · exact h.pending hk (hbetween ▸ hswaps) hmem
    · -- a second submission of an accepted id would not be distinct
      unfold DistinctIds at hdistinct
      rw [haccepted, List.map_append] at hdistinct
      exact (List.nodup_append.mp hdistinct).2.2 _ (List.mem_map_of_mem h.accepted) _
        (List.mem_map_of_mem hmem) rfl
  · rw [hstep.handled, hcancel]
    intro hk
    exact admitted_of_isPrefix hframe.owned hframe.accepted (h.drained hk)
  · rw [hstep.handled]
    intro hk
    exact (h.finished hk).mono hg hg' hframe hdistinct

variable [Clock ω] [InferenceBackend ω]

/-- A cancel has been drained: its request is admitted, so it finds it. -/
theorem cancelled (h : Tracked sub k g) (hg : Books g) (hg' : Books g') (hframe : Frame g g')
    (hdistinct : g'.DistinctIds) {id : RequestId} {rest : List RequestId} {t : FifoScheduler ω}
    (hpc : g.pc = .cancelling (id :: rest)) (hcancel : g.scheduler.cancel id = .ok t)
    (hscheduler : g'.scheduler = t) (hhandled : g'.handled = g.handled ++ [id])
    (hpc' : g'.pc = .cancelling rest) (haccepted : g'.accepted = g.accepted)
    (hcancels : g'.cancels = g.cancels)
    (hclosed : ∀ e, g.active.find id = some e → (g'.channels e.channel).closed = true) :
    Tracked sub k g' := by
  have hlength : g'.handled.length + g'.pc.cancelBatch.length =
      g.handled.length + g.pc.cancelBatch.length := by
    rw [hhandled, hpc', hpc]
    simp only [EnginePc.cancelBatch, List.length_append, List.length_cons, List.length_nil]
    omega
  refine ⟨haccepted ▸ h.accepted, hcancels ▸ h.position, ?_, ?_, ?_⟩
  · rw [hpc']
    exact fun _ hswaps => Bool.noConfusion hswaps
  · rw [hlength]
    intro hk
    exact admitted_of_isPrefix hframe.owned hframe.accepted (h.drained hk)
  · intro hk
    by_cases hold : k < g.handled.length
    · exact (h.finished hold).mono hg hg' hframe hdistinct
    · -- this very cancel
      have hkeq : k = g.handled.length := by
        rw [hhandled, List.length_append, List.length_singleton] at hk
        omega
      have hid : id = sub.id := by
        have hposition := h.position
        rw [hg.cancelled, hpc, hkeq, EnginePc.cancelBatch, List.append_assoc,
          List.getElem?_append_right le_rfl, Nat.sub_self] at hposition
        simpa using hposition
      obtain ⟨r, hr, hsub⟩ := h.drained (by
        rw [hpc, hkeq]
        simp [EnginePc.cancelBatch])
      refine ⟨admitted_of_isPrefix hframe.owned hframe.accepted ⟨r, hr, hsub⟩, ?_, ?_⟩
      · rw [hscheduler, ← hid]
        refine FifoScheduler.cancel_none_live hg.partition ?_ hcancel
        intro p q hp hq hpid hqid
        exact hg.live_unique hp hq (hpid.trans hqid.symm)
      · rcases hg.settled r sub hr hsub with ⟨a, e, he, hrequest⟩ | ⟨-, hc⟩
        · obtain ⟨-, hkey, sub', hsub', hchannel⟩ := hg.entry a e he
          rw [hrequest] at hkey hsub'
          rw [hsub] at hsub'
          cases hsub'
          rw [hg.requestId r sub hr hsub, ← hid] at hkey
          rw [hchannel]
          exact hclosed e (hkey ▸ he)
        · exact hframe.closed _ hc

theorem move (h : Tracked sub k g) (hg : Books g) (hg' : Books g') (hframe : Frame g g')
    (hdistinct : g'.DistinctIds) (hmove : Move g g') : Tracked sub k g' := by
  have hfinished : k < g.handled.length → Finished sub g' := fun hk =>
    (h.finished hk).mono hg hg' hframe hdistinct
  -- outside the window between the two swaps nothing is asked of the pending submissions
  have hno : ∀ {p q : Prop}, p → false = true → q := fun _ hswaps => Bool.noConfusion hswaps
  have hdrained : k < g.handled.length + g.pc.cancelBatch.length →
      ∃ r < g'.owned, g'.accepted[r]? = some sub := fun hk =>
    admitted_of_isPrefix hframe.owned hframe.accepted (h.drained hk)
  cases hmove with
  | idle => exact h
  | jump pc halive hadmission hcancel hreap hbetween =>
      refine ⟨h.accepted, h.position, ?_, ?_, hfinished⟩
      · rw [hcancel]
        exact fun hk hswaps => h.pending hk (hbetween hswaps)
      · rw [hcancel]
        exact hdrained
  | drainSubmissions hpc =>
      refine ⟨h.accepted, h.position, ?_, ?_, hfinished⟩
      · intro _ _
        exact List.not_mem_nil
      · rw [hpc] at hdrained
        exact hdrained
  | admission hpc =>
      have hpending := h.pending
      rw [hpc] at hpending hdrained
      exact ⟨h.accepted, h.position, hpending, hdrained, hfinished⟩
  | drainCancels hpc =>
      refine ⟨h.accepted, h.position, hno, ?_, hfinished⟩
      intro _
      by_cases hk : k < g.handled.length
      · exact (hfinished hk).admitted
      · have hpending := h.pending
        rw [hpc] at hpending
        refine hg.admitted_of_notMem h.accepted ?_ (hpending (not_lt.mp hk) rfl)
        rw [hpc]
        exact List.not_mem_nil
  | cancelInactive hpc hcancel he =>
      refine h.cancelled hg hg' hframe hdistinct hpc hcancel rfl rfl rfl rfl rfl ?_
      intro e he'
      rw [he] at he'
      cases he'
  | cancelActive hpc hcancel he =>
      refine h.cancelled hg hg' hframe hdistinct hpc hcancel rfl rfl rfl rfl rfl ?_
      intro e he'
      rw [he] at he'
      cases he'
      simp [closeEntry]
  | tick hpc =>
      rw [hpc] at hdrained
      exact ⟨h.accepted, h.position, hno, hdrained, hfinished⟩
  | push steadyNow hpc he =>
      have hpending := h.pending
      rw [hpc] at hpending hdrained
      revert hdrained hfinished
      unfold pushEvent
      simp only
      split_ifs
      · intro hfinished hdrained
        refine ⟨h.accepted, h.position, ?_, ?_, hfinished⟩
        · rw [hpc]
          exact hno
        · rw [hpc]
          exact hdrained
      · intro hfinished hdrained
        exact ⟨h.accepted, h.position, hno, hdrained, hfinished⟩
  | expel hpc =>
      rw [hpc] at hdrained
      exact ⟨h.accepted, h.position, hno, hdrained, hfinished⟩
  | reapTerminal hpc =>
      rw [hpc] at hdrained
      exact ⟨h.accepted, h.position, hno, hdrained, hfinished⟩
  | reap hpc =>
      rw [hpc] at hdrained
      exact ⟨h.accepted, h.position, hno, hdrained, hfinished⟩

theorem step [Environment ω] (h : Tracked sub k g) (hg : Books g) (hg' : Books g')
    (hframe : Frame g g') (hdistinct : g'.DistinctIds) {a : EngineAction ω}
    (hstep : g.step a = .ok g') : Tracked sub k g' := by
  rcases step_cases hstep with houtside | ⟨choice, steadyNow, -, hmove⟩
  · exact h.outside hg hg' hframe hdistinct houtside
  · exact h.move hg hg' hframe hdistinct hmove

end Tracked

end

/-! ### Runs -/

section Runs

variable [Clock ω] [InferenceBackend ω] [Environment ω]

/-- **No cancel is lost** unless it overtakes its submission. Let `sub` be accepted and cancelled
after that, not while the engine stands between its two swaps with a submission of that id pending.
Once that cancel has been handled, the submission is not pending, no live request has its id, and its
channel is closed. -/
theorem cancel_not_lost [AlignedBackend ω] (w : ω) (timeout : Duration)
    (channels : ChannelPtr → TokenChannel) (before after : List (EngineAction ω)) (sub : Submission)
    (g₁ g₂ : Engine ω) (hbefore : run step (new w timeout channels) before = .ok g₁)
    (hsub : sub ∈ g₁.accepted) (hsafe : ¬g₁.Overtakes sub.id)
    (hafter : run step g₁ (.cancel sub.id :: after) = .ok g₂) (hdistinct : g₂.DistinctIds)
    (hhandled : g₁.cancels.length < g₂.handled.length) :
    sub ∉ g₂.pendingSubmissions ∧ (∀ p, g₂.scheduler.Live p → g₂.scheduler.requestId p ≠ sub.id) ∧
      (g₂.channels sub.channel).closed = true := by
  have hdistinct₁ : g₁.DistinctIds := hdistinct.of_isPrefix (run_accepted hafter)
  have hbooks₁ : Books g₁ := run_books w timeout channels hbefore hdistinct₁
  rw [run_cons] at hafter
  obtain ⟨u, hu, hafter⟩ := bind_eq_ok.mp hafter
  have hbooks : Books u := (hbooks₁.step (hbooks₁.admitSafe hdistinct₁) hu).1
  cases hu
  have hend := run_distinct (Tracked sub g₁.cancels.length)
    (fun _ _ _ hv hv' hframe hdistinct' htracked hstep =>
      htracked.step hv hv' hframe hdistinct' hstep)
    hbooks (Tracked.start hbooks₁ hsub hsafe) hafter hdistinct
  have hfinished := hend.2.finished hhandled
  exact ⟨hend.1.notMem_pending hdistinct hfinished.admitted, hfinished.not_live, hfinished.closed⟩

end Runs

/-! ### The window -/

section Window

/-- The cancel arrives before the engine wakes up, and both are drained in one iteration. -/
theorem cancel_not_lost_asleep :
    ∃ g₁ g₂ : Engine MockBackend, run step idleEngine [.start, .submit oneToken, .push 0] = .ok g₁ ∧
      ¬g₁.Overtakes "a" ∧ run step g₁ (.cancel "a" :: engineSteps 7) = .ok g₂ ∧
      (g₂.channels 0).closed = true := by
  obtain ⟨g₁, h₁, hview₁⟩ := exists_of_map_ok (x := run step idleEngine
      [.start, .submit oneToken, .push 0]) (b := (EnginePc.loopTest, [oneToken], ([] : List RequestId)))
    (f := fun g => (g.pc, g.accepted, g.cancels)) (by decide +kernel)
  obtain ⟨g₂, h₂, hview₂⟩ := exists_of_map_ok (x := run step idleEngine
      ([.start, .submit oneToken, .push 0] ++ .cancel "a" :: engineSteps 7))
    (b := ([oneToken], ["a"])) (f := fun g => (g.accepted, g.handled)) (by decide +kernel)
  rw [run_append, h₁, ok_bind] at h₂
  simp only [Prod.mk.injEq] at hview₁ hview₂
  have hsafe : ¬g₁.Overtakes "a" := by
    intro h
    rw [Overtakes, hview₁.1] at h
    exact absurd h.1 (by decide)
  refine ⟨g₁, g₂, h₁, hsafe, h₂, ?_⟩
  refine (cancel_not_lost (MockBackend.new ⟨0⟩ 1 5) 100 (fun _ => .new 4) _ _ oneToken g₁ g₂ h₁ ?_
    hsafe h₂ ?_ ?_).2.2
  · rw [hview₁.2.1]
    exact List.mem_singleton_self _
  · rw [DistinctIds, hview₂.1]
    decide
  · rw [hview₁.2.2, hview₂.2]
    decide

/-- Submitted and cancelled between the two swaps: the cancel has been handled, and the submission
still waits with its channel open. -/
theorem cancel_lost_between_swaps :
    ∃ g₁ g₂ : Engine MockBackend,
      run step idleEngine ([.start] ++ engineSteps 4 ++ [.submit oneToken, .push 0]) = .ok g₁ ∧
      oneToken ∈ g₁.accepted ∧ run step g₁ (.cancel oneToken.id :: engineSteps 2) = .ok g₂ ∧
      g₂.DistinctIds ∧ g₁.cancels.length < g₂.handled.length ∧
      oneToken ∈ g₂.pendingSubmissions ∧ (g₂.channels oneToken.channel).closed = false := by
  obtain ⟨g₁, h₁, hview₁⟩ := exists_of_map_ok (x := run step idleEngine
      ([.start] ++ engineSteps 4 ++ [.submit oneToken, .push 0]))
    (b := ([oneToken], ([] : List RequestId))) (f := fun g => (g.accepted, g.cancels))
    (by decide +kernel)
  obtain ⟨g₂, h₂, hview₂⟩ := exists_of_map_ok (x := run step idleEngine
      ([.start] ++ engineSteps 4 ++ [.submit oneToken, .push 0] ++
        .cancel oneToken.id :: engineSteps 2))
    (b := ([oneToken], ["a"], [oneToken], false))
    (f := fun g => (g.accepted, g.handled, g.pendingSubmissions, (g.channels 0).closed))
    (by decide +kernel)
  rw [run_append, h₁, ok_bind] at h₂
  simp only [Prod.mk.injEq] at hview₁ hview₂
  refine ⟨g₁, g₂, h₁, ?_, h₂, ?_, ?_, ?_, hview₂.2.2.2⟩
  · rw [hview₁.1]
    exact List.mem_singleton_self _
  · rw [DistinctIds, hview₂.1]
    decide
  · rw [hview₁.2, hview₂.2.1]
    decide
  · rw [hview₂.2.2.1]
    exact List.mem_singleton_self _

end Window

end Tokamak.Engine
