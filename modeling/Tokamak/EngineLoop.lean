import Tokamak.EngineBooks

/-! The top of the engine's loop. A pass hands the submissions it has drained to the scheduler one by
one, and ends by reaping every entry whose request is terminal and delivered. So between two passes a
drained submission has one of three standings: its request is live; or the request is terminal and
tokens of it are still to be delivered; or it is finished with, and has no entry any more. -/

open Outcome

namespace Tokamak

/-- The positions at which nothing is left to reap but what `reap_terminal` is reaping. -/
def EnginePc.reaped : EnginePc → Bool
  | .exited => true
  | .loopTest => true
  | .awake => true
  | .reaping _ => true
  | _ => false

theorem eq_nil_of_pick {α : Type} {todo : List α} {choice : Nat} (h : pick todo choice = none) :
    todo = [] := by
  unfold pick at h
  cases todo with
  | nil => rfl
  | cons a rest =>
      have hlt : choice % (a :: rest).length < (a :: rest).length :=
        Nat.mod_lt choice (Nat.succ_pos _)
      exact absurd hlt (not_lt.mpr (List.getElem?_eq_none_iff.mp h))

/-- How a drained submission stands. -/
inductive Standing where
  | running
  | lagging
  | finished
  deriving DecidableEq, Repr

namespace Engine

variable {ω : Type}

/-- The entry of a submission leads to the `i`-th request. -/
structure Entry (g : Engine ω) (i : RequestPtr) (sub : Submission) (e : ActiveEntry) : Prop where
  found : g.active.find sub.id = some e
  request : e.request = i
  channel : e.channel = sub.channel

/-- How the submission of the `i`-th request stands. -/
def HasStanding (g : Engine ω) (i : RequestPtr) (sub : Submission) : Standing → Prop
  | .running => (∃ e, g.Entry i sub e) ∧ g.scheduler.Live i
  | .lagging => ∃ e, g.Entry i sub e ∧ (g.scheduler.state i).isTerminal = true ∧
      e.lastSeenTokens < (g.scheduler.request i).outputTokensEmitted
  | .finished => g.active.find sub.id = none ∧ (g.scheduler.state i).isTerminal = true ∧
      (g.channels sub.channel).closed = true

/-- No entry is delivered but those that are being reaped. -/
def Reaped (g : Engine ω) : Prop :=
  g.pc.reaped = true → ∀ id e, g.active.find id = some e → g.isDelivered e = true →
    id ∈ g.pc.reapBatch

section Standings

variable {g : Engine ω} {i : RequestPtr} {sub : Submission} {e : ActiveEntry}

/-- With distinct ids an entry under the id of a submission is the entry of that submission. -/
theorem Books.entry_of_find (hg : Books g) (hids : g.DistinctIds) (hsub : g.accepted[i]? = some sub)
    (he : g.active.find sub.id = some e) : g.Entry i sub e := by
  obtain ⟨hlt, hkey, sub', hsub', hchannel⟩ := hg.entry sub.id e he
  rw [hg.requestId _ _ hlt hsub'] at hkey
  have hindex : e.request = i := hids.index_eq hsub' hsub hkey
  rw [hindex, hsub] at hsub'
  cases hsub'
  exact ⟨he, hindex, hchannel.symm⟩

/-- Between two passes every drained submission has a standing. -/
theorem Books.exists_standing (hg : Books g) (hids : g.DistinctIds) (hreaped : Reaped g)
    (hpc : g.pc = .loopTest) (hi : i < g.owned) (hsub : g.accepted[i]? = some sub) :
    ∃ standing, g.HasStanding i sub standing := by
  cases he : g.active.find sub.id with
  | none =>
      rcases hg.settled i sub hi hsub with ⟨id, e, hfind, hrequest⟩ | ⟨hterminal, hclosed⟩
      · -- its entry would stand under its id
        have hkey := (hg.entry id e hfind).2.1
        rw [hrequest, hg.requestId i sub hi hsub] at hkey
        rw [← hkey, he] at hfind
        cases hfind
      · exact ⟨.finished, he, hterminal, hclosed⟩
  | some e =>
      have hentry := hg.entry_of_find hids hsub he
      cases hterminal : (g.scheduler.state i).isTerminal with
      | false =>
          exact ⟨.running, ⟨e, hentry⟩, (hg.partition.live_iff i).mpr ⟨hi, hterminal⟩⟩
      | true =>
          refine ⟨.lagging, e, hentry, hterminal, ?_⟩
          by_contra hseen
          have hdelivered : g.isDelivered e = true := by
            unfold isDelivered
            rw [hentry.request, hterminal, Bool.true_and]
            exact decide_eq_true (not_lt.mp hseen)
          have hmem := hreaped (by rw [hpc]; rfl) sub.id e he hdelivered
          rw [hpc] at hmem
          cases hmem

/-- A submission has one standing at most. -/
theorem Ledger.standing_unique (hg : Ledger g) {s t : Standing} (hs : g.HasStanding i sub s)
    (ht : g.HasStanding i sub t) : s = t := by
  have hlive : g.scheduler.Live i → (g.scheduler.state i).isTerminal = true → False := by
    intro hlive hterminal
    rw [((hg.partition.live_iff i).mp hlive).2] at hterminal
    cases hterminal
  have hfound : ∀ e, g.Entry i sub e → g.active.find sub.id = none → False := by
    intro e hentry hnone
    rw [hentry.found] at hnone
    cases hnone
  cases s with
  | running =>
      cases t with
      | running => rfl
      | lagging => exact (hlive hs.2 ht.choose_spec.2.1).elim
      | finished => exact (hlive hs.2 ht.2.1).elim
  | lagging =>
      cases t with
      | running => exact (hlive ht.2 hs.choose_spec.2.1).elim
      | lagging => rfl
      | finished => exact (hfound _ hs.choose_spec.1 ht.1).elim
  | finished =>
      cases t with
      | running => exact (hlive ht.2 hs.2.1).elim
      | lagging => exact (hfound _ ht.choose_spec.1 hs.1).elim
      | finished => rfl

end Standings

/-! ### What is left to reap -/

namespace Reaped

variable {g g' : Engine ω}

theorem new (w : ω) (timeout : Duration) (channels : ChannelPtr → TokenChannel) :
    Reaped (Engine.new w timeout channels) := by
  intro _ id e he
  simp [Engine.new] at he

theorem outside (h : Reaped g) (hg : Books g) (hstep : Outside g g') : Reaped g' := by
  obtain ⟨w, hscheduler⟩ := hstep.world
  have hdelivered : g'.isDelivered = g.isDelivered := by
    unfold isDelivered
    rw [hscheduler]
    rfl
  unfold Reaped
  rw [hstep.active, hdelivered, hstep.pc_same hg.thread (f := EnginePc.reaped) rfl,
    hstep.pc_same hg.thread (f := EnginePc.reapBatch) rfl]
  exact h

end Reaped

section Reap

variable [Clock ω] [InferenceBackend ω] {g g' : Engine ω}

/-- How a step of the engine thread ends where nothing is left to reap: it came from such a position,
there are no entries, or it is a step of `reap_terminal`. -/
theorem engineStep_reaped {choice : Nat} {steadyNow : TimePoint}
    (h : g.engineStep choice steadyNow = .ok g') (hpc' : g'.pc.reaped = true) :
    (∃ pc, g.pc.reaped = true ∧ g.pc.reapBatch = [] ∧ g' = { g with pc := pc }) ∨
    (g.active.keys = [] ∧ g' = { g with pc := .loopTest }) ∨
    g' = { g with pc := .reaping (g.select g.isDelivered) } ∨
    ∃ id toReap e, g.pc = .reaping toReap ∧ g.active.find id = some e ∧
      g' = { (g.closeEntry id e .reap) with pc := .reaping (toReap.erase id) } := by
  unfold engineStep at h
  cases hpc : g.pc with
  | exited =>
      rw [hpc] at h
      cases h
      exact .inl ⟨g.pc, rfl, rfl, rfl⟩
  | loopTest =>
      rw [hpc] at h
      cases h
      exact .inl ⟨_, rfl, rfl, rfl⟩
  | awake =>
      rw [hpc] at h
      cases h
      exact .inl ⟨_, rfl, rfl, rfl⟩
  | drainSubmissions =>
      rw [hpc] at h
      cases h
      cases hpc'
  | admitting batch =>
      rw [hpc] at h
      cases batch with
      | nil =>
          cases h
          cases hpc'
      | cons sub rest =>
          obtain ⟨u, -, h⟩ := bind_eq_ok.mp h
          cases h
          cases hpc'
  | drainCancels =>
      rw [hpc] at h
      cases h
      cases hpc'
  | cancelling batch =>
      rw [hpc] at h
      cases batch with
      | nil =>
          cases h
          cases hpc'
      | cons id rest =>
          obtain ⟨u, -, h⟩ := bind_eq_ok.mp h
          cases h
          cases hpc'
  | tick =>
      rw [hpc] at h
      simp only at h
      split_ifs at h with hempty
      · cases h
        exact .inr (.inl ⟨hempty, rfl⟩)
      · obtain ⟨done, -, h⟩ := bind_eq_ok.mp h
        cases h
        cases hpc'
  | pushTokens todo =>
      rw [hpc] at h
      simp only at h
      split at h
      · cases h
        cases hpc'
      · cases h
        cases hpc'
  | pushing id todo =>
      rw [hpc] at h
      rcases pushToken_ok h with ⟨rfl, -⟩ | ⟨e, tokenId, he, hunseen, htoken, rfl⟩
      · cases hpc'
      · obtain ⟨e', channels, pc, -, -, -, -, hnext, heq⟩ := pushEvent_eq g id e
          ⟨tokenId, finishReason (g.scheduler.request e.request) e.lastSeenTokens⟩ todo steadyNow
        rw [heq] at hpc'
        rcases hnext with hnext | hnext
        · rw [hnext, hpc] at hpc'
          cases hpc'
        · rw [hnext] at hpc'
          cases hpc'
  | checkBackpressure =>
      rw [hpc] at h
      cases h
      cases hpc'
  | expelling toCancel =>
      rw [hpc] at h
      simp only at h
      split at h
      · cases h
        cases hpc'
      · obtain ⟨u, -, h⟩ := bind_eq_ok.mp h
        cases h
        cases hpc'
  | reapTerminal =>
      rw [hpc] at h
      cases h
      exact .inr (.inr (.inl rfl))
  | reaping toReap =>
      rw [hpc] at h
      simp only at h
      split at h
      · rename_i hpick
        cases h
        exact .inl ⟨_, rfl, eq_nil_of_pick hpick, rfl⟩
      · rename_i id hpick
        obtain ⟨u, hu, h⟩ := bind_eq_ok.mp h
        obtain ⟨e, he, rfl⟩ := reap_ok hu
        cases h
        exact .inr (.inr (.inr ⟨id, toReap, e, rfl, he, rfl⟩))

namespace Reaped

theorem engineStep (h : Reaped g) {choice : Nat} {steadyNow : TimePoint}
    (hstep : g.engineStep choice steadyNow = .ok g') : Reaped g' := by
  intro hpc' id e he hdelivered
  rcases engineStep_reaped hstep hpc' with ⟨pc, hpc, hbatch, rfl⟩ | ⟨hempty, rfl⟩ | rfl |
    ⟨a, toReap, e', hpc, hfind, rfl⟩
  · have hmem := h hpc id e he hdelivered
    rw [hbatch] at hmem
    cases hmem
  · have hkey : id ∈ g.active.keys := AList.mem_keys.mp (FinMap.mem_of_find he)
    rw [hempty] at hkey
    cases hkey
  · refine List.mem_filter.mpr ⟨AList.mem_keys.mp (FinMap.mem_of_find he), ?_⟩
    rw [show g.active.find id = some e from he]
    exact hdelivered
  · change FinMap.find (g.active.erase a) id = some e at he
    rw [FinMap.find_erase] at he
    split_ifs at he with hne
    have hmem := h (by rw [hpc]; rfl) id e he hdelivered
    rw [hpc] at hmem
    exact (List.mem_erase_of_ne hne).mpr hmem

variable [Environment ω]

theorem step (h : Reaped g) (hg : Books g) {a : EngineAction ω} (hstep : g.step a = .ok g') :
    Reaped g' := by
  cases a with
  | engine choice steadyNow => exact h.engineStep hstep
  | _ =>
      rcases step_cases hstep with houtside | ⟨choice, steadyNow, heq, -⟩
      · exact h.outside hg houtside
      · cases heq

end Reaped

end Reap

/-! ### What is handed to the scheduler -/

section Handed

variable [Clock ω] [InferenceBackend ω] [Environment ω] {g g' : Engine ω}

/-- The argument of the `scheduler_.submit` that a step calls, if it calls it. -/
def handedOver (g : Engine ω) : EngineAction ω → List Submission
  | .engine _ _ =>
      match g.pc with
      | .admitting (sub :: _) => [sub]
      | _ => []
  | _ => []

/-- The arguments of the calls of `scheduler_.submit` in a run, in their order. -/
def handed : Engine ω → List (EngineAction ω) → List Submission
  | _, [] => []
  | g, a :: rest =>
      g.handedOver a ++
        match g.step a with
        | .ok g' => handed g' rest
        | .error _ => []

/-- A step of the engine thread hands over the first submission of its batch, or none. -/
theorem engineStep_handed {choice : Nat} {steadyNow : TimePoint}
    (h : g.engineStep choice steadyNow = .ok g') :
    g.handedOver (.engine choice steadyNow) ++ (g'.pc.admitBatch ++ g'.pendingSubmissions) =
      g.pc.admitBatch ++ g.pendingSubmissions := by
  by_cases hadmitting : ∃ sub rest, g.pc = .admitting (sub :: rest)
  · obtain ⟨sub, rest, hpc⟩ := hadmitting
    obtain ⟨q, w, -, hadmission⟩ := admitSubmission_eq g sub
    unfold Engine.engineStep at h
    rw [hpc] at h
    simp only at h
    rw [hadmission] at h
    cases h
    simp [handedOver, hpc, EnginePc.admitBatch]
  · have hnone : g.handedOver (.engine choice steadyNow) = [] := by
      simp only [handedOver]
      split
      · rename_i sub rest hpc
        exact absurd ⟨sub, rest, hpc⟩ hadmitting
      · rfl
    rw [hnone, List.nil_append]
    cases engineStep_move h with
    | idle => rfl
    | jump pc _ hadmission =>
        change pc.admitBatch ++ _ = _
        rw [hadmission]
    | drainSubmissions hpc =>
        rw [hpc]
        exact List.append_nil _
    | @admission sub rest q w hpc => exact absurd ⟨sub, rest, hpc⟩ hadmitting
    | @push id todo e tokenId steadyNow hpc =>
        obtain ⟨e', channels, pc, -, -, -, -, hnext, heq⟩ := pushEvent_eq g id e
          ⟨tokenId, finishReason (g.scheduler.request e.request) e.lastSeenTokens⟩ todo steadyNow
        rw [heq]
        rcases hnext with hnext | hnext
        · rw [hnext]
        · rw [hnext, hpc]
          rfl
    | drainCancels hpc => rw [hpc]; rfl
    | cancelInactive hpc => rw [hpc]; rfl
    | cancelActive hpc => rw [hpc]; rfl
    | tick hpc => rw [hpc]; rfl
    | expel hpc => rw [hpc]; rfl
    | reapTerminal hpc => rw [hpc]; rfl
    | reap hpc => rw [hpc]; rfl

/-- What a step hands over and what still waits is what waited before and what the step accepted. -/
theorem step_handed (hg : Books g) {a : EngineAction ω} (h : g.step a = .ok g') :
    ∃ subs, g'.accepted = g.accepted ++ subs ∧
      g.handedOver a ++ (g'.pc.admitBatch ++ g'.pendingSubmissions) =
        g.pc.admitBatch ++ g.pendingSubmissions ++ subs := by
  cases a with
  | engine choice steadyNow =>
      refine ⟨[], ?_, ?_⟩
      · rw [List.append_nil]
        exact (engineStep_move h).accepted
      · rw [List.append_nil]
        exact engineStep_handed h
  | _ =>
      rcases step_cases h with houtside | ⟨choice, steadyNow, heq, -⟩
      · obtain ⟨subs, haccepted, hpending⟩ := houtside.submissions
        have hbatch := houtside.pc_same hg.thread (f := EnginePc.admitBatch) rfl
        refine ⟨subs, haccepted, ?_⟩
        rw [hbatch, hpending, List.append_assoc]
        rfl
      · cases heq

/-- What a run hands over and what waits in the end are all that was accepted, in order. -/
theorem run_handed [AlignedBackend ω] (hg : Books g) {actions : List (EngineAction ω)}
    (h : run step g actions = .ok g') (hids : g'.DistinctIds) :
    ∃ subs, g'.accepted = g.accepted ++ subs ∧
      handed g actions ++ (g'.pc.admitBatch ++ g'.pendingSubmissions) =
        g.pc.admitBatch ++ g.pendingSubmissions ++ subs := by
  induction actions generalizing g with
  | nil =>
      rw [run_nil] at h
      cases h
      exact ⟨[], (List.append_nil _).symm, (List.append_nil _).symm⟩
  | cons a rest ih =>
      rw [run_cons] at h
      obtain ⟨u, hu, h⟩ := bind_eq_ok.mp h
      have hids' : g.DistinctIds := hids.of_isPrefix ((step_accepted hu).trans (run_accepted h))
      obtain ⟨subs, haccepted, hstep⟩ := step_handed hg hu
      obtain ⟨later, haccepted', hrest⟩ := ih (hg.step (hg.admitSafe hids') hu).1 h
      refine ⟨subs ++ later, ?_, ?_⟩
      · rw [haccepted', haccepted, List.append_assoc]
      · calc handed g (a :: rest) ++ (g'.pc.admitBatch ++ g'.pendingSubmissions)
            = g.handedOver a ++ (handed u rest ++ (g'.pc.admitBatch ++ g'.pendingSubmissions)) := by
              rw [handed, hu, List.append_assoc]
          _ = g.handedOver a ++ (u.pc.admitBatch ++ u.pendingSubmissions) ++ later := by
              rw [hrest, ← List.append_assoc (g.handedOver a)]
          _ = g.pc.admitBatch ++ g.pendingSubmissions ++ (subs ++ later) := by
              rw [hstep, List.append_assoc]

end Handed

/-! ### Runs -/

section Runs

variable [Clock ω] [InferenceBackend ω] [Environment ω]

/-- **No submission falls between the stores.** In every run with distinct ids, at the top of the
engine's loop: the submissions handed to the scheduler followed by the pending ones are the accepted
ones in their order; the scheduler owns one request for each that was handed to it, with its id; and
each of them has exactly one standing. At every moment a live request has its entry, so there is no
work for the scheduler whenever there are no entries. -/
theorem submissions_accounted_for [AlignedBackend ω] (w : ω) (timeout : Duration)
    (channels : ChannelPtr → TokenChannel) (actions : List (EngineAction ω)) (g : Engine ω)
    (hrun : run step (new w timeout channels) actions = .ok g) (hids : g.DistinctIds) :
    (g.pc = .loopTest →
      handed (new w timeout channels) actions ++ g.pendingSubmissions = g.accepted ∧
      (handed (new w timeout channels) actions).length = g.owned ∧
      ∀ i sub, (handed (new w timeout channels) actions)[i]? = some sub →
        g.scheduler.requestId i = sub.id ∧ ∃! standing, g.HasStanding i sub standing) ∧
    (∀ p, g.scheduler.Live p →
      ∃ e, g.active.find (g.scheduler.requestId p) = some e ∧ e.request = p) ∧
    (g.active.keys = [] → ∀ p, ¬g.scheduler.Live p) := by
  have hstart := Books.new w timeout channels
  obtain ⟨hbooks, hreaped⟩ := run_distinct Reaped
    (fun _ _ _ hu _ _ _ hreaped hstep => hreaped.step hu hstep) hstart
    (Reaped.new w timeout channels) hrun hids
  refine ⟨?_, fun p hp => hbooks.active_of_live hp, ?_⟩
  · intro hpc
    obtain ⟨subs, haccepted, hhanded⟩ := run_handed hstart hrun hids
    have hbatch : g.pc.admitBatch = [] := by
      rw [hpc]
      rfl
    have horder : handed (new w timeout channels) actions ++ g.pendingSubmissions = g.accepted :=
      calc handed (new w timeout channels) actions ++ g.pendingSubmissions
          = handed (new w timeout channels) actions ++ (g.pc.admitBatch ++ g.pendingSubmissions) := by
            rw [hbatch, List.nil_append]
        _ = subs := hhanded
        _ = g.accepted := haccepted.symm
    -- what is not owned yet is what is still pending
    have hbacklog := hbooks.backlog
    rw [hbatch, List.nil_append] at hbacklog
    have htake : handed (new w timeout channels) actions = g.accepted.take g.owned := by
      have hsplit := List.take_append_drop g.owned g.accepted
      rw [hbacklog, ← horder] at hsplit
      rw [← horder]
      exact (List.append_cancel_right hsplit).symm
    refine ⟨horder, ?_, ?_⟩
    · rw [htake, List.length_take, Nat.min_eq_left hbooks.owned_le]
    · intro i sub hi
      rw [htake, List.getElem?_take] at hi
      split_ifs at hi with hlt
      obtain ⟨standing, hstanding⟩ := hbooks.exists_standing hids hreaped hpc hlt hi
      exact ⟨hbooks.requestId i sub hlt hi, standing, hstanding,
        fun other hother => hbooks.standing_unique hother hstanding⟩
  · intro hempty p hp
    obtain ⟨e, he, -⟩ := hbooks.active_of_live hp
    have hkey := AList.mem_keys.mp (FinMap.mem_of_find he)
    rw [hempty] at hkey
    cases hkey

/-- The consumer does not read: its request is completed and the entry stays. -/
theorem submissions_accounted_for_unread :
    ∃ g : Engine MockBackend,
      run step (new (.new ⟨0⟩ 1 5) 100 (fun _ => .new 1))
        ([.start, .submit manyTokens, .push 0] ++ engineSteps 44) = .ok g ∧
      g.pc = .loopTest ∧ g.scheduler.state 0 = .completed ∧ g.active.keys = ["a"] ∧
      ∃! standing, g.HasStanding 0 manyTokens standing := by
  obtain ⟨g, hrun, hview⟩ := exists_of_map_ok
    (x := run step (new (.new ⟨0⟩ 1 5) 100 (fun _ => .new 1))
      ([.start, .submit manyTokens, .push 0] ++ engineSteps 44))
    (b := (EnginePc.loopTest, [manyTokens], ([] : List Submission), RequestState.completed, ["a"]))
    (f := fun g => (g.pc, g.accepted, g.pendingSubmissions, g.scheduler.state 0, g.active.keys))
    (by decide +kernel)
  simp only [Prod.mk.injEq] at hview
  obtain ⟨hpc, haccepted, hpending, hstate, hkeys⟩ := hview
  have hids : g.DistinctIds := by
    rw [DistinctIds, haccepted]
    decide
  obtain ⟨horder, -, hstandings⟩ := (submissions_accounted_for (MockBackend.new ⟨0⟩ 1 5) 100
    (fun _ => .new 1) _ g hrun hids).1 hpc
  rw [hpending, List.append_nil, haccepted] at horder
  exact ⟨g, hrun, hpc, hstate, hkeys, (hstandings 0 manyTokens (by rw [horder]; rfl)).2⟩

end Runs

end Engine

end Tokamak
