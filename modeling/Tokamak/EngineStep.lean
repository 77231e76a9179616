import Tokamak.Engine
import Tokamak.SchedulerStep

/-! What one step of the system can do, said once. A step of a client, a consumer or the world is
`Outside`: the engine thread's own state stays. A step of the engine thread is one of the `Move`s.
Every invariant of the engine is checked against these two and not against the step function. -/

open Outcome

namespace Tokamak

/-- The request the engine makes of a submission, when the scheduler has queued it. -/
structure Submission.Queued (sub : Submission) (q : Request) : Prop where
  id : q.id = sub.id
  maxOutputTokens : q.maxOutputTokens = sub.maxTokens
  state : q.state = .waitingPrefill
  outputTokenIds : q.outputTokenIds = []
  outputTokensEmitted : q.outputTokensEmitted = 0

namespace EnginePc

/-- The drained submissions that are not admitted yet. -/
def admitBatch : EnginePc → List Submission
  | .admitting batch => batch
  | _ => []

/-- The drained cancels that are not handled yet. -/
def cancelBatch : EnginePc → List RequestId
  | .cancelling batch => batch
  | _ => []

/-- The ids `reap_terminal` still has to close. -/
def reapBatch : EnginePc → List RequestId
  | .reaping toReap => toReap
  | _ => []

/-- The pending submissions have been swapped out and the pending cancels have not. -/
def betweenSwaps : EnginePc → Bool
  | .admitting _ => true
  | .drainCancels => true
  | _ => false

end EnginePc

namespace Engine

variable {ω : Type}

/-- The number of requests the scheduler owns. -/
def owned (g : Engine ω) : Nat := g.scheduler.requests.size

/-- A step of another thread, of a consumer or of the world. -/
structure Outside (g g' : Engine ω) : Prop where
  world : ∃ w, g'.scheduler = { g.scheduler with world := w }
  active : g'.active = g.active
  handled : g'.handled = g.handled
  calls : g'.calls = g.calls
  submissions : ∃ subs, g'.accepted = g.accepted ++ subs ∧
    g'.pendingSubmissions = g.pendingSubmissions ++ subs
  cancels : ∃ ids, g'.cancels = g.cancels ++ ids ∧ g'.pendingCancels = g.pendingCancels ++ ids
  closed : ∀ c, (g.channels c).closed = true → (g'.channels c).closed = true
  pc : g'.pc = g.pc ∨ (g.joinable = false ∧ g'.pc = .loopTest ∧ g'.joinable = true)
  joinable : g'.joinable = false → g.joinable = false ∨ g.pc = .exited

section Bodies

variable {g g' : Engine ω} {id : RequestId}

theorem reap_ok (h : g.reap id = .ok g') :
    ∃ e, g.active.find id = some e ∧ g' = g.closeEntry id e .reap := by
  unfold reap at h
  cases he : g.active.find id with
  | none =>
      rw [he] at h
      cases h
  | some e =>
      rw [he] at h
      cases h
      exact ⟨e, rfl, rfl⟩

/-- One turn of the push loop: it ends for this entry, or one event is offered to the channel. -/
theorem pushToken_ok {todo : List RequestId} {steadyNow : TimePoint}
    (h : g.pushToken id todo steadyNow = .ok g') :
    (g' = { g with pc := .pushTokens todo } ∧ ∀ e, g.active.find id = some e →
      (g.scheduler.request e.request).outputTokensEmitted ≤ e.lastSeenTokens) ∨
      ∃ e tokenId, g.active.find id = some e ∧
        e.lastSeenTokens < (g.scheduler.request e.request).outputTokensEmitted ∧
        (g.scheduler.request e.request).outputTokenIds[e.lastSeenTokens]? = some tokenId ∧
        g' = g.pushEvent id e ⟨tokenId, finishReason (g.scheduler.request e.request)
          e.lastSeenTokens⟩ todo steadyNow := by
  unfold pushToken at h
  cases he : g.active.find id with
  | none =>
      rw [he] at h
      cases h
      exact .inl ⟨rfl, fun _ he => by cases he⟩
  | some e =>
      rw [he] at h
      simp only at h
      split_ifs at h with hseen
      · cases h
        refine .inl ⟨rfl, fun e' he' => ?_⟩
        cases he'
        exact hseen
      · cases htoken : (g.scheduler.request e.request).outputTokenIds[e.lastSeenTokens]? with
        | none =>
            rw [htoken] at h
            cases h
        | some tokenId =>
            rw [htoken] at h
            cases h
            exact .inr ⟨e, tokenId, rfl, not_le.mp hseen, htoken, rfl⟩

/-- A push as one update: whether it is accepted decides the cursor. -/
theorem pushEvent_eq (g : Engine ω) (id : RequestId) (e : ActiveEntry) (event : TokenEvent)
    (todo : List RequestId) (steadyNow : TimePoint) :
    ∃ e' channels pc, e'.request = e.request ∧ e'.channel = e.channel ∧
      e'.lastSeenTokens = (if (!(g.channels e.channel).refuses) = true then e.lastSeenTokens + 1
        else e.lastSeenTokens) ∧
      (∀ c, (channels c).closed = (g.channels c).closed) ∧ (pc = g.pc ∨ pc = .pushTokens todo) ∧
      g.pushEvent id e event todo steadyNow = { g with
        active := g.active.replace id e'
        channels := channels
        calls := g.calls ++ [.tryPush e.channel event (!(g.channels e.channel).refuses)]
        pc := pc } := by
  have hclosed : ∀ c, (Function.update g.channels e.channel
      ((g.channels e.channel).tryPush event).2 c).closed = (g.channels c).closed := by
    intro c
    rw [Function.update_apply]
    split_ifs with hc
    · rw [hc, TokenChannel.closed_tryPush]
    · rfl
  unfold pushEvent
  simp only
  rw [TokenChannel.tryPush_fst]
  split_ifs
  · exact ⟨e.sent, _, _, rfl, rfl, rfl, hclosed, .inl rfl, rfl⟩
  · exact ⟨e.blocked steadyNow, _, _, rfl, rfl, rfl, hclosed, .inr rfl, rfl⟩

theorem pushEvent_active (g : Engine ω) (id : RequestId) (e : ActiveEntry) (event : TokenEvent)
    (todo : List RequestId) (steadyNow : TimePoint) :
    (g.pushEvent id e event todo steadyNow).active = g.active.replace id
      (if (g.channels e.channel).refuses = true then e.blocked steadyNow else e.sent) := by
  unfold pushEvent
  simp only
  rw [TokenChannel.tryPush_fst]
  cases (g.channels e.channel).refuses <;> rfl

theorem pushEvent_pc (g : Engine ω) (id : RequestId) (e : ActiveEntry) (event : TokenEvent)
    (todo : List RequestId) (steadyNow : TimePoint) :
    (g.pushEvent id e event todo steadyNow).pc =
      if (g.channels e.channel).refuses = true then .pushTokens todo else g.pc := by
  unfold pushEvent
  simp only
  rw [TokenChannel.tryPush_fst]
  cases (g.channels e.channel).refuses <;> rfl

theorem pushEvent_scheduler (g : Engine ω) (id : RequestId) (e : ActiveEntry) (event : TokenEvent)
    (todo : List RequestId) (steadyNow : TimePoint) :
    (g.pushEvent id e event todo steadyNow).scheduler = g.scheduler := by
  unfold pushEvent
  simp only
  split_ifs <;> rfl

end Bodies

section Moves

variable [Clock ω]

theorem admitSubmission_eq (g : Engine ω) (sub : Submission) :
    ∃ q w, sub.Queued q ∧ g.admitSubmission sub = .ok { g with
      scheduler := g.scheduler.admitted q w
      active := g.active.emplace sub.id ⟨g.owned, sub.channel, 0, none⟩ } := by
  unfold admitSubmission
  simp only
  rw [FifoScheduler.submit_of_received rfl]
  exact ⟨_, _, ⟨rfl, rfl, rfl, rfl, rfl⟩, rfl⟩

variable [InferenceBackend ω]

/-- A step of the engine thread. `jump` is every step that only moves the thread on. -/
inductive Move (g : Engine ω) : Engine ω → Prop
  | idle (hpc : g.pc = .exited) : Move g g
  | jump (pc : EnginePc) (halive : g.pc ≠ .exited) (hadmission : pc.admitBatch = g.pc.admitBatch)
      (hcancel : pc.cancelBatch = g.pc.cancelBatch) (hreap : pc.reapBatch = [])
      (hbetween : pc.betweenSwaps = true → g.pc.betweenSwaps = true)
      (hexit : pc = .exited → g.running = false ∧ (g.pc = .loopTest ∨ g.pc = .awake)) :
      Move g { g with pc := pc }
  | drainSubmissions (hpc : g.pc = .drainSubmissions) :
      Move g { g with pc := .admitting g.pendingSubmissions, pendingSubmissions := [] }
  | admission {sub : Submission} {rest : List Submission} {q : Request} {w : ω}
      (hpc : g.pc = .admitting (sub :: rest)) (hq : sub.Queued q)
      (hcode : g.admitSubmission sub = .ok { g with
        scheduler := g.scheduler.admitted q w
        active := g.active.emplace sub.id ⟨g.owned, sub.channel, 0, none⟩ }) :
      Move g { g with
        scheduler := g.scheduler.admitted q w
        active := g.active.emplace sub.id ⟨g.owned, sub.channel, 0, none⟩
        pc := .admitting rest }
  | drainCancels (hpc : g.pc = .drainCancels) :
      Move g { g with pc := .cancelling g.pendingCancels, pendingCancels := [] }
  | cancelInactive {id : RequestId} {rest : List RequestId} {t : FifoScheduler ω}
      (hpc : g.pc = .cancelling (id :: rest)) (hcancel : g.scheduler.cancel id = .ok t)
      (he : g.active.find id = none) :
      Move g { g with scheduler := t, handled := g.handled ++ [id], pc := .cancelling rest }
  | cancelActive {id : RequestId} {rest : List RequestId} {t : FifoScheduler ω} {e : ActiveEntry}
      (hpc : g.pc = .cancelling (id :: rest)) (hcancel : g.scheduler.cancel id = .ok t)
      (he : g.active.find id = some e) :
      Move g { ({ g with scheduler := t, handled := g.handled ++ [id] }.closeEntry id e .cancel) with
        pc := .cancelling rest }
  | tick {done : FifoScheduler ω × TickReport} (hpc : g.pc = .tick)
      (htick : g.scheduler.tick = .ok done) :
      Move g { g with scheduler := done.1, pc := .pushTokens g.active.keys }
  | push {id : RequestId} {todo : List RequestId} {e : ActiveEntry} {tokenId : UInt32}
      (steadyNow : TimePoint) (hpc : g.pc = .pushing id todo) (he : g.active.find id = some e)
      (hunseen : e.lastSeenTokens < (g.scheduler.request e.request).outputTokensEmitted)
      (htoken : (g.scheduler.request e.request).outputTokenIds[e.lastSeenTokens]? = some tokenId) :
      Move g (g.pushEvent id e
        ⟨tokenId, finishReason (g.scheduler.request e.request) e.lastSeenTokens⟩ todo steadyNow)
  | expel {id : RequestId} {toCancel : List RequestId} {t : FifoScheduler ω} {e : ActiveEntry}
      (hpc : g.pc = .expelling toCancel) (hid : id ∈ toCancel)
      (hcancel : g.scheduler.cancel id = .ok t) (he : g.active.find id = some e) :
      Move g { ({ g with scheduler := t }.closeEntry id e .backpressure) with
        pc := .expelling (toCancel.erase id) }
  | reapTerminal (hpc : g.pc = .reapTerminal) :
      Move g { g with pc := .reaping (g.select g.isDelivered) }
  | reap {id : RequestId} {toReap : List RequestId} {e : ActiveEntry}
      (hpc : g.pc = .reaping toReap) (hid : id ∈ toReap) (he : g.active.find id = some e) :
      Move g { (g.closeEntry id e .reap) with pc := .reaping (toReap.erase id) }

variable {g g' : Engine ω} {id : RequestId}

theorem mem_of_pick {todo : List RequestId} {choice : Nat} (h : pick todo choice = some id) :
    id ∈ todo := List.mem_of_getElem? h

theorem expel_ok (h : g.expel id = .ok g') :
    ∃ e t, g.scheduler.cancel id = .ok t ∧ g.active.find id = some e ∧
      g' = { g with scheduler := t }.closeEntry id e .backpressure := by
  obtain ⟨t, ht, h⟩ := bind_eq_ok.mp h
  simp only at h
  cases he : g.active.find id with
  | none =>
      rw [he] at h
      cases h
  | some e =>
      rw [he] at h
      cases h
      exact ⟨e, t, ht, rfl, rfl⟩

theorem cancelRequest_ok (h : g.cancelRequest id = .ok g') :
    ∃ t, g.scheduler.cancel id = .ok t ∧
      ((g.active.find id = none ∧ g' = { g with scheduler := t, handled := g.handled ++ [id] }) ∨
        ∃ e, g.active.find id = some e ∧
          g' = { g with scheduler := t, handled := g.handled ++ [id] }.closeEntry id e .cancel) := by
  obtain ⟨t, ht, h⟩ := bind_eq_ok.mp h
  refine ⟨t, ht, ?_⟩
  simp only at h
  cases he : g.active.find id with
  | none =>
      rw [he] at h
      cases h
      exact .inl ⟨rfl, rfl⟩
  | some e =>
      rw [he] at h
      cases h
      exact .inr ⟨e, rfl, rfl⟩

/-- A jump from a known position. -/
theorem Move.jumpFrom {pc₀ : EnginePc} (hpc : g.pc = pc₀) (pc : EnginePc) (halive : pc₀ ≠ .exited)
    (hadmission : pc.admitBatch = pc₀.admitBatch) (hcancel : pc.cancelBatch = pc₀.cancelBatch)
    (hreap : pc.reapBatch = []) (hbetween : pc.betweenSwaps = true → pc₀.betweenSwaps = true)
    (hexit : pc = .exited → g.running = false ∧ (pc₀ = .loopTest ∨ pc₀ = .awake)) :
    Move g { g with pc := pc } := by
  subst hpc
  exact .jump pc halive hadmission hcancel hreap hbetween hexit

/-- Every step of the engine thread is a move. -/
theorem engineStep_move {choice : Nat} {steadyNow : TimePoint}
    (h : g.engineStep choice steadyNow = .ok g') : Move g g' := by
  unfold engineStep at h
  cases hpc : g.pc with
  | exited =>
      rw [hpc] at h
      cases h
      exact .idle hpc
  | loopTest =>
      rw [hpc] at h
      simp only at h
      by_cases hrunning : g.running = true
      · rw [if_pos hrunning] at h
        cases h
        exact .jumpFrom hpc _ nofun rfl rfl rfl nofun nofun
      · rw [if_neg hrunning] at h
        cases h
        exact .jumpFrom hpc _ nofun rfl rfl rfl nofun
          (fun _ => ⟨Bool.eq_false_iff.mpr hrunning, .inl rfl⟩)
  | awake =>
      rw [hpc] at h
      simp only at h
      by_cases hrunning : g.running = true
      · rw [if_pos hrunning] at h
        cases h
        exact .jumpFrom hpc _ nofun rfl rfl rfl nofun nofun
      · rw [if_neg hrunning] at h
        cases h
        exact .jumpFrom hpc _ nofun rfl rfl rfl nofun
          (fun _ => ⟨Bool.eq_false_iff.mpr hrunning, .inr rfl⟩)
  | drainSubmissions =>
      rw [hpc] at h
      cases h
      exact .drainSubmissions hpc
  | admitting batch =>
      rw [hpc] at h
      cases batch with
      | nil =>
          cases h
          exact .jumpFrom hpc _ nofun rfl rfl rfl (fun _ => rfl) nofun
      | cons sub rest =>
          obtain ⟨q, w, hq, hadmission⟩ := admitSubmission_eq g sub
          simp only at h
          rw [hadmission] at h
          cases h
          exact .admission hpc hq hadmission
  | drainCancels =>
      rw [hpc] at h
      cases h
      exact .drainCancels hpc
  | cancelling batch =>
      rw [hpc] at h
      cases batch with
      | nil =>
          cases h
          exact .jumpFrom hpc _ nofun rfl rfl rfl nofun nofun
      | cons id rest =>
          obtain ⟨u, hu, h⟩ := bind_eq_ok.mp h
          cases h
          obtain ⟨t, ht, hu⟩ := cancelRequest_ok hu
          rcases hu with ⟨he, rfl⟩ | ⟨e, he, rfl⟩
          · exact .cancelInactive hpc ht he
          · exact .cancelActive hpc ht he
  | tick =>
      rw [hpc] at h
      simp only at h
      split_ifs at h with hempty
      · cases h
        exact .jumpFrom hpc _ nofun rfl rfl rfl nofun nofun
      · obtain ⟨done, hdone, h⟩ := bind_eq_ok.mp h
        cases h
        exact .tick hpc hdone
  | pushTokens todo =>
      rw [hpc] at h
      simp only at h
      split at h
      · cases h
        exact .jumpFrom hpc _ nofun rfl rfl rfl nofun nofun
      · cases h
        exact .jumpFrom hpc _ nofun rfl rfl rfl nofun nofun
  | pushing id todo =>
      rw [hpc] at h
      rcases pushToken_ok h with ⟨rfl, -⟩ | ⟨e, tokenId, he, hunseen, htoken, rfl⟩
      · exact .jumpFrom hpc _ nofun rfl rfl rfl nofun nofun
      · exact .push steadyNow hpc he hunseen htoken
  | checkBackpressure =>
      rw [hpc] at h
      cases h
      exact .jumpFrom hpc _ nofun rfl rfl rfl nofun nofun
  | expelling toCancel =>
      rw [hpc] at h
      simp only at h
      split at h
      · cases h
        exact .jumpFrom hpc _ nofun rfl rfl rfl nofun nofun
      · rename_i id hpick
        obtain ⟨u, hu, h⟩ := bind_eq_ok.mp h
        obtain ⟨e, t, ht, he, rfl⟩ := expel_ok hu
        cases h
        exact .expel hpc (mem_of_pick hpick) ht he
  | reapTerminal =>
      rw [hpc] at h
      cases h
      exact .reapTerminal hpc
  | reaping toReap =>
      rw [hpc] at h
      simp only at h
      split at h
      · cases h
        exact .jumpFrom hpc _ nofun rfl rfl rfl nofun nofun
      · rename_i id hpick
        obtain ⟨u, hu, h⟩ := bind_eq_ok.mp h
        obtain ⟨e, he, rfl⟩ := reap_ok hu
        cases h
        exact .reap hpc (mem_of_pick hpick) he

end Moves

/-! ### Steps from outside -/

namespace Outside

variable {g g' : Engine ω}

theorem refl (g : Engine ω) : Outside g g :=
  ⟨⟨_, rfl⟩, rfl, rfl, rfl, ⟨[], (List.append_nil _).symm, (List.append_nil _).symm⟩,
    ⟨[], (List.append_nil _).symm, (List.append_nil _).symm⟩, fun _ h => h, .inl rfl, .inl⟩

/-- Only the control flags, the calls of `submit` under way or the channels change. -/
theorem control (running stopping stopped : Bool) (entering : List Submission)
    {channels : ChannelPtr → TokenChannel}
    (hclosed : ∀ c, (g.channels c).closed = true → (channels c).closed = true) :
    Outside g { g with
      running := running
      stopping := stopping
      entering := entering
      channels := channels
      stopped := stopped } :=
  ⟨⟨_, rfl⟩, rfl, rfl, rfl, ⟨[], (List.append_nil _).symm, (List.append_nil _).symm⟩,
    ⟨[], (List.append_nil _).symm, (List.append_nil _).symm⟩, hclosed, .inl rfl, .inl⟩

/-- What reads the same at a thread that has left its loop and at one that is started reads the same
after a step from outside. -/
theorem pc_same (h : Outside g g') (hthread : g.joinable = false → g.pc = .exited) {α : Type}
    {f : EnginePc → α} (hf : f .loopTest = f .exited) : f g'.pc = f g.pc := by
  rcases h.pc with hpc | ⟨hfree, hpc, -⟩
  · rw [hpc]
  · rw [hpc, hthread hfree, hf]

end Outside

section Step

variable [Clock ω] [InferenceBackend ω] [Environment ω] {g g' : Engine ω} {a : EngineAction ω}

/-- Every step is a move of the engine thread or comes from outside. -/
theorem step_cases (h : g.step a = .ok g') :
    Outside g g' ∨ ∃ choice steadyNow, a = .engine choice steadyNow ∧ Move g g' := by
  unfold step at h
  cases a with
  | start =>
      simp only at h
      split_ifs at h with hrunning hjoinable
      · cases h
        exact .inl (.refl g)
      · cases h
        have hfree : g.joinable = false := Bool.eq_false_iff.mpr hjoinable
        exact .inl ⟨⟨_, rfl⟩, rfl, rfl, rfl, ⟨[], (List.append_nil _).symm, (List.append_nil _).symm⟩,
          ⟨[], (List.append_nil _).symm, (List.append_nil _).symm⟩, fun _ h => h,
          .inr ⟨hfree, rfl, rfl⟩, nofun⟩
  | stop =>
      cases h
      split_ifs
      · exact .inl (.control _ _ _ _ (fun _ h => h))
      · exact .inl (.control _ _ _ _ (fun _ h => h))
  | join =>
      cases h
      split_ifs with hjoin
      · exact .inl ⟨⟨_, rfl⟩, rfl, rfl, rfl, ⟨[], (List.append_nil _).symm, (List.append_nil _).symm⟩,
          ⟨[], (List.append_nil _).symm, (List.append_nil _).symm⟩, fun _ h => h, .inl rfl,
          fun _ => .inr hjoin.2⟩
      · exact .inl (.refl g)
  | submit sub =>
      cases h
      split_ifs
      · exact .inl (.control _ _ _ _ (fun _ h => h))
      · exact .inl (.refl g)
  | push k =>
      simp only at h
      split at h
      · cases h
        exact .inl (.refl g)
      · rename_i sub _
        cases h
        exact .inl ⟨⟨_, rfl⟩, rfl, rfl, rfl, ⟨[sub], rfl, rfl⟩,
          ⟨[], (List.append_nil _).symm, (List.append_nil _).symm⟩, fun _ h => h, .inl rfl, .inl⟩
  | cancel id =>
      cases h
      exact .inl ⟨⟨_, rfl⟩, rfl, rfl, rfl, ⟨[], (List.append_nil _).symm, (List.append_nil _).symm⟩,
        ⟨[id], rfl, rfl⟩, fun _ h => h, .inl rfl, .inl⟩
  | pop channel =>
      simp only at h
      split at h
      · cases h
        exact .inl (.refl g)
      · rename_i event rest hpop
        cases h
        refine .inl (.control _ _ _ _ (fun c hc => ?_))
        rw [Function.update_apply]
        split_ifs with heq
        · rw [TokenChannel.closed_pop hpop, ← heq]
          exact hc
        · exact hc
  | close channel =>
      cases h
      refine .inl (.control _ _ _ _ (fun c hc => ?_))
      rw [Function.update_apply]
      split_ifs
      · rfl
      · exact hc
  | event e =>
      obtain ⟨w, -, h⟩ := bind_eq_ok.mp h
      cases h
      exact .inl ⟨⟨w, rfl⟩, rfl, rfl, rfl, ⟨[], (List.append_nil _).symm, (List.append_nil _).symm⟩,
        ⟨[], (List.append_nil _).symm, (List.append_nil _).symm⟩, fun _ h => h, .inl rfl, .inl⟩
  | engine choice steadyNow => exact .inr ⟨choice, steadyNow, rfl, engineStep_move h⟩

end Step

end Engine

end Tokamak
