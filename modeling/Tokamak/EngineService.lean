import Tokamak.EngineAnswers
import Tokamak.EngineBackpressure
import Tokamak.EngineDelivery
import Tokamak.EngineLoop

/-! Complete service. A consumer whose channel has room for the whole budget of its request need not
keep up with the engine, it need not even read: no push is refused, so the timer of its entry never
starts, and the pass that ends the request also sends its last token and closes the channel. -/

open Outcome

namespace Tokamak

/-- The positions at which there is nothing to send. -/
def EnginePc.betweenPasses : EnginePc → Bool
  | .exited => true
  | .loopTest => true
  | .awake => true
  | .drainSubmissions => true
  | .admitting _ => true
  | .drainCancels => true
  | .cancelling _ => true
  | .tick => true
  | _ => false

namespace Engine

variable {ω : Type} {g g' : Engine ω} {sub : Submission} {capacity : Nat}

/-- The id and the channel of the submission are used for nothing else, and the id is not cancelled. -/
structure Sole (sub : Submission) (g : Engine ω) : Prop where
  ids : g.DistinctIds
  channels : g.DistinctChannels
  byId : ∀ sub' ∈ g.accepted, sub'.id = sub.id → sub' = sub
  byChannel : ∀ sub' ∈ g.accepted, sub'.channel = sub.channel → sub' = sub
  uncancelled : sub.id ∉ g.cancels

/-- The channel of the submission is used by the engine alone and holds no more than was delivered;
requests keep within their budgets. -/
structure Roomy (sub : Submission) (capacity : Nat) (g : Engine ω) : Prop where
  fifo : ∃ events, (g.conveyed sub.channel events).Fifo capacity
  closed : (g.channels sub.channel).closed = true → ∃ closer, .close sub.channel closer ∈ g.calls
  spared : .close sub.channel .backpressure ∉ g.calls
  budget : ∀ i sub', i < g.owned → g.accepted[i]? = some sub' →
    (g.scheduler.request i).maxOutputTokens = sub'.maxTokens ∧
      (g.scheduler.request i).outputTokensEmitted ≤ sub'.maxTokens

/-- The entry of the submission, if it has one: its timer does not run, so it is not going to be
expelled, and between two passes its request is live. -/
structure Attended (id : RequestId) (g : Engine ω) : Prop where
  timer : ∀ e, g.active.find id = some e → e.backpressureSince = none
  kept : id ∉ g.pc.expelBatch
  live : g.pc.betweenPasses = true → ∀ e, g.active.find id = some e →
    (g.scheduler.state e.request).isTerminal = false

theorem Sole.of_isPrefix (h : Sole sub g') (haccepted : g.accepted <+: g'.accepted)
    (hcancels : g.cancels <+: g'.cancels) : Sole sub g where
  ids := h.ids.of_isPrefix haccepted
  channels := h.channels.of_isPrefix haccepted
  byId sub' hmem := h.byId sub' (haccepted.subset hmem)
  byChannel sub' hmem := h.byChannel sub' (haccepted.subset hmem)
  uncancelled hmem := h.uncancelled (hcancels.subset hmem)

/-- The entry under the submission's id is the submission's. -/
theorem Sole.entry (h : Sole sub g) (hg : Ledger g) {e : ActiveEntry}
    (he : g.active.find sub.id = some e) :
    g.accepted[e.request]? = some sub ∧ e.channel = sub.channel := by
  obtain ⟨hlt, hkey, sub', hsub', hchannel⟩ := hg.entry sub.id e he
  have hid := (hg.requestId e.request sub' hlt hsub').symm.trans hkey
  have hsame := h.byId sub' (List.mem_of_getElem? hsub') hid
  subst hsame
  exact ⟨hsub', hchannel.symm⟩

/-- The entry under another id streams to another channel. -/
theorem Sole.channel_ne (h : Sole sub g) (hg : Ledger g) {id : RequestId} {e : ActiveEntry}
    (he : g.active.find id = some e) (hid : id ≠ sub.id) : e.channel ≠ sub.channel := by
  obtain ⟨hlt, hkey, sub', hsub', hchannel⟩ := hg.entry id e he
  intro hsame
  have heq := h.byChannel sub' (List.mem_of_getElem? hsub') (hchannel.trans hsame)
  rw [hg.requestId e.request sub' hlt hsub', heq] at hkey
  exact hid hkey.symm

/-- **A push to a roomy channel is accepted.** -/
theorem Roomy.accepts (h : Roomy sub capacity g) (hroom : sub.maxTokens ≤ capacity) (hsole : Sole sub g)
    (hg : Ledger g) (hstreams : Streams g) {e : ActiveEntry} (he : g.active.find sub.id = some e)
    (hbehind : g.Behind e) : (g.channels e.channel).refuses = false := by
  obtain ⟨hsub, hchannel⟩ := hsole.entry hg he
  obtain ⟨hlt, -⟩ := hg.entry sub.id e he
  obtain ⟨events, hfifo⟩ := h.fifo
  have hopen : (g.channels sub.channel).closed = false := by
    refine Bool.eq_false_iff.mpr (fun hclosed => ?_)
    obtain ⟨closer, hcall⟩ := h.closed hclosed
    exact hstreams.unclosed sub.id e he closer (hchannel ▸ hcall)
  have hcapacity : (g.channels sub.channel).capacity = capacity := hfifo.capacity_eq
  have hsize : (g.channels sub.channel).size ≤ e.lastSeenTokens := by
    have horder := congrArg List.length hfifo.order
    have hdelivered := congrArg List.length (hstreams.cursor sub.id e he).2
    rw [hchannel, deliveredIds, List.length_map, List.length_take] at hdelivered
    change (events ++ (g.channels sub.channel).buffer).length = (g.delivered sub.channel).length
      at horder
    rw [List.length_append] at horder
    unfold TokenChannel.size
    omega
  have hbudget := (h.budget e.request sub hlt hsub).2
  rw [hchannel, TokenChannel.refuses, hopen, Bool.false_or, decide_eq_false_iff_not, not_le, hcapacity]
  unfold Behind at hbehind
  omega

theorem Roomy.new (sub : Submission) (w : ω) (timeout : Duration) {channels : ChannelPtr → TokenChannel}
    (hfresh : channels sub.channel = .new capacity) :
    Roomy sub capacity (new w timeout channels) where
  fifo := by
    refine ⟨[], ?_⟩
    change ChannelHistory.Fifo capacity ⟨channels sub.channel, [], []⟩
    rw [hfresh]
    exact ChannelHistory.fifo_start capacity
  closed hclosed := by
    change (channels sub.channel).closed = true at hclosed
    rw [hfresh] at hclosed
    cases hclosed
  spared hcall := by cases hcall
  budget i sub' hi := absurd hi (Nat.not_lt_zero i)

theorem Attended.new (id : RequestId) (w : ω) (timeout : Duration)
    (channels : ChannelPtr → TokenChannel) : Attended id (new w timeout channels) where
  timer e he := by simp [Engine.new] at he
  kept := List.not_mem_nil
  live _ e he := by simp [Engine.new] at he

/-- Everything there is to say about the engine while it serves the submission. -/
structure InService (sub : Submission) (capacity : Nat) (g : Engine ω) : Prop where
  streams : Streams g
  reaped : Reaped g
  handled : CancelsHandled g
  timed : ∃ past, Timed past g
  roomy : Roomy sub capacity g
  attended : Attended sub.id g

theorem InService.new (sub : Submission) (w : ω) (timeout : Duration)
    {channels : ChannelPtr → TokenChannel} (hfresh : channels sub.channel = .new capacity) :
    InService sub capacity (new w timeout channels) :=
  ⟨.new w timeout channels, .new w timeout channels, .new w timeout channels,
    ⟨[], .new w timeout channels⟩, .new sub w timeout hfresh, .new sub.id w timeout channels⟩

/-- Between two passes a request that has ended has been reaped. -/
theorem InService.reaped_of_terminal (h : InService sub capacity g) (hg : Books g)
    (hsole : Sole sub g) (hpc : g.pc.betweenPasses = true) {i : Nat} (hi : i < g.owned)
    (hsub : g.accepted[i]? = some sub) (hterminal : (g.scheduler.state i).isTerminal = true) :
    .close sub.channel .reap ∈ g.calls := by
  rcases hg.settled i sub hi hsub with ⟨id, e, he, hrequest⟩ | ⟨-, hclosed⟩
  · have hkey := (hg.entry id e he).2.1
    rw [hrequest, hg.requestId i sub hi hsub] at hkey
    subst hkey
    have hlive := h.attended.live hpc e he
    rw [hrequest, hterminal] at hlive
    cases hlive
  · obtain ⟨closer, hcall⟩ := h.roomy.closed hclosed
    cases closer with
    | cancel =>
        obtain ⟨j, sub', hsub', hchannel, hmem⟩ := h.handled sub.channel hcall
        rw [hsole.byChannel sub' (List.mem_of_getElem? hsub') hchannel] at hmem
        refine absurd ?_ hsole.uncancelled
        rw [hg.cancelled]
        exact List.mem_append_left _ (List.mem_append_left _ hmem)
    | backpressure => exact absurd hcall h.roomy.spared
    | reap => exact hcall

section Steps

variable [Clock ω] [InferenceBackend ω]

/-- Nobody is expelled but the entries whose timer has run out. -/
theorem Move.spared (h : Move g g') (hg : Ledger g) (hsole : Sole sub g)
    (hkept : sub.id ∉ g.pc.expelBatch) (hspared : .close sub.channel .backpressure ∉ g.calls) :
    .close sub.channel .backpressure ∉ g'.calls := by
  intro hcall
  cases h with
  | @expel id toCancel t e hpc hid hcancel he =>
      rcases List.mem_append.mp hcall with hcall | hcall
      · exact hspared hcall
      · rw [hpc] at hkept
        have hne : id ≠ sub.id := fun h => hkept (h ▸ hid)
        have hsame := (ChannelCall.close.inj (List.mem_singleton.mp hcall)).1
        exact hsole.channel_ne hg he hne hsame.symm
  | cancelActive =>
      rcases List.mem_append.mp hcall with hcall | hcall
      · exact hspared hcall
      · cases (ChannelCall.close.inj (List.mem_singleton.mp hcall)).2
  | reap =>
      rcases List.mem_append.mp hcall with hcall | hcall
      · exact hspared hcall
      · cases (ChannelCall.close.inj (List.mem_singleton.mp hcall)).2
  | @push id todo e tokenId steadyNow =>
      obtain ⟨e', channels, pc, -, -, -, -, -, heq⟩ := pushEvent_eq g id e
        ⟨tokenId, finishReason (g.scheduler.request e.request) e.lastSeenTokens⟩ todo steadyNow
      rw [heq] at hcall
      exact hspared (close_mem_of_push hcall)
  | _ => exact hspared hcall

/-- The timer of an entry whose pushes are accepted does not start. -/
theorem Move.timer (h : Move g g') (hsafe : AdmitSafe g) {id : RequestId}
    (haccepts : ∀ e, g.active.find id = some e → g.Behind e →
      (g.channels e.channel).refuses = false)
    (htimer : ∀ e, g.active.find id = some e → e.backpressureSince = none) :
    ∀ e, g'.active.find id = some e → e.backpressureSince = none := by
  intro e he
  have herased : ∀ a, FinMap.find (g.active.erase a) id = some e → e.backpressureSince = none := by
    intro a ha
    rw [FinMap.find_erase] at ha
    split_ifs at ha
    exact htimer e ha
  cases h with
  | @admission sub' rest q w hpc hq =>
      change FinMap.find (g.active.emplace sub'.id ⟨g.owned, sub'.channel, 0, none⟩) id = some e at he
      rw [FinMap.emplace_of_notMem (hsafe sub' rest hpc), FinMap.find_insert] at he
      split_ifs at he
      · cases he
        rfl
      · exact htimer e he
  | cancelActive => exact herased _ he
  | expel => exact herased _ he
  | reap => exact herased _ he
  | @push a todo e' tokenId steadyNow hpc hfind hunseen =>
      rw [pushEvent_active, FinMap.find_replace (FinMap.mem_of_find hfind)] at he
      split_ifs at he with ha hrefuses
      · subst ha
        rw [haccepts e' hfind hunseen] at hrefuses
        cases hrefuses
      · cases he
        rfl
      · exact htimer e he
  | _ => exact htimer e he

/-- Whoever is going to be expelled was overdue; and what comes between two passes begins at the top of
the loop. -/
theorem engineStep_pass {choice : Nat} {steadyNow : TimePoint}
    (h : g.engineStep choice steadyNow = .ok g') :
    (∀ id ∈ g'.pc.expelBatch, id ∈ g.pc.expelBatch ∨
      ∃ e, g.active.find id = some e ∧ g.isOverdue steadyNow e = true) ∧
    (g'.pc.betweenPasses = true → g.pc.betweenPasses = true ∨ g'.pc = .loopTest) := by
  unfold engineStep at h
  cases hpc : g.pc with
  | pushTokens todo =>
      rw [hpc] at h
      simp only at h
      split at h
      · cases h
        exact ⟨fun id hid => absurd hid List.not_mem_nil, fun hbetween => by cases hbetween⟩
      · cases h
        exact ⟨fun id hid => absurd hid List.not_mem_nil, fun hbetween => by cases hbetween⟩
  | pushing id todo =>
      rw [hpc] at h
      rcases pushToken_ok h with ⟨rfl, -⟩ | ⟨e, tokenId, -, -, -, rfl⟩
      · exact ⟨fun id hid => absurd hid List.not_mem_nil, fun hbetween => by cases hbetween⟩
      · rw [pushEvent_pc, hpc]
        split_ifs
        · exact ⟨fun id hid => absurd hid List.not_mem_nil, fun hbetween => by cases hbetween⟩
        · exact ⟨fun id hid => absurd hid List.not_mem_nil, fun hbetween => by cases hbetween⟩
  | checkBackpressure =>
      rw [hpc] at h
      cases h
      refine ⟨fun id hid => .inr ?_, fun hbetween => by cases hbetween⟩
      have hoverdue := List.of_mem_filter (show id ∈ g.select (g.isOverdue steadyNow) from hid)
      exact (Option.any_eq_true _ _).mp hoverdue
  | expelling toCancel =>
      rw [hpc] at h
      simp only at h
      split at h
      · cases h
        exact ⟨fun id hid => absurd hid List.not_mem_nil, fun hbetween => by cases hbetween⟩
      · obtain ⟨u, -, h⟩ := bind_eq_ok.mp h
        cases h
        exact ⟨fun id hid => .inl (List.mem_of_mem_erase hid), fun hbetween => by cases hbetween⟩
  | reapTerminal =>
      rw [hpc] at h
      cases h
      exact ⟨fun id hid => absurd hid List.not_mem_nil, fun hbetween => by cases hbetween⟩
  | reaping toReap =>
      rw [hpc] at h
      simp only at h
      split at h
      · cases h
        exact ⟨fun id hid => absurd hid List.not_mem_nil, fun _ => .inr rfl⟩
      · obtain ⟨u, -, h⟩ := bind_eq_ok.mp h
        cases h
        exact ⟨fun id hid => absurd hid List.not_mem_nil, fun hbetween => by cases hbetween⟩
  | loopTest =>
      rw [hpc] at h
      cases h
      refine ⟨fun id hid => ?_, fun _ => .inl rfl⟩
      split_ifs at hid
      · cases hid
      · cases hid
  | awake =>
      rw [hpc] at h
      cases h
      refine ⟨fun id hid => ?_, fun _ => .inl rfl⟩
      split_ifs at hid
      · cases hid
      · cases hid
  | admitting batch =>
      rw [hpc] at h
      refine ⟨fun id hid => ?_, fun _ => .inl rfl⟩
      cases batch with
      | nil =>
          cases h
          cases hid
      | cons sub' rest =>
          obtain ⟨u, -, h⟩ := bind_eq_ok.mp h
          cases h
          cases hid
  | cancelling batch =>
      rw [hpc] at h
      refine ⟨fun id hid => ?_, fun _ => .inl rfl⟩
      cases batch with
      | nil =>
          cases h
          cases hid
      | cons a rest =>
          obtain ⟨u, -, h⟩ := bind_eq_ok.mp h
          cases h
          cases hid
  | tick =>
      rw [hpc] at h
      simp only at h
      refine ⟨fun id hid => ?_, fun _ => .inl rfl⟩
      split_ifs at h
      · cases h
        cases hid
      · obtain ⟨done, -, h⟩ := bind_eq_ok.mp h
        cases h
        cases hid
  | exited =>
      rw [hpc] at h
      cases h
      exact ⟨fun id hid => .inl (hpc ▸ hid), fun _ => .inl rfl⟩
  | _ =>
      rw [hpc] at h
      cases h
      exact ⟨fun id hid => absurd hid List.not_mem_nil, fun _ => .inl rfl⟩

/-- Between two passes nobody but a cancel ends a request, and the entry goes with it. -/
theorem Move.live (h : Move g g') (hg : Books g) (hsafe : AdmitSafe g) {id : RequestId}
    (hbefore : g.pc.betweenPasses = true) (hafter : g'.pc.betweenPasses = true)
    (hlive : ∀ e, g.active.find id = some e → (g.scheduler.state e.request).isTerminal = false) :
    ∀ e, g'.active.find id = some e → (g'.scheduler.state e.request).isTerminal = false := by
  intro e he
  cases h with
  | @admission sub' rest q w hpc hq =>
      change FinMap.find (g.active.emplace sub'.id ⟨g.owned, sub'.channel, 0, none⟩) id = some e at he
      change ((g.scheduler.admitted q w).request e.request).state.isTerminal = false
      rw [FinMap.emplace_of_notMem (hsafe sub' rest hpc), FinMap.find_insert] at he
      split_ifs at he
      · cases he
        change ((g.scheduler.admitted q w).request g.scheduler.requests.size).state.isTerminal = false
        rw [FifoScheduler.request_admitted_self, hq.state]
        rfl
      · rw [FifoScheduler.request_admitted_of_lt g.scheduler q w (hg.entry id e he).1]
        exact hlive e he
  | @cancelInactive a rest t hpc hcancel hnone =>
      rw [hg.cancel_inactive hnone] at hcancel
      cases hcancel
      exact hlive e he
  | @cancelActive a rest t e' hpc hcancel hfind =>
      have hfind' : FinMap.find (g.active.erase a) id = some e := he
      rw [FinMap.find_erase] at hfind'
      split_ifs at hfind' with hne
      have hkey := (hg.entry id e hfind').2.1
      rcases (FifoScheduler.cancel_cancelled hg.partition hcancel).request e.request with heq | ⟨-, hid, -⟩
      · change (t.request e.request).state.isTerminal = false
        rw [heq]
        exact hlive e hfind'
      · exact absurd (hkey.symm.trans hid) hne
  | tick => cases hafter
  | push steadyNow hpc =>
      rw [hpc] at hbefore
      cases hbefore
  | expel => cases hafter
  | reapTerminal => cases hafter
  | reap => cases hafter
  | _ => exact hlive e he

variable [Environment ω]

/-- Cancels are never taken back. -/
theorem step_cancels {a : EngineAction ω} (h : g.step a = .ok g') : g.cancels <+: g'.cancels := by
  rcases step_cases h with houtside | ⟨choice, steadyNow, -, hmove⟩
  · obtain ⟨ids, hcancels, -⟩ := houtside.cancels
    exact hcancels ▸ List.prefix_append _ _
  · cases hmove with
    | @push id todo e tokenId steadyNow =>
        obtain ⟨e', channels, pc, -, -, -, -, -, heq⟩ := pushEvent_eq g id e
          ⟨tokenId, finishReason (g.scheduler.request e.request) e.lastSeenTokens⟩ todo steadyNow
        rw [heq]
    | _ => exact List.prefix_refl _

theorem Attended.step (h : Attended sub.id g) (hg : Books g) (hsafe : AdmitSafe g)
    (hreaped : Reaped g') {past : List PushAttempt} (htimed : Timed past g')
    (haccepts : ∀ e, g.active.find sub.id = some e → g.Behind e →
      (g.channels e.channel).refuses = false)
    {a : EngineAction ω} (hstep : g.step a = .ok g') : Attended sub.id g' := by
  cases hengine : a.isEngine with
  | false =>
      have houtside := outside_of_client hstep hengine
      obtain ⟨w, hscheduler⟩ := houtside.world
      refine ⟨?_, ?_, ?_⟩
      · rw [houtside.active]
        exact h.timer
      · rw [houtside.pc_same hg.thread (f := EnginePc.expelBatch) rfl]
        exact h.kept
      · rw [houtside.pc_same hg.thread (f := EnginePc.betweenPasses) rfl, houtside.active, hscheduler]
        exact h.live
  | true =>
      cases a with
      | engine choice steadyNow =>
          have hengineStep : g.engineStep choice steadyNow = .ok g' := hstep
          have hmove := engineStep_move hengineStep
          obtain ⟨hexpel, hbetween⟩ := engineStep_pass hengineStep
          have htimer := hmove.timer hsafe haccepts h.timer
          refine ⟨htimer, fun hid => ?_, fun hafter e he => ?_⟩
          · rcases hexpel _ hid with hold | ⟨e, he, hoverdue⟩
            · exact h.kept hold
            · unfold isOverdue at hoverdue
              rw [h.timer e he] at hoverdue
              cases hoverdue
          · rcases hbetween hafter with hbefore | htop
            · exact hmove.live hg hsafe hbefore hafter (h.live hbefore) e he
            · -- a pass has ended: what is terminal and sent is reaped, and everything is sent
              have hsent : ¬g'.Behind e := by
                intro hbehind
                have hset := htimed.waiting _ e he (by rw [htop]; exact List.not_mem_nil) hbehind
                rw [htimer e he] at hset
                cases hset
              refine Bool.eq_false_iff.mpr (fun hterminal => ?_)
              have hdelivered : g'.isDelivered e = true := by
                unfold isDelivered
                rw [hterminal, Bool.true_and]
                exact decide_eq_true (not_lt.mp hsent)
              have hmem := hreaped (by rw [htop]; rfl) _ e he hdelivered
              rw [htop] at hmem
              cases hmem
      | _ => cases hengine

variable [AlignedBackend ω]

theorem Roomy.step (h : Roomy sub capacity g) (hg : Books g) (hsole : Sole sub g)
    (hkept : sub.id ∉ g.pc.expelBatch) {a : EngineAction ω} (ha : a ≠ .close sub.channel)
    (hstep : g.step a = .ok g') : Roomy sub capacity g' := by
  obtain ⟨events, hfifo⟩ := h.fifo
  have hturns := step_conveyed hstep sub.channel events
  refine ⟨⟨events ++ g.handedOut sub.channel a, ?_⟩, ?_, ?_, ?_⟩
  · rw [hturns]
    exact ChannelHistory.play_inv (fun _ t hh => hh.turn t) hfifo _
  · intro hclosed
    have hplayed : ((g.conveyed sub.channel events).play (g.turnsOn sub.channel a)).channel.closed =
        true := by
      rw [← hturns]
      exact hclosed
    rcases (ChannelHistory.closed_play _ _).mp hplayed with hold | hturn
    · obtain ⟨closer, hcall⟩ := h.closed hold
      exact ⟨closer, (step_calls hstep).subset hcall⟩
    · rcases close_of_turn hstep hturn with heq | hcall
      · exact absurd heq ha
      · exact hcall
  · rcases step_cases hstep with houtside | ⟨choice, steadyNow, -, hmove⟩
    · rw [houtside.calls]
      exact h.spared
    · exact hmove.spared hg.toLedger hsole hkept h.spared
  · intro i sub' hi hsub'
    rcases step_cases hstep with houtside | ⟨choice, steadyNow, -, hmove⟩
    · obtain ⟨w, hscheduler⟩ := houtside.world
      obtain ⟨subs, haccepted, -⟩ := houtside.submissions
      unfold owned at hi
      rw [hscheduler] at hi ⊢
      rw [haccepted, List.getElem?_append_left (hi.trans_le hg.owned_le)] at hsub'
      exact h.budget i sub' hi hsub'
    · rw [hmove.accepted] at hsub'
      rcases hmove.request hg hsub' hi with ⟨hlt, hmoved⟩ | ⟨-, hq, -⟩
      · obtain ⟨hmax, hle⟩ := h.budget i sub' hlt hsub'
        refine ⟨hmoved.maxOutputTokens.trans hmax, hmoved.within.trans ?_⟩
        rw [hmax]
        exact max_le hle le_rfl
      · rw [hq.maxOutputTokens, hq.outputTokensEmitted]
        exact ⟨rfl, Nat.zero_le _⟩

theorem InService.step (h : InService sub capacity g) (hroom : sub.maxTokens ≤ capacity)
    (hg : Books g) (hsole : Sole sub g') {a : EngineAction ω} (ha : a ≠ .close sub.channel)
    (hstep : g.step a = .ok g') : InService sub capacity g' := by
  have hbefore := hsole.of_isPrefix (step_accepted hstep) (step_cancels hstep)
  have hsafe := hg.admitSafe hbefore.ids
  obtain ⟨-, hframe⟩ := hg.step hsafe hstep
  obtain ⟨past, htimed⟩ := h.timed
  have htimed' := htimed.step hg hbefore.ids hframe hstep
  have hreaped' := h.reaped.step hg hstep
  exact ⟨h.streams.step hg hsafe hbefore.channels hstep, hreaped', h.handled.step hg.toLedger hstep,
    ⟨_, htimed'⟩, h.roomy.step hg hbefore h.attended.kept ha hstep,
    h.attended.step hg hsafe hreaped' htimed'
      (fun e he hbehind => h.roomy.accepts hroom hbefore hg.toLedger h.streams he hbehind) hstep⟩

/-- While a submission is in service, the thread pays for its way to the close of the channel. -/
theorem delivery_pays (i : Nat) (sub : Submission) (most : Nat) (hroom : sub.maxTokens ≤ capacity) :
    Pays Engine.step (Sole sub) (fun u : Engine ω => Serving i sub most u ∧ InService sub capacity u)
      (fun u => .close sub.channel .reap ∈ u.calls)
      (fun a => a.isStop = false ∧ a ≠ .close sub.channel)
      (fun u => u.serviceWork i sub) (fun a => a.isEngine.toNat)
      (fun a => (5 * most + 1) * a.isPush.toNat + a.isCancel.toNat) where
  back _ _ _ hstep hsole := hsole.of_isPrefix (step_accepted hstep) (step_cancels hstep)
  keeps g a g' h hsole ha hstep :=
    ⟨h.1.step hsole.ids ha.1 hstep, h.2.step hroom h.1.books hsole ha.2 hstep⟩
  stays g a g' h hsole ha hgoal hstep := (step_calls hstep).subset hgoal
  pays g a g' h hsole ha hopen hstep := by
    refine .inr ?_
    obtain ⟨hserving, hservice⟩ := h
    have hbefore := hsole.of_isPrefix (step_accepted hstep) (step_cancels hstep)
    obtain ⟨-, hframe⟩ := hserving.books.step (hserving.books.admitSafe hbefore.ids) hstep
    cases hengine : a.isEngine with
    | false => exact hserving.client_adds hstep hengine
    | true =>
        cases a with
        | engine choice steadyNow =>
            refine (hserving.engineStep_pays hstep hframe (fun hpc hended => hopen ?_)).trans ?_
            · exact hservice.reaped_of_terminal hserving.books hbefore (by rw [hpc]; rfl) hended.1
                hserving.accepted hended.2
            · exact Nat.le_add_right _ _
        | _ => cases hengine

theorem run_inService {w : ω} {timeout : Duration} {channels : ChannelPtr → TokenChannel}
    {actions : List (EngineAction ω)} (hrun : run Engine.step (new w timeout channels) actions = .ok g)
    (hfresh : channels sub.channel = .new capacity) (hroom : sub.maxTokens ≤ capacity)
    (hsole : Sole sub g) (hopen : ∀ a ∈ actions, a ≠ .close sub.channel) :
    Books g ∧ InService sub capacity g := by
  have hback : ∀ (u : Engine ω) (a : EngineAction ω) u', u.step a = .ok u' → Sole sub u' →
      Sole sub u := fun _ _ _ hstep h => h.of_isPrefix (step_accepted hstep) (step_cancels hstep)
  have hkeeps : ∀ (u : Engine ω) (a : EngineAction ω) u', Books u ∧ InService sub capacity u →
      Sole sub u' → a ≠ .close sub.channel → u.step a = .ok u' →
      Books u' ∧ InService sub capacity u' := by
    intro u a u' hu hsole' ha hstep
    have hids := (hback u a u' hstep hsole').ids
    exact ⟨(hu.1.step (hu.1.admitSafe hids) hstep).1, hu.2.step hroom hu.1 hsole' ha hstep⟩
  have hstart : Books (new w timeout channels) ∧ InService sub capacity (new w timeout channels) :=
    ⟨Books.new w timeout channels, .new sub w timeout hfresh⟩
  have hend := run_good hback hkeeps hstart hopen hrun hsole
  exact hend

/-- **Complete service.** In every run with distinct ids and channels: if the channel of a submission was
fresh and has room for its budget, no client closes it, nobody cancels its id or stops the engine, then
after `serviceWork` steps of the engine thread, and a bounded number for each submission and each cancel
that comes meanwhile, the channel is closed and has received the whole output of its request, however
slowly its consumer and all others read. -/
theorem output_delivered (w : ω) (timeout : Duration) (channels : ChannelPtr → TokenChannel)
    (past : List (EngineAction ω)) (g : Engine ω)
    (hrun : run step (new w timeout channels) past = .ok g) (hrunning : g.running = true)
    (i : Nat) (sub : Submission) (hsub : g.accepted[i]? = some sub) (capacity : Nat)
    (hfresh : channels sub.channel = .new capacity) (hroom : sub.maxTokens ≤ capacity)
    (later : List (EngineAction ω)) (g' : Engine ω) (hlater : run step g later = .ok g')
    (hids : g'.DistinctIds) (hchannels : g'.DistinctChannels) (huncancelled : sub.id ∉ g'.cancels)
    (hopen : ∀ a ∈ past ++ later, a ≠ .close sub.channel) (hstop : ∀ a ∈ later, a.isStop = false)
    (hlong : g.serviceWork i sub + ((5 * g.ticksOwed i sub + 1) * later.countP EngineAction.isPush +
      later.countP EngineAction.isCancel) < later.countP EngineAction.isEngine) :
    (g'.scheduler.state i).isTerminal = true ∧ (g'.channels sub.channel).closed = true ∧
    ((new w timeout channels).received sub.channel (past ++ later) ++
      (g'.channels sub.channel).buffer).map (fun event => event.tokenId) =
        (g'.scheduler.request i).outputTokenIds := by
  have hsub' := getElem?_mono (run_accepted hlater) hsub
  have hsole : Sole sub g' := by
    refine ⟨hids, hchannels, fun sub' hmem hid => ?_, fun sub' hmem hchannel => ?_, huncancelled⟩
    · obtain ⟨j, hj⟩ := List.getElem?_of_mem hmem
      rw [hids.index_eq hj hsub' hid, hsub'] at hj
      exact (Option.some.inj hj).symm
    · obtain ⟨j, hj⟩ := List.getElem?_of_mem hmem
      rw [hchannels.index_eq hj hsub' hchannel, hsub'] at hj
      exact (Option.some.inj hj).symm
  have hpays := delivery_pays (ω := ω) i sub (g.ticksOwed i sub) hroom
  have hsole₁ := good_of_run hpays.back hlater hsole
  have hservice := run_inService hrun hfresh hroom hsole₁
    (fun a ha => hopen a (List.mem_append_left _ ha))
  have hserving : Serving i sub (g.ticksOwed i sub) g :=
    ⟨hservice.1, hsub, hrunning, run_awake w timeout channels hrun hrunning, le_rfl⟩
  have hallowed : ∀ a ∈ later, a.isStop = false ∧ a ≠ .close sub.channel :=
    fun a ha => ⟨hstop a ha, hopen a (List.mem_append_right _ ha)⟩
  have hreaped : .close sub.channel .reap ∈ g'.calls := by
    refine hpays.reached ⟨hserving, hservice.2⟩ hallowed hlater hsole ?_
    rw [sum_map_weights, sum_map_toNat]
    exact hlong
  obtain ⟨hserving', hservice'⟩ := hpays.run_keeps ⟨hserving, hservice.2⟩ hallowed hlater hsole
  have hwhole : run step (new w timeout channels) (past ++ later) = .ok g' := by
    rw [run_append, hrun]
    exact hlater
  obtain ⟨j, sub', hj, hjsub, hjchannel⟩ := hservice'.streams.untouched _ hreaped
  have hji := hchannels.index_eq hjsub hsub' hjchannel
  subst hji
  obtain ⟨hterminal, hids'⟩ := hservice'.streams.reaped j sub hj hsub' hreaped
  refine ⟨hterminal, ?_, ?_⟩
  · rcases hserving'.books.settled j sub hj hsub' with ⟨id, e, he, hrequest⟩ | ⟨-, hclosed⟩
    · obtain ⟨-, -, sub₁, hsub₁, hchannel₁⟩ := hserving'.books.entry id e he
      rw [hrequest, hsub'] at hsub₁
      cases hsub₁
      rw [hchannel₁] at hreaped
      exact absurd hreaped (hservice'.streams.unclosed id e he .reap)
    · exact hclosed
  · have horder : (new w timeout channels).received sub.channel (past ++ later) ++
        (g'.channels sub.channel).buffer = g'.delivered sub.channel := (run_fifo hwhole hfresh).order
    rw [horder]
    exact hids'

/-- Nobody reads, and the latecomer gets its token all the same. -/
theorem output_delivered_latecomer :
    ∃ g', run step idleEngine (submittedInPass ++ goingOn) = .ok g' ∧
      (g'.channels latecomer.channel).closed = true ∧
      (idleEngine.received latecomer.channel (submittedInPass ++ goingOn) ++
        (g'.channels latecomer.channel).buffer).map (fun event => event.tokenId) =
          (g'.scheduler.request 1).outputTokenIds := by
  obtain ⟨g, hrun, hview⟩ := exists_of_map_ok (x := run step idleEngine submittedInPass)
    (f := fun g => (g.running, g.accepted, g.serviceWork 1 latecomer, g.ticksOwed 1 latecomer))
    (b := (true, [manyTokens, latecomer], 38, 1)) (by decide +kernel)
  simp only [Prod.mk.injEq] at hview
  obtain ⟨hrunning, haccepted, hwork, howed⟩ := hview
  obtain ⟨g', hwhole, hview'⟩ := exists_of_map_ok
    (x := run step idleEngine (submittedInPass ++ goingOn))
    (f := fun g' => (g'.accepted.map fun sub => sub.id, g'.accepted.map fun sub => sub.channel,
      g'.cancels))
    (b := (["a", "b", "c"], [0, 1, 2], [])) (by decide +kernel)
  simp only [Prod.mk.injEq] at hview'
  obtain ⟨hids, hchannels, hcancels⟩ := hview'
  have hlater : run step g goingOn = .ok g' := by
    rw [run_append, hrun] at hwhole
    exact hwhole
  have hopen : ∀ a ∈ submittedInPass ++ goingOn, a ≠ .close latecomer.channel := by
    simp [submittedInPass, goingOn, engineSteps]
  have hpushes : goingOn.countP EngineAction.isPush = 1 := by decide
  have hsteps : goingOn.countP EngineAction.isEngine = 70 := by decide
  have hnone : goingOn.countP EngineAction.isCancel = 0 := by decide
  obtain ⟨-, hclosed, houtput⟩ := output_delivered (MockBackend.new ⟨0⟩ 1 5) 100 (fun _ => .new 4)
    submittedInPass g hrun hrunning 1 latecomer (by rw [haccepted]; rfl) 4 rfl (by decide) goingOn g'
    hlater (by rw [DistinctIds, hids]; decide) (by rw [DistinctChannels, hchannels]; decide)
    (by rw [hcancels]; exact List.not_mem_nil) hopen (by decide)
    (by rw [hwork, howed, hpushes, hnone, hsteps]; decide)
  exact ⟨g', hwhole, hclosed, houtput⟩

end Steps

end Engine

end Tokamak
