import Tokamak.EngineStream

/-! Finish reasons. The engine decides on the reason when it sends the last token of a terminal
request, and asks only whether the state is terminal. A request that is completed has emitted a token
in that very tick, so its last token is still to be sent and carries the reason. A request that failed
keeps the tokens it had: if the consumer is behind, one of them becomes the last one, and is sent as
if the request had come to its end. -/

open Outcome

namespace Tokamak

/-- The reasons among the events sent for `q` say that it is completed, and are said last. -/
structure Truthful (q : Request) (events : List TokenEvent) : Prop where
  unrejected : q.state ≠ .rejected
  last : ∀ front event back, events = front ++ event :: back → event.finishReason ≠ .none →
    back = [] ∧ q.state = .completed ∧ events.length = q.outputTokensEmitted
  said : q.state = .completed → events.length = q.outputTokensEmitted →
    ∃ front event, events = front ++ [event] ∧ event.finishReason ≠ .none

theorem finishReason_ne_none {q : Request} {i : Nat} :
    finishReason q i ≠ .none ↔ q.state.isTerminal = true ∧ i = q.outputTokensEmitted - 1 := by
  unfold finishReason
  simp only [Bool.and_eq_true, beq_iff_eq]
  by_cases h : q.state.isTerminal = true ∧ i = q.outputTokensEmitted - 1
  · rw [if_pos h]
    split_ifs <;> simp [h]
  · rw [if_neg h]
    simp [h]

namespace Truthful

variable {q q' : Request} {events : List TokenEvent}

theorem new (hq : q.state = .waitingPrefill) : Truthful q [] := by
  refine ⟨?_, ?_, ?_⟩
  · rw [hq]
    decide
  · intro front event back h
    exact absurd h.symm (List.append_ne_nil_of_right_ne_nil _ (List.cons_ne_nil _ _))
  · intro hstate
    rw [hq] at hstate
    cases hstate

/-- Before a request is completed no event carries a reason. -/
theorem none_of_mem (h : Truthful q events) (hq : q.state ≠ .completed) {event : TokenEvent}
    (hevent : event ∈ events) : event.finishReason = .none := by
  obtain ⟨front, back, hsplit⟩ := List.append_of_mem hevent
  by_contra hreason
  exact hq (h.last front event back hsplit hreason).2.1

/-- A tick completes a request only with a token that no channel has seen. -/
theorem evolved (h : Truthful q events) (hle : events.length ≤ q.outputTokensEmitted)
    (hevolved : q.Evolved q') : Truthful q' events := by
  rcases hevolved with rfl | ⟨hlive, hchange⟩
  · exact h
  · have hopen : q.state ≠ .completed := by
      intro hstate
      rw [hstate] at hlive
      cases hlive
    refine ⟨?_, ?_, ?_⟩
    · intro hstate
      rcases hchange with hadvanced | ⟨-, hcancelled⟩
      · rcases hadvanced.state_cases with hnext | hnext | hnext
        all_goals
          rw [hnext] at hstate
          cases hstate
      · rw [hcancelled] at hstate
        cases hstate
    · intro front event back hsplit hreason
      exact absurd (h.last front event back hsplit hreason).2.1 hopen
    · intro hstate hlength
      exfalso
      rcases hchange with hadvanced | ⟨-, hcancelled⟩
      · cases hadvanced with
        | failed _ _ hfailed =>
            rw [hfailed] at hstate
            cases hstate
        | emitted _ _ _ _ _ hcount =>
            rw [hcount] at hlength
            omega
      · rw [hcancelled] at hstate
        cases hstate

/-- A push in order, unless it is the last one of a request that did not complete. -/
theorem pushed (h : Truthful q events) (hlt : events.length < q.outputTokensEmitted)
    (huncancelled : q.state ≠ .cancelled)
    (hfailed : q.state = .failed → events.length + 1 ≠ q.outputTokensEmitted) {event : TokenEvent}
    (hevent : event.finishReason = finishReason q events.length) :
    Truthful q (events ++ [event]) := by
  have hlength : (events ++ [event]).length = events.length + 1 := List.length_append
  have hcompleted : q.state.isTerminal = true → events.length + 1 = q.outputTokensEmitted →
      q.state = .completed := by
    intro hq hend
    cases hstate : q.state with
    | completed => rfl
    | failed => exact absurd hend (hfailed hstate)
    | cancelled => exact absurd hstate huncancelled
    | rejected => exact absurd hstate h.unrejected
    | _ =>
        rw [hstate] at hq
        cases hq
  refine ⟨h.unrejected, ?_, ?_⟩
  · intro front event' back hsplit hreason
    rw [hlength]
    rcases List.eq_nil_or_concat back with rfl | ⟨more, final, rfl⟩
    · -- the event just sent
      obtain ⟨hfront, hsame⟩ := List.append_inj' hsplit rfl
      cases hsame
      rw [hevent] at hreason
      obtain ⟨hterminal, hend⟩ := finishReason_ne_none.mp hreason
      have hend' : events.length + 1 = q.outputTokensEmitted := by omega
      exact ⟨rfl, hcompleted hterminal hend', hend'⟩
    · -- an event before it: then everything had been sent already
      exfalso
      have hsplit' : events ++ [event] = (front ++ event' :: more) ++ [final] := by
        rw [hsplit]
        simp
      obtain ⟨hfront, -⟩ := List.append_inj' hsplit' rfl
      have hfull := (h.last front event' more hfront hreason).2.2
      omega
  · intro hstate hend
    refine ⟨events, event, rfl, ?_⟩
    rw [hlength] at hend
    rw [hevent]
    refine finishReason_ne_none.mpr ⟨?_, by omega⟩
    rw [hstate]
    rfl

/-- Exactly one event carries a reason once a completed request has been delivered. -/
theorem said_once (h : Truthful q events) (hq : q.state = .completed)
    (hend : events.length = q.outputTokensEmitted) :
    events.countP (fun event => event.finishReason ≠ .none) = 1 := by
  obtain ⟨front, event, rfl, hreason⟩ := h.said hq hend
  have hfront : front.countP (fun event => event.finishReason ≠ .none) = 0 := by
    refine List.countP_eq_zero.mpr (fun event' hmem hsaid => ?_)
    obtain ⟨before, after, rfl⟩ := List.append_of_mem hmem
    have hlast := h.last before event' (after ++ [event]) (by simp) (of_decide_eq_true hsaid)
    exact List.append_ne_nil_of_right_ne_nil _ (List.cons_ne_nil _ _) hlast.1
  rw [List.countP_append, hfront, List.countP_singleton, if_pos (decide_eq_true hreason)]

end Truthful

namespace Engine

variable {ω : Type}

/-- Every admitted request is reported truthfully. -/
def Reports (g : Engine ω) : Prop :=
  ∀ i sub, i < g.owned → g.accepted[i]? = some sub →
    Truthful (g.scheduler.request i) (g.delivered sub.channel)

/-- The engine thread is about to send the last token of a request that failed, and the channel has
room for it. -/
def sendsFailure (g : Engine ω) : Bool :=
  match g.pc with
  | .pushing id _ => (g.active.find id).any fun e =>
      decide (g.scheduler.state e.request = .failed) &&
        decide (e.lastSeenTokens + 1 = (g.scheduler.request e.request).outputTokensEmitted) &&
        !(g.channels e.channel).refuses
  | _ => false

/-- The action is not one that sends the last token of a failed request. -/
def quiet [Environment ω] (g : Engine ω) : EngineAction ω → Bool
  | .engine _ _ => !g.sendsFailure
  | _ => true

theorem sendsFailure_pushing {g : Engine ω} {id : RequestId} {todo : List RequestId}
    {e : ActiveEntry} (hpc : g.pc = .pushing id todo) (he : g.active.find id = some e)
    (hfailed : g.scheduler.state e.request = .failed)
    (hlast : e.lastSeenTokens + 1 = (g.scheduler.request e.request).outputTokensEmitted)
    (hroom : (g.channels e.channel).refuses = false) : g.sendsFailure = true := by
  unfold sendsFailure
  rw [hpc]
  simp [he, hfailed, hlast, hroom]

namespace Reports

variable {g g' : Engine ω} {id : RequestId} {e : ActiveEntry}

theorem new (w : ω) (timeout : Duration) (channels : ChannelPtr → TokenChannel) :
    Reports (Engine.new w timeout channels) := fun i _ hi => absurd hi (Nat.not_lt_zero i)

/-- Steps that change neither the requests nor what has been delivered. -/
theorem of_eq (h : Reports g) (hle : g.owned ≤ g.accepted.length)
    (hrequests : g'.scheduler.requests = g.scheduler.requests)
    (hdelivered : ∀ c, g'.delivered c = g.delivered c) (haccepted : g.accepted <+: g'.accepted) :
    Reports g' := by
  intro i sub hi hsub
  have hi' : i < g.owned := by
    unfold owned at hi ⊢
    rwa [hrequests] at hi
  have hrequest : g'.scheduler.request i = g.scheduler.request i := by
    unfold FifoScheduler.request
    rw [hrequests]
  rw [getElem?_of_isPrefix haccepted (lt_of_lt_of_le hi' hle)] at hsub
  rw [hrequest, hdelivered]
  exact h i sub hi' hsub

/-- The scheduler moves on. -/
theorem evolved (h : Reports g) (hstreams : Streams g) {t : FifoScheduler ω}
    (hsize : t.requests.size = g.owned)
    (hevolved : ∀ i < g.owned, (g.scheduler.request i).Evolved (t.request i)) :
    Reports { g with scheduler := t } := by
  intro i sub hi hsub
  have hi' : i < g.owned := hsize ▸ hi
  refine (h i sub hi' hsub).evolved ?_ (hevolved i hi')
  have hprefix := (hstreams.stream i sub hi' hsub).length_le
  rw [← hstreams.counted i hi', deliveredIds, List.length_map] at hprefix
  exact hprefix

theorem admitted (h : Reports g) (hstreams : Streams g) (hchannels : g.DistinctChannels)
    {sub : Submission} {q : Request} (hq : sub.Queued q) (w : ω)
    (hnext : g.accepted[g.owned]? = some sub) :
    Reports { g with scheduler := g.scheduler.admitted q w } := by
  intro i sub' hi hsub'
  change Truthful ((g.scheduler.admitted q w).request i) (g.delivered sub'.channel)
  rcases admitted_cases q w hnext hi hsub' with ⟨hi, hsame⟩ | ⟨-, rfl, hnew⟩
  · rw [hsame]
    exact h i sub' hi hsub'
  · rw [hnew, delivered_eq_nil (hstreams.unused hchannels hnext)]
    exact Truthful.new hq.state

/-- One more call on the channel of an entry. -/
theorem pushed (h : Reports g) (hledger : Ledger g) (hstreams : Streams g)
    (hchannels : g.DistinctChannels) (he : g.active.find id = some e) (tokenId : UInt32)
    (hunseen : e.lastSeenTokens < (g.scheduler.request e.request).outputTokensEmitted)
    {accepted : Bool} (hquiet : accepted = true → g.scheduler.state e.request = .failed →
      e.lastSeenTokens + 1 ≠ (g.scheduler.request e.request).outputTokensEmitted)
    (active : FinMap RequestId ActiveEntry) (channels : ChannelPtr → TokenChannel) (pc : EnginePc) :
    Reports { g with
      active := active
      channels := channels
      calls := g.calls ++ [.tryPush e.channel
        ⟨tokenId, finishReason (g.scheduler.request e.request) e.lastSeenTokens⟩ accepted]
      pc := pc } := by
  cases accepted with
  | false =>
      exact h.of_eq hledger.owned_le rfl (fun c => delivered_refused g.calls _ _)
        (List.prefix_refl _)
  | true =>
      intro i sub' hi hsub'
      obtain ⟨hlt, -, sub, hsub, hchannel⟩ := hledger.entry id e he
      change Truthful (g.scheduler.request i) (({ g with calls := _ } : Engine ω).delivered _)
      rw [delivered_pushed]
      split_ifs with hc
      · have hi' : i = e.request := hchannels.index_eq hsub' hsub (hc.symm.trans hchannel.symm)
        subst hi'
        have hseen : (g.delivered e.channel).length = e.lastSeenTokens := by
          obtain ⟨hle, hcursor⟩ := hstreams.cursor id e he
          have hlength := congrArg List.length hcursor
          rw [hstreams.counted _ hlt] at hle
          rwa [deliveredIds, List.length_map, List.length_take, Nat.min_eq_left hle] at hlength
        rw [← hc]
        refine (hc ▸ h _ sub' hlt hsub').pushed ?_ ?_ ?_ ?_
        · exact hseen ▸ hunseen
        · exact hledger.uncancelled id e he
        · rw [show (({ g with calls := g.calls } : Engine ω).delivered e.channel).length =
            e.lastSeenTokens from hseen]
          exact hquiet rfl
        · rw [show (({ g with calls := g.calls } : Engine ω).delivered e.channel).length =
            e.lastSeenTokens from hseen]
      · rw [List.append_nil]
        exact h i sub' hi hsub'

theorem outside (h : Reports g) (hledger : Ledger g) (hstep : Outside g g') : Reports g' := by
  obtain ⟨w, hscheduler⟩ := hstep.world
  obtain ⟨subs, haccepted, -⟩ := hstep.submissions
  refine h.of_eq hledger.owned_le ?_ ?_ (haccepted ▸ List.prefix_append _ _)
  · rw [hscheduler]
  · intro c
    unfold delivered
    rw [hstep.calls]

/-- Closing an entry whose request a cancel has just made terminal. -/
theorem cancelled (h : Reports g) (hledger : Ledger g) (hstreams : Streams g) {t : FifoScheduler ω}
    (ht : FifoScheduler.CancelledById g.scheduler id t) (handled : List RequestId) (closer : Closer)
    (pc : EnginePc) :
    Reports { ({ g with scheduler := t, handled := handled }.closeEntry id e closer) with
      pc := pc } := by
  have hmoved := h.evolved hstreams ht.size (fun i _ => ht.evolved hledger.partition i)
  refine hmoved.of_eq (ht.size.le.trans hledger.owned_le) rfl (fun c => ?_) (List.prefix_refl _)
  exact delivered_close (g := g) g.calls e.channel closer

variable [Clock ω] [InferenceBackend ω]

theorem move [AlignedBackend ω] (h : Reports g) (hg : Books g) (hstreams : Streams g) (hchannels : g.DistinctChannels)
    (hquiet : g.sendsFailure = false) (hmove : Move g g') : Reports g' := by
  have hledger := hg.toLedger
  have hsame : ∀ pc subs ids handled, Reports { g with
      pc := pc, pendingSubmissions := subs, pendingCancels := ids, handled := handled } :=
    fun _ _ _ _ => h.of_eq hg.owned_le rfl (fun _ => rfl) (List.prefix_refl _)
  cases hmove with
  | idle => exact h
  | jump => exact hsame _ _ _ _
  | drainSubmissions => exact hsame _ _ _ _
  | admission hpc hq =>
      have hnext := hg.next_accepted hpc
      refine (h.admitted hstreams hchannels hq _ hnext).of_eq ?_ rfl (fun _ => rfl)
        (List.prefix_refl _)
      exact (List.getElem?_eq_some_iff.mp hnext).1
  | drainCancels => exact hsame _ _ _ _
  | cancelInactive hpc hcancel he =>
      rw [hg.cancel_inactive he] at hcancel
      cases hcancel
      exact hsame _ _ _ _
  | cancelActive hpc hcancel he =>
      exact h.cancelled hledger hstreams (FifoScheduler.cancel_cancelled hg.partition hcancel) _ _ _
  | @tick done hpc htick =>
      obtain ⟨ht, -, hsize, hticked⟩ := (FifoScheduler.tick_evolves hg.partition).ok htick
      have hmoved := h.evolved hstreams hsize (fun i hi => (hticked i hi).evolved)
      exact hmoved.of_eq (hsize.le.trans hg.owned_le) rfl (fun _ => rfl) (List.prefix_refl _)
  | @push id todo e tokenId steadyNow hpc he hunseen htoken =>
      obtain ⟨e', channels, pc, -, -, -, -, -, heq⟩ := pushEvent_eq g id e
        ⟨tokenId, finishReason (g.scheduler.request e.request) e.lastSeenTokens⟩ todo steadyNow
      rw [heq]
      refine h.pushed hledger hstreams hchannels he tokenId hunseen ?_ _ _ _
      intro hroom hfailed hlast
      have hsends := sendsFailure_pushing hpc he hfailed hlast (by simpa using hroom)
      rw [hquiet] at hsends
      cases hsends
  | expel hpc hid hcancel he =>
      exact h.cancelled hledger hstreams (FifoScheduler.cancel_cancelled hg.partition hcancel) _ _ _
  | reapTerminal => exact hsame _ _ _ _
  | reap hpc hid he =>
      exact h.of_eq hg.owned_le rfl (fun _ => delivered_close g.calls _ .reap) (List.prefix_refl _)

theorem step [AlignedBackend ω] [Environment ω] (h : Reports g) (hg : Books g) (hstreams : Streams g)
    (hchannels : g.DistinctChannels) {a : EngineAction ω} (hquiet : g.quiet a = true)
    (hstep : g.step a = .ok g') : Reports g' := by
  rcases step_cases hstep with houtside | ⟨choice, steadyNow, rfl, hmove⟩
  · exact h.outside hg.toLedger houtside
  · exact h.move hg hstreams hchannels (by simpa [quiet] using hquiet) hmove

end Reports

/-! ### Runs -/

section Runs

variable [Clock ω] [InferenceBackend ω] [Environment ω]

/-- **Finish reasons are truthful** as long as the last token of a failed request is never sent. In
every such run with distinct ids and channels, and for every admitted request: an event that carries a
reason is the last one its channel has accepted, and the request is completed; a completed request
whose channel was closed by `reap_terminal` has delivered exactly one such event; a request that
failed or was cancelled has delivered none. -/
theorem finish_reasons_truthful [AlignedBackend ω] (w : ω) (timeout : Duration)
    (channels : ChannelPtr → TokenChannel) (actions : List (EngineAction ω)) (g : Engine ω)
    (hquiet : Guarded step (fun u a => u.quiet a = true) (new w timeout channels) actions)
    (hrun : run step (new w timeout channels) actions = .ok g) (hids : g.DistinctIds)
    (hchannels : g.DistinctChannels) (i : Nat) (sub : Submission) (hi : i < g.owned)
    (hsub : g.accepted[i]? = some sub) :
    (∀ front event back, g.delivered sub.channel = front ++ event :: back →
      event.finishReason ≠ .none → back = [] ∧ g.scheduler.state i = .completed) ∧
    (g.scheduler.state i = .completed → .close sub.channel .reap ∈ g.calls →
      (g.delivered sub.channel).countP (fun event => event.finishReason ≠ .none) = 1) ∧
    (g.scheduler.state i = .failed ∨ g.scheduler.state i = .cancelled →
      ∀ event ∈ g.delivered sub.channel, event.finishReason = .none) := by
  have hend := run_distinct_guarded (fun u => u.DistinctChannels → Streams u ∧ Reports u)
    (fun u a u' hu hu' hframe hids' hinv hquiet hstep hchannels' =>
      have hchannels := hchannels'.of_isPrefix hframe.accepted
      have hsafe := hu.admitSafe (hids'.of_isPrefix hframe.accepted)
      have hstreams := (hinv hchannels).1
      ⟨hstreams.step hu hsafe hchannels hstep,
        (hinv hchannels).2.step hu hstreams hchannels hquiet hstep⟩)
    (Books.new w timeout channels)
    (fun _ => ⟨Streams.new w timeout channels, Reports.new w timeout channels⟩) hquiet hrun hids
  obtain ⟨hstreams, hreports⟩ := hend.2 hchannels
  have htruthful := hreports i sub hi hsub
  refine ⟨?_, ?_, ?_⟩
  · intro front event back hsplit hreason
    obtain ⟨hback, hstate, -⟩ := htruthful.last front event back hsplit hreason
    exact ⟨hback, hstate⟩
  · intro hstate hreaped
    refine htruthful.said_once hstate ?_
    have hall := congrArg List.length (hstreams.reaped i sub hi hsub hreaped).2
    rwa [deliveredIds, List.length_map, ← hstreams.counted i hi] at hall
  · intro hstate event hevent
    refine htruthful.none_of_mem ?_ hevent
    intro hcompleted
    rcases hstate with hstate | hstate
    · cases hstate.symm.trans hcompleted
    · cases hstate.symm.trans hcompleted

/-- One request, run to its end. -/
theorem finish_reasons_truthful_oneToken :
    ∃ g : Engine MockBackend,
      run step idleEngine ([.start, .submit oneToken, .push 0] ++ engineSteps 20) = .ok g ∧
      g.scheduler.state 0 = .completed ∧ .close 0 .reap ∈ g.calls ∧
      (g.delivered 0).countP (fun event => event.finishReason ≠ .none) = 1 := by
  obtain ⟨g, hrun, hview⟩ := exists_of_map_ok (x := run step idleEngine
      ([.start, .submit oneToken, .push 0] ++ engineSteps 20))
    (b := ([oneToken], 1, RequestState.completed, true))
    (f := fun g => (g.accepted, g.owned, g.scheduler.state 0,
      decide (.close 0 .reap ∈ g.calls))) (by decide +kernel)
  simp only [Prod.mk.injEq, decide_eq_true_eq] at hview
  obtain ⟨haccepted, howned, hstate, hreaped⟩ := hview
  have hquiet : Guarded step (fun u a => u.quiet a = true) idleEngine
      ([.start, .submit oneToken, .push 0] ++ engineSteps 20) := by
    decide +kernel
  have htruthful := finish_reasons_truthful (MockBackend.new ⟨0⟩ 1 5) 100 (fun _ => .new 4) _ g hquiet
    hrun (by rw [DistinctIds, haccepted]; decide) (by rw [DistinctChannels, haccepted]; decide)
    0 oneToken (by rw [howned]; decide) (by rw [haccepted]; rfl)
  exact ⟨g, hrun, hstate, hreaped, htruthful.2.1 hstate hreaped⟩

/-- A prompt for three tokens with a short deadline. -/
def threeTokens : Submission := ⟨"a", [], 3, 100, 0⟩

/-- The consumer takes nothing while two tokens are decoded, then the deadline passes: the second
token is sent with the reason for the end of a sequence, and the request has failed. -/
theorem finish_reason_of_failed :
    ∃ g : Engine MockBackend,
      run step (new (.new ⟨0⟩ 1 5) 100 (fun _ => .new 1))
        ([.start, .submit threeTokens, .push 0] ++ engineSteps 33 ++
          [.event (.advanceClock 1000)] ++ engineSteps 6 ++ [.pop 0] ++ engineSteps 20) = .ok g ∧
      g.DistinctIds ∧ g.DistinctChannels ∧ g.accepted[0]? = some threeTokens ∧
      g.scheduler.state 0 = .failed ∧ g.delivered 0 = [⟨1, .none⟩, ⟨2, .stop⟩] := by
  obtain ⟨g, hrun, hview⟩ := exists_of_map_ok (x := run step
      (new (.new ⟨0⟩ 1 5) 100 (fun _ => .new 1) : Engine MockBackend)
      ([.start, .submit threeTokens, .push 0] ++ engineSteps 33 ++
        [.event (.advanceClock 1000)] ++ engineSteps 6 ++ [.pop 0] ++ engineSteps 20))
    (b := ([threeTokens], RequestState.failed,
      [(⟨1, .none⟩ : TokenEvent), (⟨2, .stop⟩ : TokenEvent)]))
    (f := fun g => (g.accepted, g.scheduler.state 0, g.delivered 0)) (by decide +kernel)
  simp only [Prod.mk.injEq] at hview
  obtain ⟨haccepted, hstate, hdelivered⟩ := hview
  refine ⟨g, hrun, ?_, ?_, ?_, hstate, hdelivered⟩
  · rw [DistinctIds, haccepted]
    decide
  · rw [DistinctChannels, haccepted]
    decide
  · rw [haccepted]
    rfl

end Runs

end Engine

end Tokamak
