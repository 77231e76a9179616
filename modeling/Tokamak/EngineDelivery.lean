import Tokamak.EngineStream
import Tokamak.Refinement
import Tokamak.TokenChannelFifo

/-! What a consumer receives. Seen from one channel, a run of the whole system is a list of turns of
that channel: the engine's calls on it, the pops and closes of its clients, and nothing for every other
step. So the laws of a token channel hold of each channel of the engine, and what a consumer has been
handed together with what waits for it in the buffer is what the engine delivered. -/

open Outcome

namespace Tokamak

/-- The turn of channel `c` that a call of the engine is. -/
def ChannelCall.turn (c : ChannelPtr) : ChannelCall → Option ChannelTurn
  | .tryPush channel event _ => if channel = c then some (.tryPush event) else none
  | .close channel _ => if channel = c then some .close else none

namespace Engine

variable {ω : Type} {g g' : Engine ω} {c : ChannelPtr}

/-- Channel `c` and its past; its consumers have been handed `events`. -/
def conveyed (g : Engine ω) (c : ChannelPtr) (events : List TokenEvent) : ChannelHistory :=
  ⟨g.channels c, g.delivered c, events⟩

/-- The turns of `c` among the calls the engine has made since `g`. -/
def turnsSince (c : ChannelPtr) (g g' : Engine ω) : List ChannelTurn :=
  (g'.calls.drop g.calls.length).filterMap (ChannelCall.turn c)

theorem turnsSince_of_eq (h : g'.calls = g.calls) : turnsSince c g g' = [] := by
  unfold turnsSince
  rw [h, List.drop_length]
  rfl

theorem turnsSince_call {call : ChannelCall} (h : g'.calls = g.calls ++ [call]) :
    turnsSince c g g' = (ChannelCall.turn c call).toList := by
  unfold turnsSince
  rw [h, List.drop_left, List.filterMap_cons, List.filterMap_nil]
  cases ChannelCall.turn c call <;> rfl

/-- A step that leaves the channel and the engine's calls alone is no turn of it. -/
theorem conveyed_of_eq (hchannels : g'.channels c = g.channels c) (hcalls : g'.calls = g.calls)
    (events : List TokenEvent) :
    g'.conveyed c events = (g.conveyed c events).play (turnsSince c g g') := by
  rw [turnsSince_of_eq hcalls]
  unfold conveyed delivered
  rw [hchannels, hcalls]
  rfl

/-- A close of an entry is a turn of the entry's channel and of no other. -/
theorem conveyed_closeEntry {e : ActiveEntry} {closer : Closer}
    (hchannels : g'.channels = Function.update g.channels e.channel (g.channels e.channel).close)
    (hcalls : g'.calls = g.calls ++ [.close e.channel closer]) (events : List TokenEvent) :
    g'.conveyed c events = (g.conveyed c events).play (turnsSince c g g') := by
  have hdelivered : g'.delivered c = g.delivered c := by
    unfold delivered
    rw [hcalls, List.filterMap_append]
    exact List.append_nil _
  rw [turnsSince_call hcalls, ChannelCall.turn]
  unfold conveyed
  rw [hdelivered, hchannels, Function.update_apply]
  by_cases hc : e.channel = c
  · subst hc
    rw [if_pos rfl, if_pos rfl]
    rfl
  · rw [if_neg hc, if_neg (fun h => hc h.symm)]
    rfl

/-- So is a push. -/
theorem conveyed_pushEvent (g : Engine ω) (c : ChannelPtr) (id : RequestId) (e : ActiveEntry)
    (event : TokenEvent) (todo : List RequestId) (steadyNow : TimePoint) (events : List TokenEvent) :
    (g.pushEvent id e event todo steadyNow).conveyed c events =
      (g.conveyed c events).play (turnsSince c g (g.pushEvent id e event todo steadyNow)) := by
  have hchannels : (g.pushEvent id e event todo steadyNow).channels =
      Function.update g.channels e.channel ((g.channels e.channel).tryPush event).2 := by
    unfold pushEvent
    simp only
    split_ifs <;> rfl
  have hcalls : (g.pushEvent id e event todo steadyNow).calls =
      g.calls ++ [.tryPush e.channel event ((g.channels e.channel).tryPush event).1] := by
    unfold pushEvent
    simp only
    split_ifs <;> rfl
  have hdelivered : (g.pushEvent id e event todo steadyNow).delivered c = g.delivered c ++
      (ChannelCall.delivery c
        (.tryPush e.channel event ((g.channels e.channel).tryPush event).1)).toList := by
    unfold delivered
    rw [hcalls, List.filterMap_append, List.filterMap_cons, List.filterMap_nil]
    cases ChannelCall.delivery c
      (.tryPush e.channel event ((g.channels e.channel).tryPush event).1) <;> rfl
  rw [turnsSince_call hcalls, ChannelCall.turn]
  unfold conveyed
  rw [hdelivered, hchannels, Function.update_apply]
  by_cases hc : e.channel = c
  · subst hc
    rw [if_pos rfl, if_pos rfl]
    cases haccepted : ((g.channels e.channel).tryPush event).1 with
    | true => simp [ChannelHistory.play, ChannelHistory.turn, ChannelCall.delivery, haccepted]
    | false => simp [ChannelHistory.play, ChannelHistory.turn, ChannelCall.delivery, haccepted]
  · have hnone : ChannelCall.delivery c
        (.tryPush e.channel event ((g.channels e.channel).tryPush event).1) = none := by
      cases ((g.channels e.channel).tryPush event).1 with
      | true => exact if_neg hc
      | false => rfl
    rw [hnone, if_neg hc, if_neg (fun h => hc h.symm), Option.toList_none, List.append_nil]
    rfl

section Turns

variable [Clock ω] [InferenceBackend ω]

/-- A move of the engine thread makes one turn of the channel at most. -/
theorem Move.conveyed (h : Move g g') (c : ChannelPtr) (events : List TokenEvent) :
    g'.conveyed c events = (g.conveyed c events).play (turnsSince c g g') := by
  cases h with
  | cancelActive => exact conveyed_closeEntry rfl rfl events
  | expel => exact conveyed_closeEntry rfl rfl events
  | reap => exact conveyed_closeEntry rfl rfl events
  | @push id todo e tokenId steadyNow => exact conveyed_pushEvent g c id e _ todo steadyNow events
  | _ => exact conveyed_of_eq rfl rfl events

variable [Environment ω]

/-- The turns of channel `c` that a step makes. -/
def turnsOn (c : ChannelPtr) (g : Engine ω) : EngineAction ω → List ChannelTurn
  | .pop channel => if channel = c then [.pop] else []
  | .close channel => if channel = c then [.close] else []
  | .engine choice steadyNow =>
      match g.engineStep choice steadyNow with
      | .ok g' => turnsSince c g g'
      | .error _ => []
  | _ => []

/-- The events a step hands to a consumer of channel `c`. -/
def handedOut (c : ChannelPtr) (g : Engine ω) : EngineAction ω → List TokenEvent
  | .pop channel => if channel = c then ((g.channels c).pop.bind fun result => result.1).toList else []
  | _ => []

/-- The events the consumers of channel `c` have been handed in a run. -/
def received (c : ChannelPtr) (g : Engine ω) (actions : List (EngineAction ω)) : List TokenEvent :=
  history step (handedOut c) g actions

/-- Every step of the system makes one turn of the channel at most, and a consumer gets what the
channel's `pop` hands out. -/
theorem step_conveyed {a : EngineAction ω} (h : g.step a = .ok g') (c : ChannelPtr)
    (events : List TokenEvent) :
    g'.conveyed c (events ++ g.handedOut c a) = (g.conveyed c events).play (g.turnsOn c a) := by
  have hquiet : g'.channels c = g.channels c → g'.calls = g.calls →
      g'.conveyed c (events ++ []) = (g.conveyed c events).play [] := by
    intro hchannels hcalls
    rw [List.append_nil, ← turnsSince_of_eq (c := c) hcalls]
    exact conveyed_of_eq hchannels hcalls events
  cases a with
  | pop channel =>
      unfold step at h
      simp only at h
      unfold handedOut turnsOn
      simp only
      by_cases hc : channel = c
      · subst hc
        rw [if_pos rfl, if_pos rfl]
        cases hpop : (g.channels channel).pop with
        | none =>
            rw [hpop] at h
            cases h
            simp [Engine.conveyed, ChannelHistory.play, ChannelHistory.turn, hpop]
        | some result =>
            obtain ⟨event, rest⟩ := result
            rw [hpop] at h
            cases h
            cases event with
            | none => simp [Engine.conveyed, delivered, ChannelHistory.play, ChannelHistory.turn, hpop]
            | some event =>
                simp [Engine.conveyed, delivered, ChannelHistory.play, ChannelHistory.turn, hpop]
      · rw [if_neg hc, if_neg hc]
        split at h
        · cases h
          exact hquiet rfl rfl
        · cases h
          exact hquiet (Function.update_of_ne (fun h => hc h.symm) _ _) rfl
  | close channel =>
      cases h
      unfold handedOut turnsOn
      simp only
      by_cases hc : channel = c
      · subst hc
        simp [Engine.conveyed, delivered, ChannelHistory.play, ChannelHistory.turn]
      · rw [if_neg hc]
        exact hquiet (Function.update_of_ne (fun h => hc h.symm) _ _) rfl
  | engine choice steadyNow =>
      have hstep : g.engineStep choice steadyNow = .ok g' := h
      unfold handedOut turnsOn
      simp only [hstep]
      rw [List.append_nil]
      exact (engineStep_move hstep).conveyed c events
  | start =>
      unfold step at h
      simp only at h
      split_ifs at h
      · cases h
        exact hquiet rfl rfl
      · cases h
        exact hquiet rfl rfl
  | stop =>
      unfold step at h
      simp only at h
      split_ifs at h
      · cases h
        exact hquiet rfl rfl
      · cases h
        exact hquiet rfl rfl
  | join =>
      unfold step at h
      simp only at h
      split_ifs at h
      · cases h
        exact hquiet rfl rfl
      · cases h
        exact hquiet rfl rfl
  | submit sub =>
      unfold step at h
      simp only at h
      split_ifs at h
      · cases h
        exact hquiet rfl rfl
      · cases h
        exact hquiet rfl rfl
  | push k =>
      unfold step at h
      simp only at h
      split at h
      · cases h
        exact hquiet rfl rfl
      · cases h
        exact hquiet rfl rfl
  | cancel id =>
      cases h
      exact hquiet rfl rfl
  | event e =>
      obtain ⟨w, -, h⟩ := bind_eq_ok.mp h
      cases h
      exact hquiet rfl rfl

theorem run_conveyed {actions : List (EngineAction ω)} (h : run step g actions = .ok g')
    (c : ChannelPtr) (events : List TokenEvent) :
    g'.conveyed c (events ++ g.received c actions) =
      (g.conveyed c events).play (history step (turnsOn c) g actions) := by
  unfold received
  induction actions generalizing g events with
  | nil =>
      rw [run_nil] at h
      cases h
      rw [history, List.append_nil]
      rfl
  | cons a rest ih =>
      rw [run_cons] at h
      obtain ⟨u, hstep, hrest⟩ := bind_eq_ok.mp h
      rw [history, history, hstep, ← List.append_assoc, ChannelHistory.play_append,
        ← step_conveyed hstep]
      exact ih hrest _

/-- The engine's calls are never taken back. -/
theorem step_calls {a : EngineAction ω} (h : g.step a = .ok g') : g.calls <+: g'.calls := by
  rcases step_cases h with houtside | ⟨choice, steadyNow, -, hmove⟩
  · rw [houtside.calls]
  · cases hmove with
    | cancelActive => exact List.prefix_append _ _
    | expel => exact List.prefix_append _ _
    | reap => exact List.prefix_append _ _
    | @push id todo e tokenId steadyNow =>
        obtain ⟨e', channels, pc, -, -, -, -, -, heq⟩ := pushEvent_eq g id e
          ⟨tokenId, finishReason (g.scheduler.request e.request) e.lastSeenTokens⟩ todo steadyNow
        rw [heq]
        exact List.prefix_append _ _
    | _ => exact List.prefix_refl _

theorem run_calls_prefix {actions : List (EngineAction ω)} (h : run step g actions = .ok g') :
    g.calls <+: g'.calls := by
  have hall : Ensures (run Engine.step g actions) (fun _ => True)
      (fun g' => g.calls <+: g'.calls) := by
    refine run_ensures (fun u a hu => ?_) g (List.prefix_refl _) actions
    exact ensures_iff.mpr ⟨fun u' h' => hu.trans (step_calls h'), fun _ _ => trivial⟩
  exact hall.ok h

/-- A turn that closes the channel is a client's or a call the engine has made. -/
theorem close_of_turn {a : EngineAction ω} (h : g.step a = .ok g')
    (hclose : .close ∈ g.turnsOn c a) : a = .close c ∨ ∃ closer, .close c closer ∈ g'.calls := by
  cases a with
  | close channel =>
      unfold turnsOn at hclose
      simp only at hclose
      split_ifs at hclose with hc
      · exact .inl (hc ▸ rfl)
      · cases hclose
  | engine choice steadyNow =>
      have hstep : g.engineStep choice steadyNow = .ok g' := h
      unfold turnsOn at hclose
      simp only [hstep] at hclose
      obtain ⟨call, hcall, hturn⟩ := List.mem_filterMap.mp hclose
      have hmem : call ∈ g'.calls := List.mem_of_mem_drop hcall
      cases call with
      | tryPush channel event accepted =>
          rw [ChannelCall.turn] at hturn
          split_ifs at hturn
          cases hturn
      | close channel closer =>
          rw [ChannelCall.turn] at hturn
          split_ifs at hturn with hc
          exact .inr ⟨closer, hc ▸ hmem⟩
  | pop channel =>
      unfold turnsOn at hclose
      simp only at hclose
      split_ifs at hclose
      · simp at hclose
      · cases hclose
  | _ => cases hclose

theorem close_of_turns {actions : List (EngineAction ω)} (h : run step g actions = .ok g')
    (hclose : .close ∈ history step (turnsOn c) g actions) :
    .close c ∈ actions ∨ ∃ closer, .close c closer ∈ g'.calls := by
  induction actions generalizing g with
  | nil => cases hclose
  | cons a rest ih =>
      rw [run_cons] at h
      obtain ⟨u, hstep, hrest⟩ := bind_eq_ok.mp h
      rw [history, hstep] at hclose
      rcases List.mem_append.mp hclose with hclose | hclose
      · rcases close_of_turn hstep hclose with rfl | ⟨closer, hcall⟩
        · exact .inl List.mem_cons_self
        · have hcalls := run_calls_prefix hrest
          exact .inr ⟨closer, hcalls.subset hcall⟩
      · exact (ih hrest hclose).imp (List.mem_cons_of_mem a) (fun hcall => hcall)

section FromStart

variable {w : ω} {timeout : Duration} {channels : ChannelPtr → TokenChannel}
  {actions : List (EngineAction ω)} {capacity : Nat}

/-- A run from the start, seen from a channel that is fresh at the start. -/
theorem run_new_conveyed (hrun : run step (new w timeout channels) actions = .ok g)
    (hfresh : channels c = .new capacity) :
    g.conveyed c ((new w timeout channels).received c actions) =
      (ChannelHistory.start capacity).play
        (history step (turnsOn c) (new w timeout channels) actions) := by
  have hstart : (new w timeout channels).conveyed c [] = ChannelHistory.start capacity := by
    change (⟨channels c, [], []⟩ : ChannelHistory) = _
    rw [hfresh]
    rfl
  rw [← hstart, ← run_conveyed hrun c []]
  rfl

theorem run_fifo (hrun : run step (new w timeout channels) actions = .ok g)
    (hfresh : channels c = .new capacity) :
    (g.conveyed c ((new w timeout channels).received c actions)).Fifo capacity := by
  rw [run_new_conveyed hrun hfresh]
  exact ChannelHistory.play_inv (fun h t hh => hh.turn t) (ChannelHistory.fifo_start capacity) _

/-- Whoever finds the stream ended has been handed all that was delivered. -/
theorem run_drained (hrun : run step (new w timeout channels) actions = .ok g)
    (hfresh : channels c = .new capacity) {rest : TokenChannel}
    (hend : (g.channels c).pop = some (none, rest)) :
    (g.conveyed c ((new w timeout channels).received c actions)).Drained (g.delivered c) := by
  obtain ⟨hclosed, hempty⟩ := ChannelHistory.pop_none hend
  have horder := (run_fifo hrun hfresh).order
  refine ⟨hclosed, hempty, rfl, ?_⟩
  change _ ++ (g.channels c).buffer = g.delivered c at horder
  rw [hempty, List.append_nil] at horder
  exact horder

theorem received_append (hrun : run step (new w timeout channels) actions = .ok g)
    (later : List (EngineAction ω)) :
    (new w timeout channels).received c (actions ++ later) =
      (new w timeout channels).received c actions ++ g.received c later := history_append hrun later

end FromStart

end Turns

/-! ### Which close ended the stream -/

/-- A channel closed by a cancel is that of a submission whose id the engine was told to cancel. -/
def CancelsHandled (g : Engine ω) : Prop :=
  ∀ channel, .close channel .cancel ∈ g.calls → ∃ (i : Nat) (sub : Submission),
    g.accepted[i]? = some sub ∧ sub.channel = channel ∧ sub.id ∈ g.handled

namespace CancelsHandled

theorem new (w : ω) (timeout : Duration) (channels : ChannelPtr → TokenChannel) :
    CancelsHandled (Engine.new w timeout channels) := by
  intro channel hclose
  cases hclose

/-- Steps that close nothing by a cancel. -/
theorem mono (h : CancelsHandled g) (haccepted : g.accepted <+: g'.accepted)
    (hhandled : g.handled ⊆ g'.handled)
    (hcalls : ∀ channel, .close channel .cancel ∈ g'.calls → .close channel .cancel ∈ g.calls) :
    CancelsHandled g' := by
  intro channel hclose
  obtain ⟨i, sub, hsub, hchannel, hmem⟩ := h channel (hcalls channel hclose)
  exact ⟨i, sub, getElem?_mono haccepted hsub, hchannel, hhandled hmem⟩

theorem of_call (h : CancelsHandled g) (haccepted : g'.accepted = g.accepted)
    (hhandled : g'.handled = g.handled) {call : ChannelCall} (hcalls : g'.calls = g.calls ++ [call])
    (hcall : ∀ channel, call ≠ .close channel .cancel) : CancelsHandled g' := by
  refine h.mono (haccepted ▸ List.prefix_refl _) (hhandled ▸ List.Subset.refl _) ?_
  intro channel hclose
  rw [hcalls] at hclose
  rcases List.mem_append.mp hclose with hclose | hclose
  · exact hclose
  · exact absurd (List.mem_singleton.mp hclose).symm (hcall channel)

theorem outside (h : CancelsHandled g) (hstep : Outside g g') : CancelsHandled g' := by
  obtain ⟨subs, haccepted, -⟩ := hstep.submissions
  refine h.mono (haccepted ▸ List.prefix_append _ _) (hstep.handled ▸ List.Subset.refl _) ?_
  intro channel hclose
  exact hstep.calls ▸ hclose

variable [Clock ω] [InferenceBackend ω]

theorem move (h : CancelsHandled g) (hg : Ledger g) (hmove : Move g g') : CancelsHandled g' := by
  cases hmove with
  | cancelInactive =>
      exact h.mono (List.prefix_refl _) (List.subset_append_left _ _) (fun _ hclose => hclose)
  | @cancelActive id rest t e hpc hcancel he =>
      obtain ⟨hlt, hkey, sub, hsub, hchannel⟩ := hg.entry id e he
      have hid := hg.requestId e.request sub hlt hsub
      intro channel hclose
      rcases List.mem_append.mp hclose with hclose | hclose
      · obtain ⟨i, sub', hsub', hchannel', hmem⟩ := h channel hclose
        exact ⟨i, sub', hsub', hchannel', List.mem_append_left _ hmem⟩
      · -- the close of this very step: the entry's submission has the id that is cancelled
        obtain ⟨rfl, -⟩ := ChannelCall.close.inj (List.mem_singleton.mp hclose)
        refine ⟨e.request, sub, hsub, hchannel, ?_⟩
        rw [← hid, hkey]
        exact List.mem_append_right _ List.mem_cons_self
  | expel => exact h.of_call rfl rfl rfl (fun channel hcall => by cases hcall)
  | reap => exact h.of_call rfl rfl rfl (fun channel hcall => by cases hcall)
  | @push id todo e tokenId steadyNow =>
      obtain ⟨e', channels, pc, -, -, -, -, -, heq⟩ := pushEvent_eq g id e
        ⟨tokenId, finishReason (g.scheduler.request e.request) e.lastSeenTokens⟩ todo steadyNow
      rw [heq]
      exact h.of_call rfl rfl rfl (fun channel hcall => by cases hcall)
  | _ => exact h.mono (List.prefix_refl _) (List.Subset.refl _) (fun _ hclose => hclose)

theorem step [Environment ω] (h : CancelsHandled g) (hg : Ledger g) {a : EngineAction ω}
    (hstep : g.step a = .ok g') : CancelsHandled g' := by
  rcases step_cases hstep with houtside | ⟨choice, steadyNow, -, hmove⟩
  · exact h.outside houtside
  · exact h.move hg hmove

end CancelsHandled

section Consumers

variable [Clock ω] [InferenceBackend ω] [Environment ω]

/-- **A channel of the engine is a bounded FIFO with one end.** In every run of the system, whatever
the ids are and whoever pops and closes: what the consumers of a channel have been handed and what its
buffer holds are together the events the engine delivered to it, in order; the buffer keeps within its
capacity; and a consumer who finds the stream ended has been handed all of them, and neither he nor
anybody else is handed anything in what follows. -/
theorem engine_channel_fifo (w : ω) (timeout : Duration) (channels : ChannelPtr → TokenChannel)
    (actions : List (EngineAction ω)) (g : Engine ω)
    (hrun : run step (new w timeout channels) actions = .ok g) (c : ChannelPtr) (capacity : Nat)
    (hfresh : channels c = .new capacity) :
    (new w timeout channels).received c actions ++ (g.channels c).buffer = g.delivered c ∧
    (g.channels c).size ≤ capacity ∧
    ∀ rest, (g.channels c).pop = some (none, rest) →
      (new w timeout channels).received c actions = g.delivered c ∧
      ∀ later g', run step g later = .ok g' →
        (new w timeout channels).received c (actions ++ later) =
          (new w timeout channels).received c actions ∧
        g'.delivered c = g.delivered c := by
  have hfifo := run_fifo hrun hfresh
  refine ⟨hfifo.order, hfifo.bounded, fun rest hend => ?_⟩
  have hdrained := run_drained hrun hfresh hend
  refine ⟨hdrained.2.2.2, fun later g' hlater => ?_⟩
  have hlater' := hdrained.play (history step (turnsOn c) g later)
  rw [← run_conveyed hlater] at hlater'
  refine ⟨?_, hlater'.2.2.1⟩
  rw [received_append hrun]
  exact hlater'.2.2.2.trans hdrained.2.2.2.symm

/-- Both consumers have found the end of their streams. -/
def readToTheEnd : List (EngineAction MockBackend) := slowReaders ++ [.pop 0, .pop 1]

theorem engine_channel_fifo_readToTheEnd :
    ∃ g, run step narrowEngine readToTheEnd = .ok g ∧
      .tryPush 0 ⟨3, .length⟩ false ∈ g.calls ∧
      narrowEngine.received 0 readToTheEnd = g.delivered 0 ∧ (g.delivered 0).length = 3 ∧
      narrowEngine.received 1 readToTheEnd = g.delivered 1 ∧ (g.delivered 1).length = 2 := by
  obtain ⟨g, hrun, hview⟩ := exists_of_map_ok (x := run step narrowEngine readToTheEnd)
    (b := (some (none, ⟨[], true, 1⟩), some (none, ⟨[], true, 1⟩), true, 3, 2))
    (f := fun g => ((g.channels 0).pop, (g.channels 1).pop,
      decide (.tryPush 0 ⟨3, .length⟩ false ∈ g.calls), (g.delivered 0).length, (g.delivered 1).length))
    (by decide +kernel)
  simp only [Prod.mk.injEq, decide_eq_true_eq] at hview
  obtain ⟨hend, hend', hrefused, hlength, hlength'⟩ := hview
  obtain ⟨-, -, hall⟩ := engine_channel_fifo (MockBackend.new ⟨0⟩ 1 5) 100 (fun _ => .new 1)
    readToTheEnd g hrun 0 1 rfl
  obtain ⟨-, -, hall'⟩ := engine_channel_fifo (MockBackend.new ⟨0⟩ 1 5) 100 (fun _ => .new 1)
    readToTheEnd g hrun 1 1 rfl
  exact ⟨g, hrun, hrefused, (hall _ hend).1, hlength, (hall' _ hend').1, hlength'⟩

/-- **A consumer receives its request's output.** In every run with distinct ids and channels, and for
every admitted submission whose channel was fresh: what its consumer has been handed, and then what waits
for it, are the first tokens of the request's output, with no gap and none twice. If the consumer finds
the stream ended and no client has closed it, the engine has, and the request is terminal; it was then
closed because its id was cancelled, or for back-pressure, or it has received the whole output. -/
theorem consumer_receives_output [AlignedBackend ω] (w : ω) (timeout : Duration)
    (channels : ChannelPtr → TokenChannel) (actions : List (EngineAction ω)) (g : Engine ω)
    (hrun : run step (new w timeout channels) actions = .ok g) (hids : g.DistinctIds)
    (hchannels : g.DistinctChannels) (i : Nat) (sub : Submission) (capacity : Nat)
    (hi : i < g.owned) (hsub : g.accepted[i]? = some sub)
    (hfresh : channels sub.channel = .new capacity) :
    (((new w timeout channels).received sub.channel actions ++
      (g.channels sub.channel).buffer).map fun event => event.tokenId) <+:
        (g.scheduler.request i).outputTokenIds ∧
    ∀ rest, (g.channels sub.channel).pop = some (none, rest) → .close sub.channel ∉ actions →
      (g.scheduler.state i).isTerminal = true ∧
      ∃ closer, .close sub.channel closer ∈ g.calls ∧
        match closer with
        | .cancel => sub.id ∈ g.cancels
        | .backpressure => True
        | .reap => (((new w timeout channels).received sub.channel actions).map
            fun event => event.tokenId) = (g.scheduler.request i).outputTokenIds := by
  have hend := run_distinct (fun u => CancelsHandled u ∧ (u.DistinctChannels → Streams u))
    (fun u a u' hu hu' hframe hids' hinv hstep =>
      ⟨hinv.1.step hu.toLedger hstep, fun hchannels' =>
        have hchannels := hchannels'.of_isPrefix hframe.accepted
        have hsafe := hu.admitSafe (hids'.of_isPrefix hframe.accepted)
        (hinv.2 hchannels).step hu hsafe hchannels hstep⟩)
    (Books.new w timeout channels) ⟨CancelsHandled.new w timeout channels,
      fun _ => Streams.new w timeout channels⟩ hrun hids
  obtain ⟨hbooks, hhandled, hstreams⟩ := hend
  have hstreams := hstreams hchannels
  have horder : (new w timeout channels).received sub.channel actions ++
      (g.channels sub.channel).buffer = g.delivered sub.channel := (run_fifo hrun hfresh).order
  refine ⟨?_, fun rest hpop hopen => ?_⟩
  · rw [horder]
    exact hstreams.stream i sub hi hsub
  · have hdrained := run_drained hrun hfresh hpop
    -- nobody but the engine can have closed the channel
    have hclosed := hdrained.1
    rw [run_new_conveyed hrun hfresh, ChannelHistory.closed_play] at hclosed
    have hturn : .close ∈ history step (turnsOn sub.channel) (new w timeout channels) actions := by
      rcases hclosed with hclosed | hclosed
      · cases hclosed
      · exact hclosed
    rcases close_of_turns hrun hturn with hclose | ⟨closer, hcall⟩
    · exact absurd hclose hopen
    · refine ⟨?_, closer, hcall, ?_⟩
      · rcases hbooks.settled i sub hi hsub with ⟨id, e, he, hrequest⟩ | ⟨hterminal, -⟩
        · obtain ⟨-, -, sub', hsub', hchannel⟩ := hbooks.entry id e he
          rw [hrequest, hsub] at hsub'
          cases hsub'
          rw [hchannel] at hcall
          exact absurd hcall (hstreams.unclosed id e he closer)
        · exact hterminal
      · cases closer with
        | cancel =>
            obtain ⟨j, sub', hsub', hchannel, hmem⟩ := hhandled sub.channel hcall
            have hj := hchannels.index_eq hsub' hsub hchannel
            subst hj
            rw [hsub] at hsub'
            cases hsub'
            change sub.id ∈ g.cancels
            rw [hbooks.cancelled]
            exact List.mem_append_left _ (List.mem_append_left _ hmem)
        | backpressure => trivial
        | reap =>
            change List.map _ _ = _
            rw [← (hstreams.reaped i sub hi hsub hcall).2]
            exact congrArg _ hdrained.2.2.2

/-- At the end both have the whole output, and before it a part of it. -/
theorem consumer_receives_output_readToTheEnd :
    ∃ g, run step narrowEngine readToTheEnd = .ok g ∧
      ((narrowEngine.received 0 readToTheEnd ++ (g.channels 0).buffer).map fun event =>
        event.tokenId) <+: (g.scheduler.request 0).outputTokenIds ∧
      (narrowEngine.received 0 readToTheEnd).map (fun event => event.tokenId) = [1, 2, 3] ∧
      (g.scheduler.state 0).isTerminal = true ∧ (g.scheduler.state 1).isTerminal = true := by
  obtain ⟨g, hrun, hview⟩ := exists_of_map_ok (x := run step narrowEngine readToTheEnd)
    (b := (some (none, ⟨[], true, 1⟩), some (none, ⟨[], true, 1⟩), [manyTokens, twoTokens], 2))
    (f := fun g => ((g.channels 0).pop, (g.channels 1).pop, g.accepted, g.owned)) (by decide +kernel)
  simp only [Prod.mk.injEq] at hview
  obtain ⟨hend, hend', haccepted, howned⟩ := hview
  have hids : g.DistinctIds := by
    rw [DistinctIds, haccepted]
    decide
  have hchannels : g.DistinctChannels := by
    rw [DistinctChannels, haccepted]
    decide
  obtain ⟨hreceived, hterminal⟩ := consumer_receives_output (MockBackend.new ⟨0⟩ 1 5) 100
    (fun _ => .new 1) readToTheEnd g hrun hids hchannels 0 manyTokens 1 (by rw [howned]; decide)
    (by rw [haccepted]; rfl) rfl
  obtain ⟨-, hterminal'⟩ := consumer_receives_output (MockBackend.new ⟨0⟩ 1 5) 100
    (fun _ => .new 1) readToTheEnd g hrun hids hchannels 1 twoTokens 1 (by rw [howned]; decide)
    (by rw [haccepted]; rfl) rfl
  exact ⟨g, hrun, hreceived, by decide +kernel,
    (hterminal _ hend (by simp [readToTheEnd, slowReaders, engineSteps])).1,
    (hterminal' _ hend' (by simp [readToTheEnd, slowReaders, engineSteps])).1⟩

end Consumers

end Engine

end Tokamak
