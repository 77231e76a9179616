import Tokamak.EngineAnswers
import Tokamak.EngineDelivery
import Tokamak.EngineLoop
import Tokamak.EngineTotal

/-! Submissions that nobody hears of. `drain_submissions` hands every submission to the scheduler, and
`emplace` keeps no entry for one whose id is active. Such a request is computed like any other; but its
channel is not known to the engine, so its consumer is sent nothing and waits for ever. A channel comes
to be known in no other way than by the admission of its submission under a free id. -/

open Outcome

namespace Tokamak

namespace Engine

variable {ω : Type} {g g' : Engine ω} {c : ChannelPtr}

/-- An entry streams to channel `c`, or the engine has called it. -/
def Knows (g : Engine ω) (c : ChannelPtr) : Prop :=
  (∃ id e, g.active.find id = some e ∧ e.channel = c) ∨ ∃ call ∈ g.calls, call.channel = c

/-- The engine is about to admit a submission with channel `c` under a free id. -/
def Introduces (g : Engine ω) (c : ChannelPtr) : Prop :=
  ∃ sub rest, g.pc = .admitting (sub :: rest) ∧ sub.id ∉ g.active ∧ sub.channel = c

theorem knows_congr (hactive : g'.active = g.active) (hcalls : g'.calls = g.calls) :
    g'.Knows c ↔ g.Knows c := by
  unfold Knows
  rw [hactive, hcalls]

/-- An entry that is closed is known by the call. -/
theorem knows_closeEntry {id : RequestId} {e : ActiveEntry} (he : g.active.find id = some e)
    {closer : Closer} (hactive : g'.active = g.active.erase id)
    (hcalls : g'.calls = g.calls ++ [.close e.channel closer]) : g'.Knows c ↔ g.Knows c := by
  unfold Knows
  rw [hactive, hcalls]
  constructor
  · rintro (⟨a, e', he', hc⟩ | ⟨call, hcall, hc⟩)
    · rw [FinMap.find_erase] at he'
      split_ifs at he'
      exact .inl ⟨a, e', he', hc⟩
    · rcases List.mem_append.mp hcall with hcall | hcall
      · exact .inr ⟨call, hcall, hc⟩
      · rw [List.mem_singleton.mp hcall] at hc
        exact .inl ⟨id, e, he, hc⟩
  · rintro (⟨a, e', he', hc⟩ | ⟨call, hcall, hc⟩)
    · by_cases ha : a = id
      · subst ha
        rw [he] at he'
        cases he'
        exact .inr ⟨_, List.mem_append_right _ (List.mem_singleton_self _), hc⟩
      · refine .inl ⟨a, e', ?_, hc⟩
        rw [FinMap.find_erase, if_neg ha]
        exact he'
    · exact .inr ⟨call, List.mem_append_left _ hcall, hc⟩

/-- So is an entry that is sent a token. -/
theorem knows_pushEvent {id : RequestId} {e : ActiveEntry} (he : g.active.find id = some e)
    (event : TokenEvent) (todo : List RequestId) (steadyNow : TimePoint) :
    (g.pushEvent id e event todo steadyNow).Knows c ↔ g.Knows c := by
  obtain ⟨e', channels, pc, -, hchannel, -, -, -, heq⟩ := pushEvent_eq g id e event todo steadyNow
  rw [heq]
  unfold Knows
  constructor
  · rintro (⟨a, e'', he'', hc⟩ | ⟨call, hcall, hc⟩)
    · change FinMap.find (g.active.replace id e') a = some e'' at he''
      rw [FinMap.find_replace (FinMap.mem_of_find he)] at he''
      split_ifs at he''
      · cases he''
        exact .inl ⟨id, e, he, hchannel ▸ hc⟩
      · exact .inl ⟨a, e'', he'', hc⟩
    · rcases List.mem_append.mp hcall with hcall | hcall
      · exact .inr ⟨call, hcall, hc⟩
      · rw [List.mem_singleton.mp hcall] at hc
        exact .inl ⟨id, e, he, hc⟩
  · rintro (⟨a, e'', he'', hc⟩ | ⟨call, hcall, hc⟩)
    · by_cases ha : a = id
      · subst ha
        rw [he] at he''
        cases he''
        exact .inr ⟨_, List.mem_append_right _ (List.mem_singleton_self _), hc⟩
      · refine .inl ⟨a, e'', ?_, hc⟩
        change FinMap.find (g.active.replace id e') a = some e''
        rw [FinMap.find_replace (FinMap.mem_of_find he), if_neg ha]
        exact he''
    · exact .inr ⟨call, List.mem_append_left _ hcall, hc⟩

/-- A submission becomes an entry when its id is free, and leaves no trace otherwise. -/
theorem knows_admitted {sub : Submission} {p : RequestPtr}
    (hactive : g'.active = g.active.emplace sub.id ⟨p, sub.channel, 0, none⟩)
    (hcalls : g'.calls = g.calls) :
    g'.Knows c ↔ g.Knows c ∨ (sub.id ∉ g.active ∧ sub.channel = c) := by
  by_cases hmem : sub.id ∈ g.active
  · rw [FinMap.emplace_of_mem hmem] at hactive
    rw [knows_congr hactive hcalls]
    exact ⟨.inl, fun h => h.resolve_right (fun hfree => hfree.1 hmem)⟩
  · rw [FinMap.emplace_of_notMem hmem] at hactive
    unfold Knows
    rw [hactive, hcalls]
    constructor
    · rintro (⟨a, e, he, hc⟩ | hcall)
      · rw [FinMap.find_insert] at he
        split_ifs at he
        · cases he
          exact .inr ⟨hmem, hc⟩
        · exact .inl (.inl ⟨a, e, he, hc⟩)
      · exact .inl (.inr hcall)
    · rintro ((⟨a, e, he, hc⟩ | hcall) | ⟨-, hc⟩)
      · have hne : a ≠ sub.id := fun heq => hmem (heq ▸ FinMap.mem_of_find he)
        refine .inl ⟨a, e, ?_, hc⟩
        rw [FinMap.find_insert, if_neg hne]
        exact he
      · exact .inr hcall
      · refine .inl ⟨sub.id, ⟨p, sub.channel, 0, none⟩, ?_, hc⟩
        rw [FinMap.find_insert, if_pos rfl]

section Steps

variable [Clock ω] [InferenceBackend ω]

/-- A move that admits nobody makes no channel known. -/
theorem Move.knows (h : Move g g') (hpc : ∀ sub rest, g.pc ≠ .admitting (sub :: rest)) :
    g'.Knows c ↔ g.Knows c := by
  cases h with
  | admission hadmitting => exact absurd hadmitting (hpc _ _)
  | cancelActive hcancelling hcancel he => exact knows_closeEntry he rfl rfl
  | expel hexpelling hid hcancel he => exact knows_closeEntry he rfl rfl
  | reap hreaping hid he => exact knows_closeEntry he rfl rfl
  | push steadyNow hpushing he => exact knows_pushEvent he _ _ steadyNow
  | _ => exact knows_congr rfl rfl

theorem engineStep_knows {choice : Nat} {steadyNow : TimePoint}
    (h : g.engineStep choice steadyNow = .ok g') : g'.Knows c ↔ g.Knows c ∨ g.Introduces c := by
  by_cases hadmitting : ∃ sub rest, g.pc = .admitting (sub :: rest)
  · obtain ⟨sub, rest, hpc⟩ := hadmitting
    obtain ⟨q, w, -, hadmission⟩ := admitSubmission_eq g sub
    have hintroduces : g.Introduces c ↔ sub.id ∉ g.active ∧ sub.channel = c := by
      refine ⟨?_, fun h => ⟨sub, rest, hpc, h⟩⟩
      rintro ⟨sub', rest', hpc', h⟩
      rw [hpc] at hpc'
      cases hpc'
      exact h
    unfold engineStep at h
    rw [hpc] at h
    simp only at h
    rw [hadmission] at h
    cases h
    rw [hintroduces]
    exact knows_admitted rfl rfl
  · rw [(engineStep_move h).knows (fun sub rest hpc => hadmitting ⟨sub, rest, hpc⟩)]
    refine ⟨.inl, fun h => h.resolve_right ?_⟩
    rintro ⟨sub, rest, hpc, -⟩
    exact hadmitting ⟨sub, rest, hpc⟩

variable [Environment ω]

/-- A channel that comes to be known belongs to a submission that is on its way. -/
theorem step_knows {a : EngineAction ω} (h : g.step a = .ok g') :
    g'.Knows c ↔ g.Knows c ∨ (a.isEngine = true ∧ g.Introduces c) := by
  cases hengine : a.isEngine with
  | false =>
      have houtside := outside_of_client h hengine
      rw [knows_congr houtside.active houtside.calls]
      simp
  | true =>
      cases a with
      | engine choice steadyNow =>
          have hstep : g.engineStep choice steadyNow = .ok g' := h
          rw [engineStep_knows hstep]
          simp
      | _ => cases hengine

omit [Environment ω] in
theorem Move.entering (h : Move g g') : g'.entering = g.entering := by
  cases h with
  | push =>
      unfold pushEvent
      simp only
      split_ifs <;> rfl
  | _ => rfl

/-- What is on its way was on its way before, or is submitted now. -/
theorem step_inbound {a : EngineAction ω} (h : g.step a = .ok g') {sub : Submission}
    (hsub : sub ∈ g'.inbound) : sub ∈ g.inbound ∨ a = .submit sub := by
  unfold inbound at hsub ⊢
  cases a with
  | engine choice steadyNow =>
      have hstep : g.engineStep choice steadyNow = .ok g' := h
      have hhanded := engineStep_handed hstep
      rw [(engineStep_move hstep).entering, List.append_assoc] at hsub
      rw [List.append_assoc, ← hhanded]
      refine .inl ?_
      rcases List.mem_append.mp hsub with hsub | hsub
      · exact List.mem_append_left _ hsub
      · exact List.mem_append_right _ (List.mem_append_right _ hsub)
  | start =>
      unfold step at h
      simp only at h
      split_ifs at h
      · cases h
        exact .inl hsub
      · cases h
        simp only [EnginePc.admitBatch, List.append_nil] at hsub
        refine .inl ?_
        rcases List.mem_append.mp hsub with hsub | hsub
        · exact List.mem_append_left _ (List.mem_append_left _ hsub)
        · exact List.mem_append_right _ hsub
  | stop =>
      cases h
      split_ifs at hsub
      · exact .inl hsub
      · exact .inl hsub
  | join =>
      cases h
      split_ifs at hsub
      · exact .inl hsub
      · exact .inl hsub
  | submit sub' =>
      cases h
      split_ifs at hsub
      · simp only [List.append_assoc, List.mem_append, List.mem_singleton] at hsub ⊢
        rcases hsub with hsub | rfl | hsub
        · exact .inl (.inl hsub)
        · exact .inr rfl
        · exact .inl (.inr hsub)
      · exact .inl hsub
  | push k =>
      unfold step at h
      simp only at h
      split at h
      · cases h
        exact .inl hsub
      · rename_i sub' hsub'
        cases h
        refine .inl ?_
        simp only [List.mem_append, List.mem_singleton] at hsub ⊢
        rcases hsub with (hsub | hsub) | hsub | rfl
        · exact .inl (.inl (List.mem_of_mem_eraseIdx hsub))
        · exact .inl (.inr hsub)
        · exact .inr hsub
        · exact .inl (.inl (List.mem_of_getElem? hsub'))
  | cancel id =>
      cases h
      exact .inl hsub
  | pop channel =>
      unfold step at h
      simp only at h
      split at h
      · cases h
        exact .inl hsub
      · cases h
        exact .inl hsub
  | close channel =>
      cases h
      exact .inl hsub
  | event e =>
      obtain ⟨w, -, h⟩ := bind_eq_ok.mp h
      cases h
      exact .inl hsub

/-- The channels the engine knows are those of submissions it has drained and dealt with. -/
def Backed (g : Engine ω) : Prop :=
  ∃ front, g.accepted = front ++ (g.pc.admitBatch ++ g.pendingSubmissions) ∧
    ∀ c, g.Knows c → ∃ sub ∈ front, sub.channel = c

theorem Backed.step (h : Backed g) {a : EngineAction ω} (hstep : g.step a = .ok g') : Backed g' := by
  obtain ⟨front, haccepted, hknown⟩ := h
  cases hengine : a.isEngine with
  | false =>
      have houtside := outside_of_client hstep hengine
      have hknown' : ∀ c, g'.Knows c → ∃ sub ∈ front, sub.channel = c := fun c hc =>
        hknown c ((knows_congr houtside.active houtside.calls).mp hc)
      obtain ⟨subs, hnew, hpending⟩ := houtside.submissions
      rcases houtside.pc with hpc | ⟨-, hpc, -⟩
      · refine ⟨front, ?_, hknown'⟩
        rw [hnew, haccepted, hpending, hpc]
        simp only [List.append_assoc]
      · -- the thread is new, and has no batch
        refine ⟨front ++ g.pc.admitBatch, ?_, fun c hc => ?_⟩
        · rw [hnew, haccepted, hpending, hpc]
          simp only [EnginePc.admitBatch, List.nil_append, List.append_assoc]
        · obtain ⟨sub, hsub, hchannel⟩ := hknown' c hc
          exact ⟨sub, List.mem_append_left _ hsub, hchannel⟩
  | true =>
      cases a with
      | engine choice steadyNow =>
          have hengineStep : g.engineStep choice steadyNow = .ok g' := hstep
          have hhanded := engineStep_handed hengineStep
          refine ⟨front ++ g.handedOver (.engine choice steadyNow), ?_, fun c hc => ?_⟩
          · rw [(engineStep_move hengineStep).accepted, haccepted, List.append_assoc, hhanded]
          · rcases (engineStep_knows hengineStep).mp hc with hc | ⟨sub, rest, hpc, -, hchannel⟩
            · obtain ⟨sub, hsub, hchannel⟩ := hknown c hc
              exact ⟨sub, List.mem_append_left _ hsub, hchannel⟩
            · refine ⟨sub, List.mem_append_right _ ?_, hchannel⟩
              simp only [handedOver, hpc, List.mem_singleton]
      | _ => cases hengine

/-- The engine does not know channel `c`, and nothing on its way will tell. -/
structure Unknown (c : ChannelPtr) (g : Engine ω) : Prop where
  unknown : ¬g.Knows c
  inbound : ∀ sub ∈ g.inbound, sub.channel ≠ c

theorem Unknown.step (h : Unknown c g) {a : EngineAction ω}
    (ha : ∀ sub, a = .submit sub → sub.channel ≠ c) (hstep : g.step a = .ok g') : Unknown c g' := by
  refine ⟨fun hc => ?_, fun sub hsub => ?_⟩
  · rcases (step_knows hstep).mp hc with hc | ⟨-, sub, rest, hpc, -, hchannel⟩
    · exact h.unknown hc
    · refine h.inbound sub ?_ hchannel
      unfold Engine.inbound
      rw [hpc]
      exact List.mem_append_left _ (List.mem_append_right _ List.mem_cons_self)
  · rcases step_inbound hstep hsub with hsub | hsubmit
    · exact h.inbound sub hsub
    · exact ha sub hsubmit

theorem run_unknown (h : Unknown c g) {actions : List (EngineAction ω)}
    (hsubmit : ∀ a ∈ actions, ∀ sub, a = .submit sub → sub.channel ≠ c)
    (hrun : run Engine.step g actions = .ok g') : Unknown c g' :=
  run_good (fun _ _ _ _ _ => trivial) (fun _ _ _ hu _ ha hstep => hu.step ha hstep) h hsubmit hrun
    trivial

theorem run_knows (h : g.Knows c) {actions : List (EngineAction ω)}
    (hrun : run Engine.step g actions = .ok g') : g'.Knows c := by
  have hall : Ensures (run Engine.step g actions) (fun _ => True) (fun u => u.Knows c) :=
    run_ensures (fun u a hu => ensures_iff.mpr
      ⟨fun _ hstep => (step_knows hstep).mpr (.inl hu), fun _ _ => trivial⟩) g h actions
  exact hall.ok hrun

theorem run_backed (w : ω) (timeout : Duration) (channels : ChannelPtr → TokenChannel)
    {actions : List (EngineAction ω)} (hrun : run step (new w timeout channels) actions = .ok g) :
    Backed g := by
  have hstart : Backed (new w timeout channels) := by
    refine ⟨[], rfl, fun c hc => ?_⟩
    rcases hc with ⟨id, e, he, -⟩ | ⟨call, hcall, -⟩
    · simp [Engine.new] at he
    · cases hcall
  have hall : Ensures (run Engine.step (new w timeout channels) actions) (fun _ => True) Backed :=
    run_ensures (fun u a hu => ensures_iff.mpr ⟨fun _ hstep => hu.step hstep, fun _ _ => trivial⟩) _
      hstart actions
  exact hall.ok hrun

/-- A consumer of a channel that the engine never called has been handed nothing and waits. -/
theorem unheard {w : ω} {timeout : Duration} {channels : ChannelPtr → TokenChannel}
    {actions : List (EngineAction ω)} (hrun : run step (new w timeout channels) actions = .ok g)
    (hcalls : ∀ call ∈ g.calls, call.channel ≠ c) {capacity : Nat}
    (hfresh : channels c = .new capacity) (hopen : .close c ∉ actions) :
    (new w timeout channels).received c actions = [] ∧ (g.channels c).pop = none := by
  have horder : (new w timeout channels).received c actions ++ (g.channels c).buffer =
      g.delivered c := (run_fifo hrun hfresh).order
  rw [delivered_eq_nil hcalls] at horder
  obtain ⟨hreceived, hempty⟩ := List.append_eq_nil_iff.mp horder
  have hclosed : (g.channels c).closed = false := by
    refine Bool.eq_false_iff.mpr (fun hclosed => ?_)
    have hplayed : (g.conveyed c ((new w timeout channels).received c actions)).channel.closed =
        true := hclosed
    rw [run_new_conveyed hrun hfresh, ChannelHistory.closed_play] at hplayed
    rcases hplayed with hclosed | hturn
    · cases hclosed
    · rcases close_of_turns hrun hturn with hclose | ⟨closer, hcall⟩
      · exact hopen hclose
      · exact hcalls _ hcall rfl
  refine ⟨hreceived, ?_⟩
  unfold TokenChannel.pop
  rw [hempty, hclosed]
  rfl

/-- **Who reuses an active id is never heard of.** In every run, whatever the ids are: when the engine is
about to admit a submission whose channel is used by no other, it queues a request for it in any case;
but it ever makes a call on its channel, or keeps an entry for it, exactly if the id is not active. If it
is, then for all that follows the consumer is handed nothing, and waits for ever. -/
theorem duplicate_unheard (w : ω) (timeout : Duration) (channels : ChannelPtr → TokenChannel)
    (past : List (EngineAction ω)) (g : Engine ω)
    (hrun : run step (new w timeout channels) past = .ok g) (sub : Submission)
    (rest : List Submission) (hpc : g.pc = .admitting (sub :: rest))
    (hchannels : ((g.accepted ++ g.entering).map fun sub => sub.channel).count sub.channel = 1)
    (choice : Nat) (steadyNow : TimePoint) (later : List (EngineAction ω)) (g' : Engine ω)
    (hlater : run step g (.engine choice steadyNow :: later) = .ok g')
    (hsubmit : ∀ sub', .submit sub' ∈ later → sub'.channel ≠ sub.channel) :
    (∃ g₁, g.step (.engine choice steadyNow) = .ok g₁ ∧ g₁.owned = g.owned + 1 ∧
      sub.Queued (g₁.scheduler.request g.owned)) ∧
    (g'.Knows sub.channel ↔ sub.id ∉ g.active) ∧
    (sub.id ∈ g.active → ∀ capacity, channels sub.channel = .new capacity →
      .close sub.channel ∉ past ++ later →
      (new w timeout channels).received sub.channel (past ++ .engine choice steadyNow :: later) = [] ∧
        (g'.channels sub.channel).pop = none) := by
  obtain ⟨front, haccepted, hknown⟩ := run_backed w timeout channels hrun
  rw [hpc] at haccepted
  have hsplit : g.accepted ++ g.entering =
      front ++ sub :: (rest ++ g.pendingSubmissions ++ g.entering) := by
    rw [haccepted]
    simp [EnginePc.admitBatch]
  rw [hsplit, List.map_append, List.map_cons, List.count_append, List.count_cons_self] at hchannels
  have hfront : sub.channel ∉ front.map fun sub => sub.channel := by
    rw [← List.count_eq_zero]
    omega
  have hback : sub.channel ∉ (rest ++ g.pendingSubmissions ++ g.entering).map fun sub => sub.channel := by
    rw [← List.count_eq_zero]
    omega
  -- nobody else uses the channel
  have hunknown : ¬g.Knows sub.channel := by
    intro hc
    obtain ⟨sub', hsub', hchannel⟩ := hknown _ hc
    exact hfront (hchannel ▸ List.mem_map_of_mem hsub')
  have hothers : ∀ sub' ∈ rest ++ g.pendingSubmissions ++ g.entering, sub'.channel ≠ sub.channel :=
    fun sub' hsub' hchannel => hback (hchannel ▸ List.mem_map_of_mem hsub')
  rw [run_cons] at hlater
  obtain ⟨g₁, hstep, hlater⟩ := bind_eq_ok.mp hlater
  have hcode : g.engineStep choice steadyNow = .ok g₁ := hstep
  obtain ⟨q, world, hq, hadmission⟩ := admitSubmission_eq g sub
  unfold engineStep at hcode
  rw [hpc] at hcode
  simp only at hcode
  rw [hadmission] at hcode
  cases hcode
  have hqueued : sub.Queued ((g.scheduler.admitted q world).request g.owned) := by
    rw [show (g.scheduler.admitted q world).request g.owned = q from
      FifoScheduler.request_admitted_self g.scheduler q world]
    exact hq
  have hnext := step_knows (c := sub.channel) hstep
  have hduplicate : sub.id ∈ g.active → Unknown sub.channel g' := by
    intro hactive
    refine run_unknown ⟨fun hc => ?_, fun sub' hsub' => ?_⟩ (fun a ha sub' heq => ?_) hlater
    · rcases hnext.mp hc with hc | ⟨-, sub', rest', hpc', hfree, -⟩
      · exact hunknown hc
      · rw [hpc] at hpc'
        cases hpc'
        exact hfree hactive
    · refine hothers sub' ?_
      have hmem : sub' ∈ g.entering ++ rest ++ g.pendingSubmissions := hsub'
      simp only [List.mem_append] at hmem ⊢
      tauto
    · exact hsubmit sub' (heq ▸ ha)
  refine ⟨⟨_, hstep, rfl, hqueued⟩, ⟨fun hc hactive => ?_, fun hfree => ?_⟩, ?_⟩
  · exact (hduplicate hactive).unknown hc
  · exact run_knows (hnext.mpr (.inr ⟨rfl, sub, rest, hpc, hfree, rfl⟩)) hlater
  · intro hactive capacity hfresh hopen
    have hwhole : run step (new w timeout channels) (past ++ .engine choice steadyNow :: later) =
        .ok g' := by
      rw [run_append, hrun]
      change run step g _ = _
      rw [run_cons, hstep]
      exact hlater
    refine unheard hwhole (fun call hcall hc => ?_) hfresh (fun hclose => ?_)
    · exact (hduplicate hactive).unknown (.inr ⟨call, hcall, hc⟩)
    · rcases List.mem_append.mp hclose with hclose | hclose
      · exact hopen (List.mem_append_left _ hclose)
      · rcases List.mem_cons.mp hclose with heq | hclose
        · cases heq
        · exact hopen (List.mem_append_right _ hclose)

/-- The id of a stream whose request is completed and whose consumer does not read. -/
def reusedId : List (EngineAction MockBackend) :=
  [.start, .submit manyTokens, .push 0] ++ engineSteps 44 ++
    [.submit { oneToken with channel := 1 }, .push 0] ++ engineSteps 3

theorem duplicate_unheard_reusedId :
    ∃ g', run step (new (.new ⟨0⟩ 1 5) 100 (fun _ => .new 1))
        (reusedId ++ .engine 0 0 :: engineSteps 20) = .ok g' ∧
      g'.owned = 2 ∧ g'.scheduler.state 1 = .completed ∧ (g'.channels 1).pop = none := by
  obtain ⟨g, hrun, hview⟩ := exists_of_map_ok
    (x := run step (new (.new ⟨0⟩ 1 5) 100 (fun _ => .new 1)) reusedId)
    (f := fun g => (g.pc, (g.accepted ++ g.entering).map fun sub => sub.channel, g.active.keys))
    (b := (.admitting [{ oneToken with channel := 1 }], [0, 1], ["a"])) (by decide +kernel)
  simp only [Prod.mk.injEq] at hview
  obtain ⟨hpc, hchannels, hkeys⟩ := hview
  obtain ⟨g', hwhole, hview'⟩ := exists_of_map_ok
    (x := run step (new (.new ⟨0⟩ 1 5) 100 (fun _ => .new 1))
      (reusedId ++ .engine 0 0 :: engineSteps 20))
    (f := fun g' => (g'.owned, g'.scheduler.state 1)) (b := (2, .completed)) (by decide +kernel)
  obtain ⟨howned, hstate⟩ := Prod.mk.inj hview'
  have hlater : run step g (.engine 0 0 :: engineSteps 20) = .ok g' := by
    rw [run_append, hrun] at hwhole
    exact hwhole
  obtain ⟨-, -, hunheard⟩ := duplicate_unheard (MockBackend.new ⟨0⟩ 1 5) 100 (fun _ => .new 1)
    reusedId g hrun { oneToken with channel := 1 } [] hpc (by rw [hchannels]; decide) 0 0
    (engineSteps 20) g' hlater (by simp [engineSteps])
  have hactive : "a" ∈ g.active := by
    rw [AList.mem_keys, hkeys]
    decide
  exact ⟨g', hwhole, howned, hstate,
    (hunheard hactive 1 rfl (by simp [reusedId, engineSteps])).2⟩

end Steps

end Engine

end Tokamak
