import Tokamak.EngineLiveness
import Tokamak.SchedulerProgress

/-! Every submission is answered. A request needs so many more ticks at most as it has budget, and one
more if it was pushed after the submissions of this pass had been drained; every tick costs so many
steps of the engine thread as there are entries. So a bound on the steps until the request is terminal
can be read off the state, and it holds whatever the other clients do. -/

open Outcome

namespace Tokamak

namespace Request

/-- The ticks after which the request is terminal. -/
def ticksOwed (q : Request) : Nat := if q.state.isTerminal = true then 0 else q.ticksLeft

theorem ticksOwed_eq_zero_iff {q : Request} : q.ticksOwed = 0 ↔ q.state.isTerminal = true := by
  unfold ticksOwed ticksLeft
  split_ifs with h
  · exact ⟨fun _ => h, fun _ => rfl⟩
  · exact ⟨fun hzero => by omega, fun hterminal => absurd hterminal h⟩

variable {q q' : Request}

/-- A live request that takes a tick owes one tick less. -/
theorem Ticked.ticksOwed_lt (h : Ticked q q') (hlive : q.state.isTerminal = false) :
    q'.ticksOwed + 1 ≤ q.ticksOwed := by
  have hterms := h.sameTerms.maxOutputTokens
  have howed : q.ticksOwed = q.ticksLeft := if_neg (by rw [hlive]; exact Bool.false_ne_true)
  rcases h.progress hlive with hterminal | ⟨hstate, -⟩
  · rw [ticksOwed_eq_zero_iff.mpr hterminal, howed]
    exact Nat.le_max_left _ _
  · obtain ⟨-, hcount, hbudget⟩ := h.of_decoding hstate
    rw [howed, ticksOwed, if_neg (by rw [hstate]; decide)]
    unfold ticksLeft
    omega

/-- Nothing makes a request owe more ticks. -/
theorem Evolved.ticksOwed_le (h : Evolved q q') : q'.ticksOwed ≤ q.ticksOwed := by
  rcases h with rfl | ⟨hlive, hadvanced | ⟨-, hcancelled⟩⟩
  · exact le_rfl
  · exact Nat.le_of_succ_le (Ticked.ticksOwed_lt (.advanced hlive hadvanced) hlive)
  · rw [ticksOwed_eq_zero_iff.mpr (by rw [hcancelled]; rfl)]
    exact Nat.zero_le _

/-- What the engine thread does to a request: it keeps its budget and stays within it. -/
structure Moved (q q' : Request) : Prop where
  evolved : q.Evolved q'
  maxOutputTokens : q'.maxOutputTokens = q.maxOutputTokens
  within : q'.outputTokensEmitted ≤ max q.outputTokensEmitted q.maxOutputTokens

theorem Moved.refl (q : Request) : Moved q q := ⟨.inl rfl, rfl, Nat.le_max_left _ _⟩

theorem Ticked.moved (h : Ticked q q') : Moved q q' := by
  refine ⟨h.evolved, h.sameTerms.maxOutputTokens, ?_⟩
  cases h with
  | frozen => exact Nat.le_max_left _ _
  | advanced _ hadvanced =>
      cases hadvanced with
      | failed _ htokens => exact htokens.outputTokensEmitted.trans_le (Nat.le_max_left _ _)
      | emitted _ _ _ hbudget _ hcount =>
          exact hcount.trans_le ((Nat.succ_le_of_lt hbudget).trans (Nat.le_max_right _ _))

end Request

theorem FifoScheduler.CancelledById.moved {ω : Type} {s t : FifoScheduler ω} {id : RequestId}
    (h : CancelledById s id t) (hs : s.Partition) (p : RequestPtr) :
    (s.request p).Moved (t.request p) := by
  refine ⟨h.evolved hs p, ?_, (h.emitted p).trans_le (Nat.le_max_left _ _)⟩
  rcases h.request p with heq | ⟨-, -, τ, heq⟩
  · rw [heq]
  · rw [heq]
    rfl

/-- A new request owes as many ticks as it has budget. -/
theorem Submission.Queued.ticksOwed {sub : Submission} {q : Request} (h : sub.Queued q) :
    q.ticksOwed = max 1 sub.maxTokens := by
  rw [Request.ticksOwed, if_neg (by rw [h.state]; decide), Request.ticksLeft, h.maxOutputTokens,
    h.outputTokensEmitted, Nat.sub_zero]

namespace Engine

variable {ω : Type} {g g' : Engine ω} {i : Nat} {sub : Submission}

/-- The ticks after which the request of the `i`-th submission is terminal. Until it is admitted, a
tick that comes before the next swap does not count. -/
def ticksOwed (g : Engine ω) (i : Nat) (sub : Submission) : Nat :=
  if i < g.owned then (g.scheduler.request i).ticksOwed
  else max 1 sub.maxTokens +
    if g.pc.swapped = true ∧ g.accepted.length ≤ i + g.pendingSubmissions.length then 1 else 0

/-- The steps of the engine thread after which it is. -/
def serviceWork (g : Engine ω) (i : Nat) (sub : Submission) : Nat :=
  g.debt + g.ticksOwed i sub * (5 * g.load + 12)

/-- The `i`-th submission is served, by a thread that is running. -/
structure Serving (i : Nat) (sub : Submission) (most : Nat) (g : Engine ω) : Prop where
  books : Books g
  accepted : g.accepted[i]? = some sub
  running : g.running = true
  awake : g.pc ≠ .exited
  owed : g.ticksOwed i sub ≤ most

/-- A request that is terminal stays terminal. -/
theorem Frame.terminal (h : Frame g g') (hi : i < g.owned)
    (hterminal : (g.scheduler.state i).isTerminal = true) :
    (g'.scheduler.state i).isTerminal = true := by
  by_contra hlive
  have hlive' := h.live i hi (Bool.eq_false_iff.mpr hlive)
  rw [hterminal] at hlive'
  cases hlive'

/-- What clients do makes nobody owe more ticks either. -/
theorem ticksOwed_of_outside (h : Outside g g') (hpc : g'.pc = g.pc) :
    g'.ticksOwed i sub = g.ticksOwed i sub := by
  obtain ⟨w, hscheduler⟩ := h.world
  obtain ⟨subs, haccepted, hpending⟩ := h.submissions
  have howned : g'.owned = g.owned := by
    unfold owned
    rw [hscheduler]
  have hrequest : g'.scheduler.request i = g.scheduler.request i := by
    rw [hscheduler]
    rfl
  have hlate : g'.accepted.length ≤ i + g'.pendingSubmissions.length ↔
      g.accepted.length ≤ i + g.pendingSubmissions.length := by
    rw [haccepted, hpending, List.length_append, List.length_append]
    omega
  unfold ticksOwed
  simp only [howned, hrequest, hpc, hlate]

section Threads

variable [Clock ω] [InferenceBackend ω]

theorem Move.pendingSubmissions (h : Move g g') :
    g'.pendingSubmissions = g.pendingSubmissions ∨ g.pc = .drainSubmissions := by
  cases h with
  | drainSubmissions hpc => exact .inr hpc
  | push =>
      unfold pushEvent
      simp only
      split_ifs <;> exact .inl rfl
  | _ => exact .inl rfl

/-- The thread leaves its loop only when the flag is down. -/
theorem Move.exited (h : Move g g') (hawake : g.pc ≠ .exited) (hrunning : g.running = true) :
    g'.pc ≠ .exited := by
  cases h with
  | idle hpc => exact absurd hpc hawake
  | jump pc halive hadmission hcancel hreap hbetween hexit =>
      intro hpc
      have hflag := (hexit hpc).1
      rw [hrunning] at hflag
      cases hflag
  | @push id todo e tokenId steadyNow hpc =>
      rw [pushEvent_pc, hpc]
      split_ifs
      · exact fun h => by cases h
      · exact fun h => by cases h
  | _ => exact fun h => by cases h

section Flags

variable [Environment ω]

/-- The flag stays up until somebody stops the engine. -/
theorem step_running {a : EngineAction ω} (hstep : g.step a = .ok g') (hrunning : g.running = true)
    (hstop : a.isStop = false) : g'.running = true := by
  cases hcontrol : a.isControl with
  | false => exact (step_flags hstep hcontrol).running.trans hrunning
  | true =>
      cases a with
      | start =>
          unfold Engine.step at hstep
          simp only at hstep
          rw [if_pos hrunning] at hstep
          cases hstep
          exact hrunning
      | stop => cases hstop
      | join =>
          unfold Engine.step at hstep
          simp only at hstep
          split_ifs at hstep
          · cases hstep
            exact hrunning
          · cases hstep
            exact hrunning
      | _ => cases hcontrol

/-- A thread whose flag is up is in its loop. -/
theorem step_awake (hawake : g.running = true → g.pc ≠ .exited) {a : EngineAction ω}
    (hstep : g.step a = .ok g') : g'.running = true → g'.pc ≠ .exited := by
  intro hrunning
  cases hcontrol : a.isControl with
  | false =>
      have hflags := step_flags hstep hcontrol
      have hrunning' := hflags.running.symm.trans hrunning
      cases hengine : a.isEngine with
      | false =>
          rw [(step_added hstep hengine (fun _ => hrunning')).pc]
          exact hawake hrunning'
      | true =>
          cases a with
          | engine choice steadyNow =>
              have hengineStep : g.engineStep choice steadyNow = .ok g' := hstep
              exact (engineStep_move hengineStep).exited (hawake hrunning') hrunning'
          | _ => cases hengine
  | true =>
      cases a with
      | start =>
          unfold Engine.step at hstep
          simp only at hstep
          split_ifs at hstep with hflag
          · cases hstep
            exact hawake hflag
          · cases hstep
            exact fun h => by cases h
      | stop =>
          unfold Engine.step at hstep
          simp only at hstep
          split_ifs at hstep with hflag
          · cases hstep
            cases hrunning
          · cases hstep
            exact absurd hrunning hflag
      | join =>
          unfold Engine.step at hstep
          simp only at hstep
          split_ifs at hstep
          · cases hstep
            exact hawake hrunning
          · cases hstep
            exact hawake hrunning
      | _ => cases hcontrol

theorem run_awake (w : ω) (timeout : Duration) (channels : ChannelPtr → TokenChannel)
    {actions : List (EngineAction ω)} (hrun : run step (new w timeout channels) actions = .ok g) :
    g.running = true → g.pc ≠ .exited := by
  have hall : Ensures (run step (new w timeout channels) actions) (fun _ => True)
      (fun u => u.running = true → u.pc ≠ .exited) :=
    run_ensures (fun u a hu => ensures_iff.mpr ⟨fun _ h => step_awake hu h, fun _ _ => trivial⟩) _
      (fun h => by cases h) actions
  exact hall.ok hrun

/-- A client's step, as the engine sees it. -/
theorem outside_of_client {a : EngineAction ω} (hstep : g.step a = .ok g')
    (hengine : a.isEngine = false) : Outside g g' := by
  rcases step_cases hstep with houtside | ⟨choice, steadyNow, rfl, -⟩
  · exact houtside
  · cases hengine

end Flags

variable [AlignedBackend ω]

/-- What the thread does to a request: it was there before, or it is a new one. -/
theorem Move.request (h : Move g g') (hg : Books g) (hsub : g.accepted[i]? = some sub)
    (hi : i < g'.owned) :
    (i < g.owned ∧ (g.scheduler.request i).Moved (g'.scheduler.request i)) ∨
      (g.owned ≤ i ∧ sub.Queued (g'.scheduler.request i) ∧ g.pc.admitBatch ≠ []) := by
  have hcancelled : ∀ {id t}, g.scheduler.cancel id = .ok t → i < t.requests.size →
      (i < g.owned ∧ (g.scheduler.request i).Moved (t.request i)) ∨
        (g.owned ≤ i ∧ sub.Queued (t.request i) ∧ g.pc.admitBatch ≠ []) := by
    intro id t hcancel hlt
    have ht := FifoScheduler.cancel_cancelled hg.partition hcancel
    exact .inl ⟨hlt.trans_eq ht.size, ht.moved hg.partition i⟩
  cases h with
  | @admission sub' rest q w hpc hq =>
      have hnext := hg.next_accepted hpc
      change _ ∧ (g.scheduler.request i).Moved ((g.scheduler.admitted q w).request i) ∨
        _ ∧ sub.Queued ((g.scheduler.admitted q w).request i) ∧ _
      rcases admitted_cases q w hnext hi hsub with ⟨hlt, hsame⟩ | ⟨rfl, rfl, hrequest⟩
      · rw [hsame]
        exact .inl ⟨hlt, .refl _⟩
      · rw [hrequest]
        rw [hpc]
        exact .inr ⟨le_rfl, hq, List.cons_ne_nil _ _⟩
  | cancelInactive hpc hcancel => exact hcancelled hcancel hi
  | cancelActive hpc hcancel => exact hcancelled hcancel hi
  | expel hpc hid hcancel => exact hcancelled hcancel hi
  | @tick done hpc htick =>
      obtain ⟨-, -, hsize, hticked⟩ := (FifoScheduler.tick_evolves hg.partition).ok htick
      have hlt : i < g.owned := hi.trans_eq hsize
      exact .inl ⟨hlt, (hticked i hlt).moved⟩
  | @push id todo e tokenId steadyNow =>
      unfold owned at hi
      rw [pushEvent_scheduler] at hi ⊢
      exact .inl ⟨hi, .refl _⟩
  | _ => exact .inl ⟨hi, .refl _⟩

/-- A step that is paid for makes nobody owe more ticks. -/
theorem ticksOwed_le_of_paid (hmove : Move g g') (hpaid : Paid g g') (hg : Books g)
    (hsub : g.accepted[i]? = some sub) (hframe : Frame g g') :
    g'.ticksOwed i sub ≤ g.ticksOwed i sub := by
  have hlength : i < g.accepted.length := (List.getElem?_eq_some_iff.mp hsub).1
  by_cases hi : i < g'.owned
  · rw [ticksOwed, if_pos hi]
    rcases hmove.request hg hsub hi with ⟨hlt, hmoved⟩ | ⟨hold, hq, -⟩
    · rw [ticksOwed, if_pos hlt]
      exact hmoved.evolved.ticksOwed_le
    · rw [ticksOwed, if_neg (not_lt.mpr hold), hq.ticksOwed]
      exact Nat.le_add_right _ _
  · have hold : ¬i < g.owned := fun h => hi (h.trans_le hframe.owned)
    rw [ticksOwed, if_neg hi, ticksOwed, if_neg hold]
    refine Nat.add_le_add_left ?_ _
    split_ifs with hlate hbefore
    · exact le_rfl
    · -- it is still pending after a swap, so it was pending before, and the swap is not this step
      obtain ⟨hswapped, hlate⟩ := hlate
      rw [hmove.accepted] at hlate
      rcases hpaid.swapped hswapped with hpc | ⟨-, hempty⟩
      · rcases hmove.pendingSubmissions with hsame | hdrain
        · exact absurd ⟨hpc, hsame ▸ hlate⟩ hbefore
        · rw [hdrain] at hpc
          cases hpc
      · rw [hempty, List.length_nil] at hlate
        omega
    · exact Nat.zero_le _
    · exact le_rfl

/-- A tick counts for every request that is live, and for every submission that is pending. -/
theorem ticksOwed_lt_of_charged (hcharged : Charged g g') {choice : Nat} {steadyNow : TimePoint}
    (hstep : g.engineStep choice steadyNow = .ok g') (hg : Books g)
    (hsub : g.accepted[i]? = some sub)
    (hopen : ¬(i < g.owned ∧ (g.scheduler.state i).isTerminal = true)) :
    g'.ticksOwed i sub + 1 ≤ g.ticksOwed i sub := by
  have hlength : i < g.accepted.length := (List.getElem?_eq_some_iff.mp hsub).1
  have hmove := engineStep_move hstep
  by_cases hi : i < g.owned
  · have hlive : (g.scheduler.state i).isTerminal = false :=
      Bool.eq_false_iff.mpr (fun h => hopen ⟨hi, h⟩)
    obtain ⟨e, he, -⟩ := hg.active_of_live ((hg.partition.live_iff i).mpr ⟨hi, hlive⟩)
    -- there is an entry, so the tick is not skipped
    have hkeys : g.active.keys ≠ [] := List.ne_nil_of_mem (AList.mem_keys.mp (FinMap.mem_of_find he))
    unfold engineStep at hstep
    rw [hcharged.pc] at hstep
    simp only at hstep
    rw [if_neg hkeys] at hstep
    obtain ⟨done, hdone, hstep⟩ := bind_eq_ok.mp hstep
    cases hstep
    obtain ⟨-, -, hsize, hticked⟩ := (FifoScheduler.tick_evolves hg.partition).ok hdone
    have hi' : i < ({ g with scheduler := done.1, pc := .pushTokens g.active.keys } :
        Engine ω).owned := hi.trans_eq hsize.symm
    rw [ticksOwed, if_pos hi', ticksOwed, if_pos hi]
    exact (hticked i hi).ticksOwed_lt hlive
  · have hbacklog := congrArg List.length hg.backlog
    rw [hcharged.pc, List.length_drop, List.length_append] at hbacklog
    have hlate : g.pc.swapped = true ∧ g.accepted.length ≤ i + g.pendingSubmissions.length := by
      refine ⟨by rw [hcharged.pc]; rfl, ?_⟩
      simp only [EnginePc.admitBatch, List.length_nil] at hbacklog
      omega
    have hi' : ¬i < g'.owned := by
      intro hi'
      rcases hmove.request hg hsub hi' with ⟨hlt, -⟩ | ⟨-, -, hbatch⟩
      · exact hi hlt
      · rw [hcharged.pc] at hbatch
        exact hbatch rfl
    rw [ticksOwed, if_neg hi', ticksOwed, if_neg hi, if_pos hlate, if_neg]
    intro h
    rw [hcharged.swapped] at h
    exact Bool.false_ne_true h.1

variable [Environment ω]

/-- While a submission is served the thread stays in its loop. -/
theorem Serving.step {most : Nat} (h : Serving i sub most g) (hids : g'.DistinctIds)
    {a : EngineAction ω} (hstop : a.isStop = false) (hstep : g.step a = .ok g') :
    Serving i sub most g' := by
  have hsafe := h.books.admitSafe (hids.of_isPrefix (step_accepted hstep))
  obtain ⟨hbooks, hframe⟩ := h.books.step hsafe hstep
  have haccepted := getElem?_mono hframe.accepted h.accepted
  have hrunning := step_running hstep h.running hstop
  cases hengine : a.isEngine with
  | false =>
      have hpc := (step_added hstep hengine (fun _ => h.running)).pc
      refine ⟨hbooks, haccepted, hrunning, hpc ▸ h.awake, ?_⟩
      rw [ticksOwed_of_outside (outside_of_client hstep hengine) hpc]
      exact h.owed
  | true =>
      cases a with
      | engine choice steadyNow =>
          have hengineStep : g.engineStep choice steadyNow = .ok g' := hstep
          have hmove := engineStep_move hengineStep
          refine ⟨hbooks, haccepted, hrunning, hmove.exited h.awake h.running, ?_⟩
          have hentries : EntriesOwned g := fun id e he => (h.books.entry id e he).1
          rcases engineStep_paid hentries h.books.partition hengineStep h.awake with
            ⟨-, hflag⟩ | hpaid | hcharged
          · rw [h.running] at hflag
            cases hflag
          · exact (ticksOwed_le_of_paid hmove hpaid h.books h.accepted hframe).trans h.owed
          · by_cases hopen : i < g.owned ∧ (g.scheduler.state i).isTerminal = true
            · rw [ticksOwed, if_pos (hopen.1.trans_le hframe.owned),
                Request.ticksOwed_eq_zero_iff.mpr (hframe.terminal hopen.1 hopen.2)]
              exact Nat.zero_le _
            · have hlt := ticksOwed_lt_of_charged hcharged hengineStep h.books h.accepted hopen
              exact (Nat.le_of_succ_le hlt).trans h.owed
      | _ => cases hengine

omit [AlignedBackend ω] in
/-- What a client adds to the work for a submission. -/
theorem Serving.client_adds {most : Nat} (h : Serving i sub most g) {a : EngineAction ω}
    (hstep : g.step a = .ok g') (hengine : a.isEngine = false) :
    g'.serviceWork i sub ≤
      g.serviceWork i sub + ((5 * most + 1) * a.isPush.toNat + a.isCancel.toNat) := by
  have hadded := step_added hstep hengine (fun _ => h.running)
  have howed : g'.ticksOwed i sub = g.ticksOwed i sub :=
    ticksOwed_of_outside (outside_of_client hstep hengine) hadded.pc
  have hload := hadded.load
  have hdebt := hadded.debt
  have hmost := h.owed
  unfold serviceWork
  rw [howed]
  have hticks : g.ticksOwed i sub * (5 * g'.load + 12) ≤
      g.ticksOwed i sub * (5 * g.load + 12) + 5 * most * a.isPush.toNat := by
    calc g.ticksOwed i sub * (5 * g'.load + 12)
        ≤ g.ticksOwed i sub * (5 * (g.load + a.isPush.toNat) + 12) :=
          Nat.mul_le_mul_left _ (by omega)
      _ = g.ticksOwed i sub * (5 * g.load + 12) + 5 * g.ticksOwed i sub * a.isPush.toNat := by ring
      _ ≤ g.ticksOwed i sub * (5 * g.load + 12) + 5 * most * a.isPush.toNat :=
          Nat.add_le_add_left (Nat.mul_le_mul_right _ (Nat.mul_le_mul_left _ hmost)) _
  rw [Nat.add_mul]
  omega

omit [Environment ω] in
/-- A step of the engine thread is paid out of the work for a submission, unless it is a tick that comes
after the end of its request. -/
theorem Serving.engineStep_pays {most : Nat} (h : Serving i sub most g) {choice : Nat}
    {steadyNow : TimePoint} (hstep : g.engineStep choice steadyNow = .ok g') (hframe : Frame g g')
    (hopen : g.pc = .tick → ¬(i < g.owned ∧ (g.scheduler.state i).isTerminal = true)) :
    g'.serviceWork i sub + 1 ≤ g.serviceWork i sub := by
  have hentries : EntriesOwned g := fun id e he => (h.books.entry id e he).1
  unfold serviceWork
  rcases engineStep_paid hentries h.books.partition hstep h.awake with ⟨-, hflag⟩ | hpaid | hcharged
  · rw [h.running] at hflag
    cases hflag
  · have howed := ticksOwed_le_of_paid (engineStep_move hstep) hpaid h.books h.accepted hframe
    have hload := hpaid.load
    have hdebt := hpaid.debt
    have hticks : g'.ticksOwed i sub * (5 * g'.load + 12) ≤
        g.ticksOwed i sub * (5 * g.load + 12) := Nat.mul_le_mul howed (by omega)
    omega
  · have howed := ticksOwed_lt_of_charged hcharged hstep h.books h.accepted (hopen hcharged.pc)
    have hdebt := hcharged.debt
    have hticks : (g'.ticksOwed i sub + 1) * (5 * g.load + 12) ≤
        g.ticksOwed i sub * (5 * g.load + 12) := Nat.mul_le_mul_right _ howed
    rw [hcharged.load]
    rw [Nat.add_mul] at hticks
    omega

/-- While a submission is served, the thread pays for its way to the end of the request. -/
theorem service_pays (i : Nat) (sub : Submission) (most : Nat) :
    Pays Engine.step (fun u : Engine ω => u.DistinctIds) (Serving i sub most)
      (fun u => i < u.owned ∧ (u.scheduler.state i).isTerminal = true) (fun a => a.isStop = false)
      (fun u => u.serviceWork i sub) (fun a => a.isEngine.toNat)
      (fun a => (5 * most + 1) * a.isPush.toNat + a.isCancel.toNat) where
  back _ _ _ hstep hids := hids.of_isPrefix (step_accepted hstep)
  keeps g a g' h hids hstop hstep := h.step hids hstop hstep
  stays g a g' h hids hstop hgoal hstep := by
    have hsafe := h.books.admitSafe (hids.of_isPrefix (step_accepted hstep))
    obtain ⟨-, hframe⟩ := h.books.step hsafe hstep
    exact ⟨hgoal.1.trans_le hframe.owned, hframe.terminal hgoal.1 hgoal.2⟩
  pays g a g' h hids hstop hopen hstep := by
    refine .inr ?_
    have hsafe := h.books.admitSafe (hids.of_isPrefix (step_accepted hstep))
    obtain ⟨-, hframe⟩ := h.books.step hsafe hstep
    cases hengine : a.isEngine with
    | false => exact h.client_adds hstep hengine
    | true =>
        cases a with
        | engine choice steadyNow =>
            refine (h.engineStep_pays hstep hframe (fun _ => hopen)).trans ?_
            exact Nat.le_add_right _ _
        | _ => cases hengine

/-- **Every submission is answered.** In every run of the system with distinct ids: once a submission has
been pushed and as long as nobody stops the engine, its request is admitted and terminal after
`serviceWork` steps of the engine thread, a bounded number more for each submission that is pushed
meanwhile and one for each cancel. Nobody can be kept waiting: neither by a consumer that does not read,
nor by other clients, nor by a backend that fails. -/
theorem submission_answered (w : ω) (timeout : Duration) (channels : ChannelPtr → TokenChannel)
    (past : List (EngineAction ω)) (g : Engine ω)
    (hrun : run step (new w timeout channels) past = .ok g) (hrunning : g.running = true)
    (i : Nat) (sub : Submission) (hsub : g.accepted[i]? = some sub)
    (later : List (EngineAction ω)) (g' : Engine ω) (hlater : run step g later = .ok g')
    (hids : g'.DistinctIds) (hstop : ∀ a ∈ later, a.isStop = false)
    (hlong : g.serviceWork i sub + ((5 * g.ticksOwed i sub + 1) * later.countP EngineAction.isPush +
      later.countP EngineAction.isCancel) < later.countP EngineAction.isEngine) :
    i < g'.owned ∧ (g'.scheduler.state i).isTerminal = true := by
  have hback := good_of_run (service_pays i sub (g.ticksOwed i sub)).back hlater hids
  have hserving : Serving i sub (g.ticksOwed i sub) g :=
    ⟨run_books w timeout channels hrun hback, hsub, hrunning, run_awake w timeout channels hrun hrunning,
      le_rfl⟩
  refine (service_pays i sub (g.ticksOwed i sub)).reached hserving hstop hlater hids ?_
  rw [sum_map_weights, sum_map_toNat]
  exact hlong

/-- A submission that comes while another request decodes. -/
def latecomer : Submission := { oneToken with id := "b", channel := 1 }

def submittedInPass : List (EngineAction MockBackend) :=
  [.start, .submit manyTokens, .push 0] ++ engineSteps 9 ++ [.submit latecomer, .push 0]

/-- The thread goes on, and a third submission comes in. -/
def goingOn : List (EngineAction MockBackend) :=
  engineSteps 20 ++ [.submit { oneToken with id := "c", channel := 2 }, .push 0] ++ engineSteps 50

theorem submission_answered_latecomer :
    ∃ g g', run step idleEngine submittedInPass = .ok g ∧ g.owned = 1 ∧
      run step g goingOn = .ok g' ∧ (g'.scheduler.state 1).isTerminal = true := by
  obtain ⟨g, hrun, hview⟩ := exists_of_map_ok (x := run step idleEngine submittedInPass)
    (f := fun g => (g.running, g.owned, g.accepted, g.serviceWork 1 latecomer,
      g.ticksOwed 1 latecomer))
    (b := (true, 1, [manyTokens, latecomer], 38, 1)) (by decide +kernel)
  simp only [Prod.mk.injEq] at hview
  obtain ⟨hrunning, howned, haccepted, hwork, howed⟩ := hview
  obtain ⟨g', hlater, hids⟩ := exists_of_map_ok
    (x := run step idleEngine (submittedInPass ++ goingOn))
    (f := fun g' => g'.accepted.map fun sub => sub.id) (b := ["a", "b", "c"]) (by decide +kernel)
  rw [run_append, hrun] at hlater
  have hpushes : goingOn.countP EngineAction.isPush = 1 := by decide
  have hcancels : goingOn.countP EngineAction.isCancel = 0 := by decide
  have hsteps : goingOn.countP EngineAction.isEngine = 70 := by decide
  obtain ⟨-, hterminal⟩ := submission_answered (MockBackend.new ⟨0⟩ 1 5) 100 (fun _ => .new 4)
    submittedInPass g hrun hrunning 1 latecomer (by rw [haccepted]; rfl) goingOn g' hlater
    (by rw [DistinctIds, hids]; decide) (by decide)
    (by rw [hwork, howed, hpushes, hcancels, hsteps]; decide)
  exact ⟨g, g', hrun, howned, hlater, hterminal⟩

end Threads

end Engine

end Tokamak
