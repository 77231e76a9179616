import Tokamak.SchedulerQuiet

/-! Deadlines over a whole run, for any mock backend: errors may be injected, sequences may end, ids may
be shared. The deadline is compared once per tick, before the batches are put together, and the clock
moves during the calls that follow. So a deadline is enforced at the start of a tick and not inside it:
a request can be completed late, by no more than the tick it is completed in takes. -/

open Outcome

namespace Tokamak

/-- A live request fails in the expiry exactly if its deadline has passed. -/
theorem Request.failed_expire_iff {q : Request} {t : TimePoint}
    (hlive : q.state = .waitingPrefill ∨ q.state = .decoding) :
    (q.expire t).state = .failed ↔ q.deadlineAt < t := by
  constructor
  · intro hfailed
    by_contra hexpired
    rw [expire_of_not_expired t hexpired] at hfailed
    rcases hlive with hstate | hstate
    · rw [hstate] at hfailed
      cases hfailed
    · rw [hstate] at hfailed
      cases hfailed
  · intro hexpired
    rcases hlive with hstate | hstate
    · rw [expire_of_waiting t hexpired hstate]
      rfl
    · rw [expire_of_decoding t hexpired hstate]
      rfl

namespace FifoScheduler

section Batches

variable {ω : Type} [Clock ω] [InferenceBackend ω]

/-- The tick that starts now retires the request as expired. -/
def ExpiresNow (s : FifoScheduler ω) (r : RequestPtr) : Prop :=
  s.Live r ∧ ∃ a report, s.expireDeadlines = .ok (a, report) ∧ a.state r = .failed

/-- The tick that starts now has the request in its prefill batch. -/
def PrefillsNow (s : FifoScheduler ω) (r : RequestPtr) : Prop :=
  ∃ a report, s.expireDeadlines = .ok (a, report) ∧ r ∈ a.waiting

/-- The tick that starts now has the request in its decode batch. -/
def DecodesNow (s : FifoScheduler ω) (r : RequestPtr) : Prop :=
  ∃ a report b report', s.expireDeadlines = .ok (a, report) ∧ a.prefillPhase = .ok (b, report') ∧
    r ∈ b.decoding

/-- The states between the phases of a tick that does not abort. -/
theorem tick_phases {s u : FifoScheduler ω} {report : TickReport} (h : s.tick = .ok (u, report)) :
    ∃ a b c : FifoScheduler ω × TickReport, s.expireDeadlines = .ok a ∧ a.1.prefillPhase = .ok b ∧
      b.1.decodePhase = .ok c ∧ u = { c.1 with world := (Clock.now c.1.world).2 } := by
  obtain ⟨a, ha, h⟩ := bind_eq_ok.mp h
  obtain ⟨b, hb, h⟩ := bind_eq_ok.mp h
  obtain ⟨c, hc, h⟩ := bind_eq_ok.mp h
  cases h
  exact ⟨a, b, c, ha, hb, hc, rfl⟩

/-- A request that is not in the decode batch of a tick keeps its tokens, and is not completed by it. -/
theorem tick_of_not_decodesNow [AlignedBackend ω] {s u : FifoScheduler ω} {report : TickReport}
    (hs : s.Partition) (htick : s.tick = .ok (u, report)) {r : RequestPtr} (hr : ¬s.DecodesNow r) :
    (s.request r).SameTokens (u.request r) ∧
      (u.state r = .completed → s.state r = .completed) := by
  obtain ⟨a, b, c, ha, hb, hc, rfl⟩ := tick_phases htick
  obtain ⟨hpartA, -, hculled⟩ := (expireDeadlines_culls hs).ok ha
  obtain ⟨hpartB, -, -, hprefilled⟩ := (prefillPhase_prefills hpartA).ok hb
  obtain ⟨-, -, -, hsame, -⟩ := (decodePhase_advances hpartB).ok hc
  have hout : r ∉ b.1.decoding := fun hmem => hr ⟨a.1, a.2, b.1, b.2, ha, hb, hmem⟩
  -- from the end of the tick back to its start
  have hprefill : (a.1.request r).SameTokens (b.1.request r) ∧
      (b.1.state r = .completed → a.1.state r = .completed) := by
    rcases hprefilled r with heq | ⟨-, -, htokens, hstate⟩
    · rw [state, heq]
      exact ⟨.refl _, fun h => h⟩
    · refine ⟨htokens, fun hcompleted => ?_⟩
      rw [state] at hcompleted
      rw [hcompleted] at hstate
      rcases hstate with h | h <;> cases h
  have hexpire : (s.request r).SameTokens (a.1.request r) ∧
      (a.1.state r = .completed → s.state r = .completed) := by
    rcases hculled r with heq | ⟨-, -, htokens, hstate⟩
    · rw [state, heq]
      exact ⟨.refl _, fun h => h⟩
    · refine ⟨htokens, fun hcompleted => ?_⟩
      rw [state, hstate] at hcompleted
      cases hcompleted
  change (s.request r).SameTokens (c.1.request r) ∧ ((c.1.request r).state = .completed → _)
  rw [hsame r hout]
  exact ⟨hexpire.1.trans hprefill.1, fun h => hexpire.2 (hprefill.2 h)⟩

/-- Tokens are emitted and requests are completed by ticks only, and only within the decode batch. -/
theorem apply_of_progress [AlignedBackend ω] [Environment ω] {s u : FifoScheduler ω}
    {op : SchedulerOp ω} {r : RequestPtr} (hs : s.Partition) (happly : s.apply op = .ok u)
    (hr : r < s.requests.size)
    (hprogress : ¬(s.request r).SameTokens (u.request r) ∨
      u.state r = .completed ∧ s.state r ≠ .completed) : op = .tick ∧ s.DecodesNow r := by
  have hidle : ∀ v : FifoScheduler ω, (s.request r).SameTokens (v.request r) →
      (v.state r = .completed → s.state r = .completed) → v ≠ u := by
    rintro v htokens hstate rfl
    rcases hprogress with h | ⟨hcompleted, hopen⟩
    · exact h htokens
    · exact hopen (hstate hcompleted)
  have hsame : ∀ v : FifoScheduler ω, v.request r = s.request r → v ≠ u := by
    intro v heq
    refine hidle v ?_ (fun h => ?_)
    · rw [heq]
      exact .refl _
    · rw [state, heq] at h
      exact h
  cases op with
  | submit id deadlineFromNow maxOutputTokens promptTokenIds priority =>
      rw [apply_submit] at happly
      exact absurd (Except.ok.inj happly) (hsame _ (request_admitted_of_lt s _ _ hr))
  | cancel id =>
      rcases (cancel_cancelled hs happly).request r with heq | ⟨-, -, τ, heq⟩
      · exact absurd rfl (hsame u heq)
      · refine absurd rfl (hidle u ?_ (fun h => ?_))
        · rw [heq]
          exact Request.sameTokens_enter _ _ _
        · rw [state, heq] at h
          cases h
  | tick =>
      refine ⟨rfl, ?_⟩
      by_contra hout
      obtain ⟨done, htick, hdone⟩ := bind_eq_ok.mp happly
      cases hdone
      obtain ⟨htokens, hstate⟩ := tick_of_not_decodesNow hs htick hout
      exact hidle done.1 htokens hstate rfl
  | event e =>
      obtain ⟨w, -, hw⟩ := bind_eq_ok.mp happly
      exact absurd (Except.ok.inj hw) (hsame _ rfl)

/-- A request that an operation adds is waiting after it. -/
theorem apply_new [AlignedBackend ω] [Environment ω] {s u : FifoScheduler ω} {op : SchedulerOp ω}
    {r : RequestPtr} (hs : s.Partition) (happly : s.apply op = .ok u) (hold : s.requests.size ≤ r)
    (hr : r < u.requests.size) : u.state r = .waitingPrefill := by
  have hgrown : u.requests.size ≠ s.requests.size := fun h => absurd (h ▸ hr) (not_lt.mpr hold)
  cases op with
  | submit id deadlineFromNow maxOutputTokens promptTokenIds priority =>
      rw [apply_submit] at happly
      cases happly
      have heq : r = s.requests.size := le_antisymm (Nat.lt_succ_iff.mp hr) hold
      subst heq
      rw [state]
      exact congrArg Request.state (request_admitted_self _ _ _)
  | cancel id => exact absurd (cancel_cancelled hs happly).size hgrown
  | tick =>
      obtain ⟨done, htick, hdone⟩ := bind_eq_ok.mp happly
      cases hdone
      exact absurd ((tick_evolves hs).ok htick).2.2.1 hgrown
  | event e =>
      obtain ⟨w, -, hw⟩ := bind_eq_ok.mp happly
      cases hw
      exact absurd rfl hgrown

end Batches

/-! ### One tick over a mock backend -/

section Tick

variable {dead : Nat → Prop} {s a : FifoScheduler MockBackend} {report : TickReport} {r : RequestPtr}

/-- The expiry never aborts. -/
theorem expireDeadlines_total (hs : s.Partition) (hlive : HandlesLive dead s) :
    ∃ a report, s.expireDeadlines = .ok (a, report) ∧ a.Partition ∧ ExpiredBut [] s a := by
  have hexact : Ensures s.expireDeadlines (fun _ => False) _ :=
    expireDeadlines_exact (fun _ => True) hs hlive trivial (fun _ _ _ h => h)
  cases hcall : s.expireDeadlines with
  | error e => exact (hexact.error hcall).elim
  | ok done =>
      obtain ⟨hpart, -, -, hexpired⟩ := hexact.ok hcall
      exact ⟨done.1, done.2, rfl, hpart, hexpired⟩

theorem Live.state_cases {ω : Type} {s : FifoScheduler ω} {r : RequestPtr} (hr : s.Live r)
    (hs : s.Partition) : s.state r = .waitingPrefill ∨ s.state r = .decoding :=
  hr.imp (hs.waiting_state r) (hs.decoding_state r)

/-- What is left of the queues after the expiry. -/
theorem ExpiredBut.live_iff (h : ExpiredBut [] s a) (hs : s.Partition) (ha : a.Partition) :
    a.Live r ↔ s.Live r ∧ s.clockNow ≤ (s.request r).deadlineAt := by
  rw [ha.live_iff, h.size]
  constructor
  · rintro ⟨hlt, hopen⟩
    rw [state, h.done r hlt List.not_mem_nil] at hopen
    have hlive : s.Live r := by
      refine (hs.live_iff r).mpr ⟨hlt, ?_⟩
      by_contra hterminal
      have hterminal : (s.request r).state.isTerminal = true := by simpa [state] using hterminal
      rw [Request.expire_of_terminal _ hterminal, hterminal] at hopen
      cases hopen
    refine ⟨hlive, not_lt.mp (fun hexpired => ?_)⟩
    rw [(Request.failed_expire_iff (hlive.state_cases hs)).mpr hexpired] at hopen
    cases hopen
  · rintro ⟨hlive, honTime⟩
    obtain ⟨hlt, hopen⟩ := (hs.live_iff r).mp hlive
    refine ⟨hlt, ?_⟩
    rw [state, h.done r hlt List.not_mem_nil, Request.expire_of_not_expired _ (not_lt.mpr honTime)]
    exact hopen

theorem expiresNow_iff (hs : s.Partition) (hlive : HandlesLive dead s) (hr : s.Live r) :
    s.ExpiresNow r ↔ (s.request r).deadlineAt < s.clockNow := by
  obtain ⟨a, report, hcall, -, hexpired⟩ := expireDeadlines_total hs hlive
  have hstate : a.state r = .failed ↔ (s.request r).deadlineAt < s.clockNow := by
    rw [state, hexpired.done r ((hs.live_iff r).mp hr).1 List.not_mem_nil]
    exact Request.failed_expire_iff (hr.state_cases hs)
  constructor
  · rintro ⟨-, a', report', hcall', hfailed⟩
    rw [hcall] at hcall'
    cases hcall'
    exact hstate.mp hfailed
  · intro hlate
    exact ⟨hr, a, report, hcall, hstate.mpr hlate⟩

/-- A request in a batch of a tick is live and on time when the tick starts. -/
theorem on_time_of_batch (hs : s.Partition) (hlive : HandlesLive dead s)
    (hr : s.PrefillsNow r ∨ s.DecodesNow r) :
    s.Live r ∧ s.clockNow ≤ (s.request r).deadlineAt := by
  obtain ⟨a, report, hcall, ha, hexpired⟩ := expireDeadlines_total hs hlive
  refine (hexpired.live_iff hs ha).mp ?_
  rcases hr with ⟨a', report', hcall', hmem⟩ | ⟨a', report', b, report'', hcall', hprefill, hmem⟩
  · rw [hcall] at hcall'
    cases hcall'
    exact .inl hmem
  · rw [hcall] at hcall'
    cases hcall'
    obtain ⟨hb, -, hsize, hprefilled⟩ := (prefillPhase_prefills ha).ok hprefill
    have hdecoding : (b.request r).state = .decoding := hb.decoding_state r hmem
    refine (ha.live_iff r).mpr ⟨hsize ▸ hb.decoding_lt r hmem, ?_⟩
    rcases hprefilled r with heq | ⟨hwaiting, -⟩
    · rw [state, ← heq, hdecoding]
      rfl
    · rw [state, hwaiting]
      rfl

/-- A request that is completed in a decode phase is completed at the time its batch is done. -/
theorem decodePhase_stamps (hs : s.Partition) (hlive : HandlesLive dead s) :
    Ensures s.decodePhase (fun _ => True) (fun done => ∀ p ∈ s.decoding,
      done.1.state p = .completed →
        (done.1.request p).lifecycle.completedAt = some done.1.clockNow) := by
  refine (decodePhase_ensures hs (fun rest _ t => HandlesLive dead t.1 ∧
    ∀ p ∈ s.decoding, p ∉ rest → t.1.state p = .completed →
      (t.1.request p).lifecycle.completedAt = some t.1.clockNow) ?_ ?_).imp
    (fun _ h p hp => h.2.2.2 p hp List.not_mem_nil)
  · refine (decodeBatch_live hlive).mono (fun _ _ => trivial) (fun batch hbatch => ?_)
    refine (MockBackend.decode_ensures hbatch).mono (fun _ _ => trivial) ?_
    rintro answer ⟨-, hdecoded⟩
    exact ⟨hlive.world ⟨hdecoded.mem, hdecoded.nextSequenceId⟩,
      fun p hp hrest => absurd hp hrest⟩
  · rintro r rest outcome outcomes t report ht hr hrest - - ⟨hlive, hstamped⟩
    have hstate := ht.decoding_state r hr
    -- the requests that were decided before keep their stamps, and the clock stands still
    have hothers : ∀ t' : FifoScheduler MockBackend, t'.clockNow = t.clockNow →
        (∀ p, p ≠ r → t'.request p = t.request p) →
        (t'.state r = .completed →
          (t'.request r).lifecycle.completedAt = some t'.clockNow) →
        ∀ p ∈ s.decoding, p ∉ rest → t'.state p = .completed →
          (t'.request p).lifecycle.completedAt = some t'.clockNow := by
      intro t' hclock hsame hself p hp hpending hcompleted
      by_cases heq : p = r
      · rw [heq] at hcompleted ⊢
        exact hself hcompleted
      · rw [state, hsame p heq] at hcompleted
        rw [hsame p heq, hclock]
        exact hstamped p hp (by simp [heq, hpending]) hcompleted
    cases outcome with
    | error e =>
        unfold decodeOutcome
        simp only
        rw [failDecoding_mock hstate (hlive.live _)]
        refine ⟨hlive.release r _, hothers _ (clockNow_retired t r _)
          (fun p hp => request_retired_of_ne t _ _ hp) (fun hcompleted => ?_)⟩
        rw [state, request_retired_self] at hcompleted
        cases hcompleted
    | ok token =>
        rw [decodeOutcome_mock hstate (hlive.live _)]
        split_ifs
        · trivial
        · refine ⟨hlive.release r _, hothers _ (clockNow_retired t r _)
            (fun p hp => request_retired_of_ne t _ _ hp) (fun _ => ?_)⟩
          rw [request_retired_self, clockNow_retired]
          rfl
        · refine ⟨hlive.of_eq (tokenEmitted_world t r token.tokenId) rfl,
            hothers _ (clockNow_tokenEmitted t r token.tokenId)
              (fun p hp => request_store_of_ne t _ _ hp) (fun hcompleted => ?_)⟩
          rw [state_tokenEmitted_self, hstate] at hcompleted
          cases hcompleted

/-- An expired request is in no batch and stays failed. -/
theorem ExpiresNow.excluded (hs : s.Partition) (hlive : HandlesLive dead s) (hr : s.ExpiresNow r) :
    ¬s.PrefillsNow r ∧ ¬s.DecodesNow r ∧ ∀ u report, s.tick = .ok (u, report) →
      u.Partition ∧ r < u.requests.size ∧ u.state r = .failed := by
  have hlate := (expiresNow_iff hs hlive hr.1).mp hr
  have hnone : ¬(s.PrefillsNow r ∨ s.DecodesNow r) :=
    fun hbatch => not_le.mpr hlate (on_time_of_batch hs hlive hbatch).2
  refine ⟨fun h => hnone (.inl h), fun h => hnone (.inr h), fun u report htick => ?_⟩
  obtain ⟨hpart, -, hsize, -⟩ := (tick_evolves hs).ok htick
  refine ⟨hpart, hsize ▸ ((hs.live_iff r).mp hr.1).1, ?_⟩
  obtain ⟨-, a, report', hcall, hfailed⟩ := hr
  obtain ⟨a', b, c, ha, hb, hc, rfl⟩ := tick_phases htick
  rw [hcall] at ha
  cases ha
  obtain ⟨hpartA, -, -⟩ := (expireDeadlines_culls hs).ok hcall
  obtain ⟨hpartB, -, -, hprefilled⟩ := (prefillPhase_prefills hpartA).ok hb
  obtain ⟨-, -, -, hsame, -⟩ := (decodePhase_advances hpartB).ok hc
  have hkept : b.1.request r = a.request r := by
    rcases hprefilled r with heq | ⟨hwaiting, -⟩
    · exact heq
    · rw [state] at hfailed
      rw [hfailed] at hwaiting
      cases hwaiting
  have hout : r ∉ b.1.decoding := by
    intro hmem
    have hdecoding := hpartB.decoding_state r hmem
    rw [state, hkept, ← state, hfailed] at hdecoding
    cases hdecoding
  change (c.1.request r).state = .failed
  rw [hsame r hout, hkept]
  exact hfailed

/-- A request that a tick completes is stamped with the time at which the tick ends. -/
theorem tick_stamps (hs : s.Partition) (hlive : HandlesLive dead s) {u : FifoScheduler MockBackend}
    (htick : s.tick = .ok (u, report)) (hdecodes : s.DecodesNow r) (hcompleted : u.state r = .completed) :
    (u.request r).lifecycle.completedAt = some u.clockNow := by
  obtain ⟨a, b, c, ha, hb, hc, rfl⟩ := tick_phases htick
  obtain ⟨a', report₁, b', report₂, ha', hb', hmem⟩ := hdecodes
  rw [ha'] at ha
  cases ha
  rw [hb'] at hb
  cases hb
  obtain ⟨hpartA, hliveA⟩ := (expireDeadlines_live hs hlive).ok ha'
  obtain ⟨hpartB, -, hliveB⟩ := (prefillPhase_live hpartA hliveA).ok hb'
  exact (decodePhase_stamps hpartB hliveB).ok hc r hmem hcompleted

end Tick

/-! ### Every tick of a run -/

section Runs

variable {clock : FakeClock} {prefillCost decodeCost : Duration} {ops : List (SchedulerOp MockBackend)}
  {s : FifoScheduler MockBackend} {r : RequestPtr}

/-- What expires in a tick has failed, and no later batch holds it. -/
theorem ExpiresNow.excluded_later
    (hrun : run apply (new (MockBackend.new clock prefillCost decodeCost)) ops = .ok s)
    (hr : s.ExpiresNow r) {u v : FifoScheduler MockBackend} {report : TickReport}
    {later : List (SchedulerOp MockBackend)} (htick : s.tick = .ok (u, report))
    (hlater : run apply u later = .ok v) :
    v.state r = .failed ∧ ¬v.PrefillsNow r ∧ ¬v.DecodesNow r := by
  obtain ⟨hs, hlive⟩ := (start_live clock prefillCost decodeCost ops).ok hrun
  obtain ⟨hu, hlt, hstate⟩ := (hr.excluded hs hlive).2.2 u report htick
  have hrunV : run apply (new (MockBackend.new clock prefillCost decodeCost))
      (ops ++ .tick :: later) = .ok v := by
    rw [run_append, hrun, ok_bind, run_cons]
    change (s.tick >>= fun done => _) >>= _ = _
    rw [htick]
    exact hlater
  obtain ⟨hv, hliveV⟩ := (start_live clock prefillCost decodeCost _).ok hrunV
  have hfrozen : v.state r = .failed := by
    rw [state, run_frozen hu hlt (by rw [hstate]; rfl) hlater]
    exact hstate
  have hnone : ¬(v.PrefillsNow r ∨ v.DecodesNow r) := fun hbatch =>
    hv.not_live_of_terminal (by rw [hfrozen]; rfl) (on_time_of_batch hv hliveV hbatch).1
  exact ⟨hfrozen, fun h => hnone (.inl h), fun h => hnone (.inr h)⟩

/-- A completed request completed in one tick of the run, which started on time. -/
theorem completed_in_tick
    (hrun : run apply (new (MockBackend.new clock prefillCost decodeCost)) ops = .ok s)
    (hr : r < s.requests.size) (hcompleted : s.state r = .completed) :
    ∃ front back t u report completedAt, ops = front ++ .tick :: back ∧
      run apply (new (MockBackend.new clock prefillCost decodeCost)) front = .ok t ∧
      t.tick = .ok (u, report) ∧ run apply u back = .ok s ∧
      t.state r ≠ .completed ∧ u.state r = .completed ∧
      t.clockNow ≤ (s.request r).deadlineAt ∧
      (s.request r).lifecycle.completedAt = some completedAt ∧
      completedAt - (s.request r).deadlineAt ≤ u.clockNow - t.clockNow := by
  let done : FifoScheduler MockBackend → Prop :=
    fun t => r < t.requests.size ∧ t.state r = .completed
  obtain ⟨front, op, back, t, u, rfl, hfront, happly, hback, hopen, hlt, hstate⟩ :=
    exists_flip done hrun (fun h => absurd h.1 (Nat.not_lt_zero r)) ⟨hr, hcompleted⟩
  obtain ⟨ht, hliveT⟩ := (start_live clock prefillCost decodeCost front).ok hfront
  have hltT : r < t.requests.size := by
    by_contra hnew
    rw [apply_new ht happly (not_lt.mp hnew) hlt] at hstate
    cases hstate
  have hopenT : t.state r ≠ .completed := fun h => hopen ⟨hltT, h⟩
  obtain ⟨rfl, hdecodes⟩ := apply_of_progress ht happly hltT (.inr ⟨hstate, hopenT⟩)
  obtain ⟨⟨u', report⟩, htick, hu⟩ := bind_eq_ok.mp happly
  cases hu
  obtain ⟨hu, -, -, hticked⟩ := (tick_evolves ht).ok htick
  -- nothing happens to the request after this tick
  have hfrozen : s.request r = u'.request r :=
    run_frozen hu hlt (by rw [hstate]; rfl) hback
  have honTime := (on_time_of_batch ht hliveT (.inr hdecodes)).2
  have hdeadline : (s.request r).deadlineAt = (t.request r).deadlineAt := by
    rw [hfrozen]
    exact (hticked r hltT).sameTerms.deadlineAt
  refine ⟨front, back, t, u', report, u'.clockNow, rfl, hfront, htick, hback, hopenT, hstate,
    ?_, ?_, ?_⟩
  · rw [hdeadline]
    exact honTime
  · rw [hfrozen]
    exact tick_stamps ht hliveT htick hdecodes hstate
  · rw [hdeadline]
    exact Int.sub_le_sub_left honTime _

end Runs

/-- **Deadlines are enforced at the start of a tick.** For every state a run over a mock backend reaches,
the tick that starts in it and every live request: the tick expires the request if and only if its
deadline has passed; then the request is in neither batch of this tick nor of any later one, and stays
failed. The requests in its batches are on time; tokens and completions happen in the decode batch of a
tick only; and a completed request was completed by a tick that started in time, and was late by no more
than the time that tick took. -/
theorem deadlines_exact (clock : FakeClock) (prefillCost decodeCost : Duration)
    (ops : List (SchedulerOp MockBackend)) (s : FifoScheduler MockBackend)
    (hrun : run apply (new (MockBackend.new clock prefillCost decodeCost)) ops = .ok s) :
    (∀ r, s.Live r → (s.ExpiresNow r ↔ (s.request r).deadlineAt < s.clockNow)) ∧
    (∀ r, s.ExpiresNow r → ¬s.PrefillsNow r ∧ ¬s.DecodesNow r ∧
      ∀ u report later v, s.tick = .ok (u, report) → run apply u later = .ok v →
        v.state r = .failed ∧ ¬v.PrefillsNow r ∧ ¬v.DecodesNow r) ∧
    (∀ r, s.PrefillsNow r ∨ s.DecodesNow r → s.clockNow ≤ (s.request r).deadlineAt) ∧
    (∀ op u r, s.apply op = .ok u → r < s.requests.size →
      (¬(s.request r).SameTokens (u.request r) ∨ u.state r = .completed ∧ s.state r ≠ .completed) →
        op = .tick ∧ s.DecodesNow r) ∧
    ∀ r < s.requests.size, s.state r = .completed →
      ∃ front back t u report completedAt, ops = front ++ .tick :: back ∧
        run apply (new (MockBackend.new clock prefillCost decodeCost)) front = .ok t ∧
        t.tick = .ok (u, report) ∧ run apply u back = .ok s ∧
        t.state r ≠ .completed ∧ u.state r = .completed ∧
        t.clockNow ≤ (s.request r).deadlineAt ∧
        (s.request r).lifecycle.completedAt = some completedAt ∧
        completedAt - (s.request r).deadlineAt ≤ u.clockNow - t.clockNow := by
  obtain ⟨hs, hlive⟩ := (start_live clock prefillCost decodeCost ops).ok hrun
  refine ⟨fun r hr => expiresNow_iff hs hlive hr, ?_, fun r hr => (on_time_of_batch hs hlive hr).2,
    fun op u r happly hr hprogress => apply_of_progress hs happly hr hprogress,
    fun r hr hcompleted => completed_in_tick hrun hr hcompleted⟩
  intro r hr
  obtain ⟨hprefills, hdecodes, -⟩ := hr.excluded hs hlive
  exact ⟨hprefills, hdecodes, fun u report later v htick hlater => hr.excluded_later hrun htick hlater⟩

/-- A deadline that passes while the first tick is under way, and one that passes before it starts. -/
def lateRequests : List (SchedulerOp MockBackend) :=
  [.submit "a" 3 1 [7, 8] 0, .submit "b" 0 1 [7] 0, .event (.advanceClock 1), .tick]

/-- The first request is completed at 8, five after its deadline, by a tick that took seven. -/
theorem deadlines_exact_late :
    ∃ s, run apply (new (MockBackend.new ⟨0⟩ 1 5)) lateRequests = .ok s ∧
      (s.state 0, s.state 1, (s.request 0).lifecycle.completedAt) = (.completed, .failed, some 8) ∧
      ∃ (t u : FifoScheduler MockBackend) (report : TickReport), t.tick = .ok (u, report) ∧
        t.clockNow ≤ (s.request 0).deadlineAt ∧
        8 - (s.request 0).deadlineAt ≤ u.clockNow - t.clockNow := by
  obtain ⟨s, hrun, hview⟩ := exists_of_map_ok (x := run apply (new (MockBackend.new ⟨0⟩ 1 5))
    lateRequests) (f := fun s => (s.requests.size, s.state 0, s.state 1,
      (s.request 0).lifecycle.completedAt)) (b := (2, .completed, .failed, some 8)) (by decide +kernel)
  obtain ⟨hsize, hview⟩ := Prod.mk.inj hview
  obtain ⟨hcompleted, hlate⟩ := Prod.mk.inj hview
  obtain ⟨-, -, t, u, report, completedAt, -, -, htick, -, -, -, honTime, hat, hbound⟩ :=
    (deadlines_exact ⟨0⟩ 1 5 lateRequests s hrun).2.2.2.2 0 (by omega) hcompleted
  obtain ⟨-, hat'⟩ := Prod.mk.inj hlate
  rw [hat'] at hat
  cases hat
  exact ⟨s, hrun, by rw [hcompleted, hlate], t, u, report, htick, honTime, hbound⟩

end FifoScheduler

end Tokamak
