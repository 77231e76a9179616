import Tokamak.SimulationCost

/-! The breakdown that is printed for each request. A request whose deadline has passed when it is
submitted fails without being served, and has waited for no time. Every other one is prefilled in the pass
that submits it, and has its first token five milliseconds later; if it is completed, its times add up. -/

open Outcome

namespace Tokamak

namespace RequestSummary

def decodeTime (r : RequestSummary) : Option ℚ := durationMsOrNan r.decodingAt r.completedAt

def ttft (r : RequestSummary) : Option ℚ := durationMsOrNan r.admittedAt r.firstTokenAt

def e2e (r : RequestSummary) : Option ℚ := durationMsOrNan r.admittedAt r.completedAt

end RequestSummary

/-! ### The reports -/

/-- The reports are five milliseconds apart at least, and not later than `now`. -/
structure Paced (reports : List TickReport) (now : TimePoint) : Prop where
  gap : ∀ i a b, reports[i]? = some a → reports[i + 1]? = some b → a.timestamp + 5000000 ≤ b.timestamp
  le_now : ∀ report ∈ reports, report.timestamp ≤ now

namespace Paced

variable {reports : List TickReport} {report : TickReport} {now : TimePoint}

theorem concat (h : Paced reports now) (hreport : now + 5000000 ≤ report.timestamp) :
    Paced (reports ++ [report]) report.timestamp := by
  refine ⟨?_, ?_⟩
  · intro i a b ha hb
    rcases lt_trichotomy (i + 1) reports.length with hlt | heq | hgt
    · rw [List.getElem?_append_left (by omega)] at ha
      rw [List.getElem?_append_left hlt] at hb
      exact h.gap i a b ha hb
    · rw [List.getElem?_append_left (by omega)] at ha
      rw [heq, List.getElem?_concat_length] at hb
      cases hb
      have hle := h.le_now a (List.mem_of_getElem? ha)
      linarith
    · have hlength : (reports ++ [report]).length ≤ i + 1 := by
        rw [List.length_append, List.length_singleton]
        exact hgt
      rw [List.getElem?_eq_none hlength] at hb
      cases hb
  · intro other hmem
    rcases List.mem_append.mp hmem with hmem | hmem
    · have hle := h.le_now other hmem
      linarith
    · rw [List.mem_singleton.mp hmem]

theorem mono (h : Paced reports now) {later : TimePoint} (hle : now ≤ later) : Paced reports later :=
  ⟨h.gap, fun report hmem => (h.le_now report hmem).trans hle⟩

/-- Five milliseconds for each report in between. -/
theorem spread (h : Paced reports now) {i : Nat} {a : TickReport} (ha : reports[i]? = some a) (n : Nat)
    {b : TickReport} (hb : reports[i + n]? = some b) : a.timestamp + 5000000 * n ≤ b.timestamp := by
  induction n generalizing b with
  | zero =>
      rw [Nat.add_zero, ha] at hb
      cases hb
      simp
  | succ n ih =>
      obtain ⟨hlt, -⟩ := List.getElem?_eq_some_iff.mp hb
      have hbefore : reports[i + n]? = some reports[i + n] := List.getElem?_eq_getElem (by omega)
      have hgap := h.gap (i + n) _ b hbefore hb
      have hle := ih hbefore
      push_cast
      linarith

end Paced

/-! ### The requests -/

/-- A request has failed in the pass that submitted it, or it was prefilled there. -/
inductive Request.Booked (reports : List TickReport) (q : Request) : Prop
  | unserved (arrived : TimePoint) (hstate : q.state = .failed) (hcount : q.outputTokensEmitted = 0)
      (hwaiting : q.lifecycle.enteredAtState .waitingPrefill = some arrived)
      (hprefilling : q.lifecycle.enteredAtState .prefilling = some arrived)
      (hwaitingDecode : q.lifecycle.enteredAtState .waitingDecode = none)
      (hdecoding : q.lifecycle.enteredAtState .decoding = none)
      (hfirst : q.lifecycle.firstTokenAt = none)
  | served (arrived prefilled : TimePoint) (k : Nat) (first : TickReport)
      (hfollows : q.Follows arrived prefilled k reports) (hfirst : reports[k]? = some first)
      (htime : first.timestamp = prefilled + 5000000) (harrived : arrived ≤ prefilled)

theorem Request.Booked.ticked {reports : List TickReport} {report : TickReport} {q : Request}
    {t t' t'' : TimePoint} (h : q.Booked reports) (hreport : report.timestamp = t'') :
    (q.ticked t t' t'').Booked (reports ++ [report]) := by
  cases h with
  | unserved arrived hstate hcount hwaiting hprefilling hwaitingDecode hdecoding hfirst =>
      rw [Request.ticked_of_terminal (by rw [hstate]; rfl)]
      exact .unserved arrived hstate hcount hwaiting hprefilling hwaitingDecode hdecoding hfirst
  | served arrived prefilled k first hfollows hfirst htime harrived =>
      exact .served arrived prefilled k first (hfollows.ticked hreport)
        (getElem?_mono (List.prefix_append _ _) hfirst) htime harrived

/-- A request whose deadline has passed when it is submitted. -/
theorem Request.booked_of_expired {now t' t'' : TimePoint} {record : WorkloadRequest}
    {reports : List TickReport} (h : (Simulation.queued now record).deadlineAt < now) :
    ((Simulation.queued now record).ticked now t' t'').Booked reports := by
  have hticked : (Simulation.queued now record).ticked now t' t'' =
      ((Simulation.queued now record).enter .prefilling now).enter .failed now := by
    unfold Request.ticked
    rw [Request.expire_of_waiting _ h rfl, Request.prefill_of_not_waiting _ (by simp),
      Request.decode_of_not_decoding _ (by simp)]
  rw [hticked]
  refine .unserved now rfl rfl ?_ ?_ ?_ ?_ rfl
  · simp [Simulation.queued]
  · simp
  · simp [Simulation.queued]
    rfl
  · simp [Simulation.queued]
    rfl

namespace Replay

/-- The books of a replay, at the top of its loop. -/
structure Booked (r : Replay) : Prop where
  nonneg : 0 ≤ r.now
  paced : Paced r.reports r.now
  requests : ∀ q ∈ r.requests, q.Booked r.reports

variable {r v : Replay}

theorem booked_start (workload : Workload) : (start workload).Booked where
  nonneg := le_rfl
  paced := {
    gap := fun _ _ _ ha => absurd (List.mem_of_getElem? ha) List.not_mem_nil
    le_now := fun _ hmem => absurd hmem List.not_mem_nil }
  requests _ hq := absurd hq List.not_mem_nil

theorem le_prefilledAt (r : Replay) : r.now ≤ r.prefilledAt := by
  change r.now ≤ r.now + 1000000 * (r.prefillTokens : Int)
  have hcost : (0 : Int) ≤ 1000000 * (r.prefillTokens : Int) := by positivity
  linarith

theorem Booked.ticked (h : r.Booked) (hsettled : r.Settled) (hfunded : r.submit.funded = true) :
    r.submit.ticked.Booked := by
  have hlater : r.now ≤ r.submit.prefilledAt := r.submit.le_prefilledAt
  have hstop : r.submit.report.timestamp = r.submit.prefilledAt + 5000000 := rfl
  refine ⟨?_, ?_, ?_⟩
  · change 0 ≤ r.submit.prefilledAt + 5000000
    have hnow := h.nonneg
    linarith
  · exact h.paced.concat (by linarith)
  · intro q hq
    obtain ⟨i, hi⟩ := List.getElem?_of_mem hq
    obtain ⟨hlt, -⟩ := List.getElem?_eq_some_iff.mp hi
    have hlength : r.submit.ticked.requests.length = r.submit.requests.length := by
      unfold Replay.ticked prefilled culled
      rw [List.length_map, List.length_map, List.length_map]
    obtain ⟨q', hq'⟩ : ∃ q', r.submit.requests[i]? = some q' :=
      ⟨_, List.getElem?_eq_getElem (hlength ▸ hlt)⟩
    have hticked := getElem?_ticked hq'
    rw [hi] at hticked
    cases hticked
    rcases List.mem_append.mp (List.mem_of_getElem? hq') with hold | hnew
    · exact (h.requests q' hold).ticked rfl
    · obtain ⟨record, -, rfl⟩ := List.mem_map.mp hnew
      by_cases hexpired : (Simulation.queued r.now record).deadlineAt < r.now
      · exact Request.booked_of_expired hexpired
      · have hculled : r.submit.culled[i]? = some (Simulation.queued r.now record) := by
          unfold culled
          rw [List.getElem?_map, hq']
          exact congrArg some (Request.expire_of_not_expired _ hexpired)
        obtain ⟨q, hq, hfollows⟩ := hsettled.follows hfunded hculled rfl
        rw [hi] at hq
        cases hq
        exact .served r.now r.submit.prefilledAt r.reports.length r.submit.report hfollows
          (by change (r.reports ++ [r.submit.report])[r.reports.length]? = _; simp) hstop hlater

/-- The clock does not go back. -/
theorem now_le_of_pass (hnow : 0 ≤ r.now) (hidle : r.submit.busy = false) (h : r.pass = .ok v) :
    r.now ≤ v.now := by
  unfold pass at h
  rw [hidle, if_neg Bool.false_ne_true] at h
  cases hremaining : r.submit.remaining with
  | nil =>
      rw [hremaining] at h
      cases h
      exact le_rfl
  | cons next rest =>
      rw [hremaining] at h
      cases h
      have hmem : next ∈ r.submit.remaining := by
        rw [hremaining]
        exact List.mem_cons_self
      have hlate := of_decide_eq_true (List.mem_filter.mp hmem).2
      exact le_durationCast hnow (not_le.mp hlate)

theorem Booked.pass (h : r.Booked) (hsettled : r.Settled) (hpass : r.pass = .ok v) : v.Booked := by
  rcases pass_cases hpass with ⟨-, hfunded, rfl⟩ | ⟨hidle, hrequests, hreports⟩
  · exact h.ticked hsettled hfunded
  · have hle := now_le_of_pass h.nonneg hidle hpass
    refine ⟨h.nonneg.trans hle, hreports ▸ h.paced.mono hle, ?_⟩
    intro q hq
    rw [hreports]
    have hnotWaiting := Settled.pass hpass q hq
    rw [hrequests] at hq
    rcases List.mem_append.mp hq with hold | hnew
    · exact h.requests q hold
    · obtain ⟨record, -, rfl⟩ := List.mem_map.mp hnew
      exact absurd rfl hnotWaiting

theorem booked_of_visits {workload : Workload}
    (h : Visits continues Replay.pass (start workload) r) : r.Booked := by
  have hstart : (start workload).Settled := fun q hq => by cases hq
  let kept : Replay → Prop := fun u => u.Booked ∧ u.Settled
  have hall : kept r := by
    refine h.inv ⟨booked_start workload, hstart⟩ ?_
    rintro u u' ⟨hbooked, hsettled⟩ - hpass
    exact ⟨hbooked.pass hsettled hpass, Settled.pass hpass⟩
  exact hall.1

end Replay

/-! ### The breakdown -/

theorem elapsedMs_add (a b : TimePoint) : elapsedMs (a + b) = elapsedMs a + elapsedMs b := by
  unfold elapsedMs
  push_cast
  ring

theorem elapsedMs_mono {a b : TimePoint} (h : a ≤ b) : elapsedMs a ≤ elapsedMs b := by
  have hcast : (a : ℚ) ≤ b := by exact_mod_cast h
  unfold elapsedMs
  linarith

/-- What is printed for a request that was not served. -/
def RequestSummary.Unserved (r : RequestSummary) : Prop :=
  r.finalState = .failed ∧ r.outputTokensEmitted = 0 ∧ r.queueTime = some 0 ∧ r.prefillTime = none ∧
    r.decodeTime = none ∧ r.ttft = none ∧ r.e2e = none

/-- What is printed for a request that was served. -/
def RequestSummary.Served (r : RequestSummary) : Prop :=
  ∃ queue : ℚ, 0 ≤ queue ∧ r.queueTime = some queue ∧ r.prefillTime = some 0 ∧
    r.ttft = some (queue + 5) ∧
    ((r.finalState = .failed ∧ r.decodeTime = none ∧ r.e2e = none) ∨
      ∃ decode : ℚ, r.finalState = .completed ∧ 5 * r.maxOutputTokens ≤ decode ∧
        r.decodeTime = some decode ∧ r.e2e = some (queue + decode))

theorem elapsedMs_five : elapsedMs 5000000 = 5 := by
  unfold elapsedMs
  norm_num

/-- The breakdown of one request, at the end of the simulation. -/
theorem Request.Booked.breakdown {reports : List TickReport} {now later : TimePoint} {q : Request}
    (h : q.Booked reports) (hpaced : Paced reports now) (hmilestones : q.Milestones later)
    (hterminal : q.state.isTerminal = true) : q.summary.Unserved ∨ q.summary.Served := by
  have hunfinished : q.state = .failed → q.lifecycle.completedAt = none := by
    intro hstate
    exact hmilestones.completedAt_eq_none (by rw [hstate]; decide)
  cases h with
  | unserved arrived hstate hcount hwaiting hprefilling hwaitingDecode hdecoding hfirst =>
      have hcompleted := hunfinished hstate
      have hzero : elapsedMs (arrived - arrived) = 0 := by simp [elapsedMs]
      refine .inl ⟨hstate, hcount, ?_, ?_, ?_, ?_, ?_⟩
      · unfold RequestSummary.queueTime Request.summary
        simp only
        rw [hwaiting, hprefilling, ← hzero]
        rfl
      · unfold RequestSummary.prefillTime Request.summary
        simp only
        rw [hwaitingDecode, hprefilling]
        rfl
      · unfold RequestSummary.decodeTime Request.summary
        simp only
        rw [hdecoding]
        rfl
      · unfold RequestSummary.ttft Request.summary
        simp only
        rw [hfirst]
        cases q.lifecycle.admittedAt <;> rfl
      · unfold RequestSummary.e2e Request.summary
        simp only
        rw [hcompleted]
        cases q.lifecycle.admittedAt <;> rfl
  | served arrived prefilled k first hfollows hfirst htime harrived =>
      obtain ⟨report, hreport, hstamps⟩ := hfollows.stamps
      rw [hfirst] at hreport
      cases hreport
      obtain ⟨hqueue, hprefill⟩ := hstamps.times
      have hzero : elapsedMs 0 = 0 := by simp [elapsedMs]
      have hnonneg : 0 ≤ elapsedMs (prefilled - arrived) := by
        rw [← hzero]
        exact elapsedMs_mono (Int.sub_nonneg.mpr harrived)
      refine .inr ⟨elapsedMs (prefilled - arrived), hnonneg, hqueue, hzero ▸ hprefill, ?_, ?_⟩
      · unfold RequestSummary.ttft Request.summary
        simp only
        rw [hstamps.admittedAt, hstamps.firstTokenAt, htime, ← elapsedMs_five, ← elapsedMs_add]
        exact congrArg (fun t => some (elapsedMs t)) (by ring)
      · cases hfollows.stage with
        | failed hstate =>
            have hcompleted := hunfinished hstate
            refine .inl ⟨hstate, ?_, ?_⟩
            · unfold RequestSummary.decodeTime Request.summary
              simp only
              rw [hcompleted, hstamps.decodingAt]
              rfl
            · unfold RequestSummary.e2e Request.summary
              simp only
              rw [hcompleted, hstamps.admittedAt]
              rfl
        | decoding hstate =>
            rw [hstate] at hterminal
            cases hterminal
        | completed hstate hcount last hlast hcompleted =>
            have hspent : prefilled + 5000000 * (q.maxOutputTokens : Int) ≤ last.timestamp := by
              have hordered := hmilestones.first_completed _ _ hstamps.firstTokenAt hcompleted
              cases hmax : q.maxOutputTokens with
              | zero =>
                  push_cast
                  linarith
              | succ n =>
                  rw [hmax, show k + (n + 1) - 1 = k + n by omega] at hlast
                  have hspread := hpaced.spread hfirst n hlast
                  push_cast
                  linarith
            refine .inr ⟨elapsedMs (last.timestamp - prefilled), hstate, ?_, ?_, ?_⟩
            · have hms : 5 * (q.maxOutputTokens : ℚ) = elapsedMs (5000000 * (q.maxOutputTokens : Int)) := by
                unfold elapsedMs
                push_cast
                ring
              change 5 * (q.maxOutputTokens : ℚ) ≤ _
              rw [hms]
              exact elapsedMs_mono (by linarith)
            · unfold RequestSummary.decodeTime Request.summary
              simp only
              rw [hcompleted, hstamps.decodingAt]
              rfl
            · unfold RequestSummary.e2e Request.summary
              simp only
              rw [hcompleted, hstamps.admittedAt, ← elapsedMs_add]
              exact congrArg (fun t => some (elapsedMs t)) (by ring)

/-- **The breakdown adds up.** Whenever the simulation returns, every request was served or failed at
once, after no time in the queue. If it was served, its first token came five milliseconds after its time
in the queue; if it is completed, its end came after the time in the queue and the decode time, which is
five milliseconds for each of its tokens at least; and if it failed while it was decoding, no end is
reported. The prefill time is never anything but zero. -/
theorem breakdown_adds_up (workload : Workload) (result : SimulationResult)
    (h : workload.Returns result) : ∀ r ∈ result.requests, r.Unserved ∨ r.Served := by
  obtain ⟨t, rfl, hreturns⟩ := h.state
  obtain ⟨hvisits, hexit⟩ := hreturns.visits
  have ht : t.Sound workload := Workload.Visits.sound hvisits
  obtain ⟨-, hterminal⟩ := ht.final hexit
  have hbooked : t.replay.Booked :=
    Replay.booked_of_visits (Workload.Visits.replay_from .start hvisits)
  intro r hr
  rw [ht.summaries] at hr
  obtain ⟨i, hi, rfl⟩ := List.mem_map.mp hr
  have hlt : i < t.scheduler.requests.size := List.mem_range.mp hi
  have hmem : (t.scheduler.request i).outline ∈ t.replay.requests := List.mem_map.mpr ⟨i, hi, rfl⟩
  have hmilestones := ht.punctual.milestones i hlt
  exact (hbooked.requests _ hmem).breakdown hbooked.paced
    ⟨hmilestones.admitted, hmilestones.first_le, hmilestones.admitted_first, hmilestones.completed,
      hmilestones.admitted_completed, hmilestones.first_completed⟩ (hterminal i hlt)

/-- The times that are printed for a request. -/
def RequestSummary.times (r : RequestSummary) : List (Option ℚ) :=
  [r.queueTime, r.prefillTime, r.decodeTime, r.ttft, r.e2e]

/-- A request that is completed, and one whose deadline has passed when it is submitted. -/
theorem breakdown_adds_up_promptless : ∃ result, Workload.promptless.Returns result ∧
    result.requests.map RequestSummary.times =
      [[some 0, some 0, some 10, some 5, some 10], [some 0, none, none, none, none]] ∧
    ∀ r ∈ result.requests, r.Unserved ∨ r.Served := by
  obtain ⟨result, hreturns, htimes⟩ := Workload.exists_returns (show
    (runSimulation 3 Workload.promptless).map (fun out => out.map fun result =>
      result.requests.map RequestSummary.times) =
    some (.ok [[some 0, some 0, some 10, some 5, some 10], [some 0, none, none, none, none]]) by
      decide +kernel)
  exact ⟨result, hreturns, htimes, breakdown_adds_up Workload.promptless result hreturns⟩

end Tokamak
