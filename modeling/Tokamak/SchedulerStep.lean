import Tokamak.Scheduler

/-! What one step of the scheduler does, said once. The four things that happen to a request after
its submission (it is promoted, it emits a token, it is retired from either queue) are put in closed
form: which cell is rewritten, what becomes of the queues and of the handle map, and which world is
left. Everything later is derived from these equations and not from the operations' bodies. -/

open Outcome

namespace Tokamak.FifoScheduler

variable {ω : Type}

/-- Retirement in closed form: `q` replaces the request, its id's handle is gone from the map and
the pointer from both queues. -/
def retired (s : FifoScheduler ω) (r : RequestPtr) (q : Request) (w : ω) : FifoScheduler ω :=
  { world := w
    requests := s.requests.write r q
    waiting := s.waiting.erase r
    decoding := s.decoding.erase r
    handles := s.handles.erase (s.requestId r) }

/-- Promotion in closed form. -/
def promoted (s : FifoScheduler ω) (r : RequestPtr) (handle : SequenceHandle) (q : Request)
    (w : ω) : FifoScheduler ω :=
  { world := w
    requests := s.requests.write r q
    waiting := s.waiting.filter (· ≠ r)
    decoding := s.decoding ++ [r]
    handles := s.handles.emplace (s.requestId r) handle }

/-- Admission in closed form. -/
def admitted (s : FifoScheduler ω) (q : Request) (w : ω) : FifoScheduler ω :=
  { s with world := w, requests := s.requests.alloc q, waiting := s.waiting ++ [s.requests.size] }

section Frames

variable (s : FifoScheduler ω) (r p : RequestPtr) (q : Request) (w : ω) (handle : SequenceHandle)

@[simp] theorem request_store_self : (s.store r q w).request r = q :=
  Arena.cell_write_self s.requests r q

@[simp] theorem request_retired_self : (s.retired r q w).request r = q :=
  Arena.cell_write_self s.requests r q

@[simp] theorem request_promoted_self : (s.promoted r handle q w).request r = q :=
  Arena.cell_write_self s.requests r q

@[simp] theorem request_admitted_self : (s.admitted q w).request s.requests.size = q :=
  Arena.cell_alloc_self s.requests q

variable {r p}

theorem request_store_of_ne (h : p ≠ r) : (s.store r q w).request p = s.request p :=
  Arena.cell_write_of_ne s.requests h q

theorem request_retired_of_ne (h : p ≠ r) : (s.retired r q w).request p = s.request p :=
  Arena.cell_write_of_ne s.requests h q

theorem request_promoted_of_ne (h : p ≠ r) : (s.promoted r handle q w).request p = s.request p :=
  Arena.cell_write_of_ne s.requests h q

theorem request_admitted_of_lt (h : p < s.requests.size) :
    (s.admitted q w).request p = s.request p :=
  Arena.cell_alloc_of_lt s.requests h q

variable {q}

/-- A step that keeps the id of the request it rewrites keeps all ids. -/
theorem requestId_retired (hq : q.id = s.requestId r) (p : RequestPtr) :
    (s.retired r q w).requestId p = s.requestId p := by
  unfold requestId
  by_cases hp : p = r
  · subst hp
    rw [request_retired_self]
    exact hq
  · rw [request_retired_of_ne s q w hp]

theorem requestId_promoted (hq : q.id = s.requestId r) (p : RequestPtr) :
    (s.promoted r handle q w).requestId p = s.requestId p := by
  unfold requestId
  by_cases hp : p = r
  · subst hp
    rw [request_promoted_self]
    exact hq
  · rw [request_promoted_of_ne s q w handle hp]

theorem requestId_store (hq : q.id = s.requestId r) (p : RequestPtr) :
    (s.store r q w).requestId p = s.requestId p := by
  unfold requestId
  by_cases hp : p = r
  · subst hp
    rw [request_store_self]
    exact hq
  · rw [request_store_of_ne s q w hp]

end Frames

section Equations

variable [Clock ω]

theorem transitionTo_of_valid {s : FifoScheduler ω} {r : RequestPtr} {target : RequestState}
    (hvalid : isValidTransition (s.state r) target = true) :
    s.transitionTo r target =
      .ok (s.store r ((s.request r).enter target (Clock.now s.world).1) (Clock.now s.world).2) := by
  rw [transitionTo, RequestLifecycle.transitionTo_of_valid hvalid]
  rfl

/-- A token of a decoding request in closed form. -/
def tokenEmitted (s : FifoScheduler ω) (r : RequestPtr) (tokenId : UInt32) : FifoScheduler ω :=
  s.store r ((s.request r).emitted ((s.request r).lifecycle.firstToken s.world).1 tokenId)
    ((s.request r).lifecycle.firstToken s.world).2

theorem emitToken_of_decoding {s : FifoScheduler ω} {r : RequestPtr} (tokenId : UInt32)
    (hstate : s.state r = .decoding) :
    s.emitToken r tokenId =
      if (s.request r).maxOutputTokens ≤ (s.request r).outputTokensEmitted then
        .error .tokenBudgetExceeded
      else .ok (s.tokenEmitted r tokenId) := by
  unfold emitToken Request.emitToken
  rw [RequestLifecycle.recordFirstToken_of_decoding hstate, ok_bind]
  split_ifs with hbudget
  · rfl
  · rfl

theorem requestId_tokenEmitted (s : FifoScheduler ω) (r : RequestPtr) (tokenId : UInt32)
    (p : RequestPtr) : (s.tokenEmitted r tokenId).requestId p = s.requestId p := by
  unfold tokenEmitted
  exact requestId_store s _ (by rfl) p

@[simp] theorem state_tokenEmitted_self (s : FifoScheduler ω) (r : RequestPtr) (tokenId : UInt32) :
    (s.tokenEmitted r tokenId).state r = s.state r := by
  simp [state, tokenEmitted, Request.state]

/-- A fresh request is admitted and queued. -/
theorem submit_of_received {s : FifoScheduler ω} {q : Request} (hstate : q.state = .received) :
    s.submit q = .ok (s.admitted
      ((q.enter .admitted (Clock.now s.world).1).enter .waitingPrefill
        (Clock.now (Clock.now s.world).2).1)
      (Clock.now (Clock.now s.world).2).2, s.requests.size) := by
  unfold submit
  have hfresh : ({ s with requests := s.requests.alloc q } : FifoScheduler ω).request
      s.requests.next = q := Arena.cell_alloc_self s.requests q
  simp only
  rw [transitionTo_of_valid (by rw [state, hfresh, hstate]; rfl), hfresh, ok_bind,
    transitionTo_of_valid (by simp [state, isValidTransition]), ok_bind, request_store_self]
  simp [store, admitted, Arena.next, Arena.write, Arena.alloc]

theorem promote_of_waiting {s : FifoScheduler ω} {r : RequestPtr} (handle : SequenceHandle)
    (hstate : s.state r = .waitingPrefill) :
    s.promote r handle = .ok (s.promoted r handle
      ((((s.request r).enter .prefilling (Clock.now s.world).1).enter
        .waitingDecode (Clock.now (Clock.now s.world).2).1).enter
        .decoding (Clock.now (Clock.now (Clock.now s.world).2).2).1)
      (Clock.now (Clock.now (Clock.now s.world).2).2).2) := by
  have hfirst : isValidTransition (({ s with
      handles := s.handles.emplace (s.requestId r) handle } : FifoScheduler ω).state r)
      .prefilling = true := by
    change isValidTransition (s.state r) .prefilling = true
    rw [hstate]
    rfl
  unfold promote
  simp only
  rw [transitionTo_of_valid hfirst, ok_bind, transitionTo_of_valid (by simp [state, isValidTransition]), ok_bind,
    transitionTo_of_valid (by simp [state, isValidTransition]), ok_bind]
  simp [store, promoted, request, requestId]

variable [InferenceBackend ω]

/-- The world after the handle stored under `id`, if there is one, was given back. -/
def releasedWorld (s : FifoScheduler ω) (id : RequestId) (w : ω) : Except Panic ω :=
  match s.handles.find id with
  | none => .ok w
  | some handle => callBackend (InferenceBackend.release w handle)

theorem retire_of_valid {s : FifoScheduler ω} {r : RequestPtr} {target : RequestState}
    (hvalid : isValidTransition (s.state r) target = true) :
    s.retire r target = s.releasedWorld (s.requestId r) (Clock.now s.world).2 >>= fun w =>
      .ok (s.retired r ((s.request r).enter target (Clock.now s.world).1) w) := by
  unfold retire
  rw [transitionTo_of_valid hvalid, ok_bind]
  unfold releaseHandle releasedWorld
  have hid : (s.store r ((s.request r).enter target (Clock.now s.world).1)
      (Clock.now s.world).2).requestId r = s.requestId r := by
    simp [requestId]
  rw [hid]
  cases hlookup : s.handles.find (s.requestId r) with
  | none =>
      have herase : s.handles.erase (s.requestId r) = s.handles :=
        FinMap.erase_of_notMem (FinMap.find_eq_none.mp hlookup)
      simp [store, hlookup, retired, herase]
  | some handle =>
      simp only [store, hlookup, retired, bind_assoc, ok_bind]

theorem failWaiting_of_waiting {s : FifoScheduler ω} {r : RequestPtr}
    (hstate : s.state r = .waitingPrefill) :
    s.failWaiting r = s.releasedWorld (s.requestId r) (Clock.now (Clock.now s.world).2).2 >>=
      fun w => .ok (s.retired r (((s.request r).enter .prefilling (Clock.now s.world).1).enter
        .failed (Clock.now (Clock.now s.world).2).1) w) := by
  unfold failWaiting
  rw [transitionTo_of_valid (by rw [hstate]; rfl), ok_bind,
    retire_of_valid (by simp [state, isValidTransition])]
  simp [store, retired, releasedWorld, requestId, request]

theorem failDecoding_of_decoding {s : FifoScheduler ω} {r : RequestPtr}
    (hstate : s.state r = .decoding) :
    s.failDecoding r = s.releasedWorld (s.requestId r) (Clock.now s.world).2 >>= fun w =>
      .ok (s.retired r ((s.request r).enter .failed (Clock.now s.world).1) w) :=
  retire_of_valid (by rw [hstate]; rfl)

/-- A successful decode step of a decoding request: the budget is checked, the token is emitted, and
the request is retired when the backend said so or the budget is used up. -/
theorem decodeOutcome_ok_of_decoding {s : FifoScheduler ω} {r : RequestPtr}
    (hstate : s.state r = .decoding) (report : TickReport) (token : DecodedToken) :
    decodeOutcome (s, report) r (.ok token) =
      if (s.request r).maxOutputTokens ≤ (s.request r).outputTokensEmitted then
        .error .tokenBudgetExceeded
      else if token.finished = true ∨
          (s.request r).maxOutputTokens ≤ (s.request r).outputTokensEmitted + 1 then
        s.releasedWorld (s.requestId r) (Clock.now (s.tokenEmitted r token.tokenId).world).2 >>=
          fun w => .ok
            (s.retired r (((s.tokenEmitted r token.tokenId).request r).enter .completed
              (Clock.now (s.tokenEmitted r token.tokenId).world).1) w,
            { report with decodeCompleted := report.decodeCompleted + 1 })
      else .ok (s.tokenEmitted r token.tokenId, report) := by
  have hdecoding : (s.tokenEmitted r token.tokenId).state r = .decoding :=
    (state_tokenEmitted_self s r token.tokenId).trans hstate
  unfold decodeOutcome
  simp only
  rw [emitToken_of_decoding token.tokenId hstate]
  split_ifs with hbudget hfinish
  · rfl
  · rw [ok_bind, if_pos, retire_of_valid (by rw [hdecoding]; rfl)]
    · have hworld : (s.tokenEmitted r token.tokenId).releasedWorld
          ((s.tokenEmitted r token.tokenId).requestId r) = s.releasedWorld (s.requestId r) := by
        funext w
        simp [releasedWorld, tokenEmitted, store, requestId, request]
      rw [hworld, bind_assoc]
      congr 1
      funext w
      simp [retired, tokenEmitted, store, requestId, request]
    · simpa [tokenEmitted] using hfinish
  · rw [ok_bind, if_neg]
    simpa [tokenEmitted] using hfinish

/-- A submission in closed form. -/
theorem apply_submit [Environment ω] (s : FifoScheduler ω) (id : RequestId)
    (deadlineFromNow : Duration) (maxOutputTokens : Nat) (promptTokenIds : List UInt32)
    (priority : Int) :
    s.apply (.submit id deadlineFromNow maxOutputTokens promptTokenIds priority) =
      let made := Request.construct id s.world deadlineFromNow maxOutputTokens promptTokenIds priority
      .ok (({ s with world := made.2 } : FifoScheduler ω).admitted
        ((made.1.enter .admitted (Clock.now made.2).1).enter .waitingPrefill
          (Clock.now (Clock.now made.2).2).1)
        (Clock.now (Clock.now made.2).2).2) := by
  unfold apply
  simp only
  rw [submit_of_received rfl]
  rfl

/-! ### The loop bodies, by their outcomes -/

variable {s t : FifoScheduler ω} {r : RequestPtr} {report report' : TickReport}

/-- A waiting request fails or is promoted. -/
theorem prefillOutcome_cases {outcome : Except BackendError PrefillOutcome}
    (hstate : s.state r = .waitingPrefill)
    (h : prefillOutcome (s, report) r outcome = .ok (t, report')) :
    (s.failWaiting r = .ok t ∧
      report' = { report with prefillFailed := report.prefillFailed + 1 }) ∨
    ∃ handle t₁ t₂ t₃ w,
      t = s.promoted r handle
        ((((s.request r).enter .prefilling t₁).enter .waitingDecode t₂).enter .decoding t₃) w ∧
      report' = { report with prefillSucceeded := report.prefillSucceeded + 1 } := by
  cases outcome with
  | error e =>
      obtain ⟨next, hnext, h⟩ := bind_eq_ok.mp h
      cases h
      exact .inl ⟨hnext, rfl⟩
  | ok out =>
      obtain ⟨next, hnext, h⟩ := bind_eq_ok.mp h
      cases h
      rw [promote_of_waiting out.handle hstate] at hnext
      cases hnext
      exact .inr ⟨_, _, _, _, _, rfl, rfl⟩

/-- A decoding request fails, or it emits a token within its budget, which may complete it. -/
theorem decodeOutcome_cases {outcome : Except BackendError DecodedToken}
    (hstate : s.state r = .decoding)
    (h : decodeOutcome (s, report) r outcome = .ok (t, report')) :
    (s.failDecoding r = .ok t ∧
      report' = { report with decodeFailed := report.decodeFailed + 1 }) ∨
    ∃ token : DecodedToken, (s.request r).outputTokensEmitted < (s.request r).maxOutputTokens ∧
      (((token.finished = true ∨
          (s.request r).maxOutputTokens ≤ (s.request r).outputTokensEmitted + 1) ∧
        (∃ stop w, t = s.retired r
          (((s.tokenEmitted r token.tokenId).request r).enter .completed stop) w) ∧
        report' = { report with decodeCompleted := report.decodeCompleted + 1 }) ∨
      (¬(token.finished = true ∨
          (s.request r).maxOutputTokens ≤ (s.request r).outputTokensEmitted + 1) ∧
        t = s.tokenEmitted r token.tokenId ∧ report' = report)) := by
  cases outcome with
  | error e =>
      obtain ⟨next, hnext, h⟩ := bind_eq_ok.mp h
      cases h
      exact .inl ⟨hnext, rfl⟩
  | ok token =>
      rw [decodeOutcome_ok_of_decoding hstate] at h
      split_ifs at h with hbudget hfinish
      · obtain ⟨w, -, h⟩ := bind_eq_ok.mp h
        cases h
        exact .inr ⟨token, not_le.mp hbudget, .inl ⟨hfinish, ⟨_, _, rfl⟩, rfl⟩⟩
      · cases h
        exact .inr ⟨token, not_le.mp hbudget, .inr ⟨hfinish, rfl, rfl⟩⟩

end Equations

end Tokamak.FifoScheduler
