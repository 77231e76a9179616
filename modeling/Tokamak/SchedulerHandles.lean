import Tokamak.MockBackendSpec
import Tokamak.SchedulerSafety

/-! Handles over a mock backend. The map from ids to handles is injective and every handle in it is
live, even when several tracked requests share an id: `emplace` drops the handle of the second one
and `retire` gives a handle back only once, because it leaves the map with it. -/

open Outcome

namespace Tokamak.FifoScheduler

/-- An abort that does not come from a dead handle. -/
def NoDeadHandle (p : Panic) : Prop :=
  p ≠ .backend .decodeUnknownHandle ∧ p ≠ .backend .releaseUnknownHandle

theorem noDeadHandle_advance : NoDeadHandle (.backend .negativeAdvance) := by
  simp [NoDeadHandle]

section Release

variable (s : FifoScheduler MockBackend) (id : RequestId)

/-- The mock backend after the handle stored under `id` was given back. -/
def releasedMock : MockBackend :=
  match s.handles.find id with
  | none => s.world
  | some handle => { s.world with sequences := s.world.sequences.erase handle.id }

@[simp] theorem releasedMock_nextSequenceId :
    (s.releasedMock id).nextSequenceId = s.world.nextSequenceId := by
  unfold releasedMock
  split <;> rfl

@[simp] theorem releasedMock_clock : (s.releasedMock id).clock = s.world.clock := by
  unfold releasedMock
  split <;> rfl

@[simp] theorem releasedMock_pendingPrefillErrors :
    (s.releasedMock id).pendingPrefillErrors = s.world.pendingPrefillErrors := by
  unfold releasedMock
  split <;> rfl

theorem mem_releasedMock (k : Nat) : k ∈ (s.releasedMock id).sequences ↔
    k ∈ s.world.sequences ∧ ∀ handle, s.handles.find id = some handle → k ≠ handle.id := by
  unfold releasedMock
  cases hfind : s.handles.find id with
  | none => simp
  | some handle =>
      rw [show (k ∈ s.world.sequences.erase handle.id) ↔ _ from AList.mem_erase]
      constructor
      · rintro ⟨hne, hmem⟩
        refine ⟨hmem, ?_⟩
        intro other hother
        cases hother
        exact hne
      · rintro ⟨hmem, hne⟩
        exact ⟨hne handle rfl, hmem⟩

theorem releasedWorld_of_live (hlive : ∀ handle, s.handles.find id = some handle →
    handle.id ∈ s.world.sequences) : s.releasedWorld id s.world = .ok (s.releasedMock id) := by
  unfold releasedWorld releasedMock
  cases hfind : s.handles.find id with
  | none => rfl
  | some handle =>
      simp only
      rw [MockBackend.release_of_live (hlive handle hfind)]
      rfl

end Release

/-! ### The steps over a mock backend

Reading the fake clock changes nothing, so the closed forms lose their chain of worlds. -/

section MockSteps

variable {s : FifoScheduler MockBackend} {r : RequestPtr}

/-- The current time of the fake clock. -/
def clockNow (s : FifoScheduler MockBackend) : TimePoint := s.world.clock.current

theorem clockNow_retired (s : FifoScheduler MockBackend) (r : RequestPtr) (q : Request) :
    (s.retired r q (s.releasedMock (s.requestId r))).clockNow = s.clockNow := by
  change (s.releasedMock (s.requestId r)).clock.current = s.world.clock.current
  rw [releasedMock_clock]

/-- The deadline of the request has passed. -/
def isExpired (s : FifoScheduler MockBackend) (r : RequestPtr) : Bool :=
  decide ((s.request r).deadlineAt < s.clockNow)

theorem collectExpired_mock (s : FifoScheduler MockBackend) (queue : List RequestPtr) :
    s.collectExpired queue s.world = (queue.filter s.isExpired, s.world) := by
  induction queue with
  | nil => rfl
  | cons r rest ih =>
      unfold collectExpired
      simp only [MockBackend.now_eq, ih]
      by_cases hexpired : (s.request r).deadlineAt < s.world.clock.current
      · have hr : s.isExpired r = true := decide_eq_true hexpired
        rw [if_pos hexpired, List.filter_cons_of_pos hr]
      · have hr : ¬s.isExpired r = true := fun h => hexpired (of_decide_eq_true h)
        rw [if_neg hexpired, List.filter_cons_of_neg hr]

theorem expiredWaiting_mock (s : FifoScheduler MockBackend) :
    s.expiredWaiting = (s.waiting.filter s.isExpired, s.world) := collectExpired_mock s s.waiting

theorem expiredDecoding_mock (s : FifoScheduler MockBackend) :
    s.expiredDecoding = (s.decoding.filter s.isExpired, s.world) := by
  unfold expiredDecoding
  rw [expiredWaiting_mock]
  exact collectExpired_mock s s.decoding

theorem retire_mock {target : RequestState}
    (hvalid : isValidTransition (s.state r) target = true)
    (hlive : ∀ handle, s.handles.find (s.requestId r) = some handle →
      handle.id ∈ s.world.sequences) :
    s.retire r target = .ok (s.retired r ((s.request r).enter target s.clockNow)
      (s.releasedMock (s.requestId r))) := by
  rw [retire_of_valid hvalid, MockBackend.now_eq, releasedWorld_of_live s _ hlive]
  rfl

theorem failWaiting_mock (hstate : s.state r = .waitingPrefill)
    (hlive : ∀ handle, s.handles.find (s.requestId r) = some handle →
      handle.id ∈ s.world.sequences) :
    s.failWaiting r = .ok (s.retired r
      (((s.request r).enter .prefilling s.clockNow).enter .failed s.clockNow)
      (s.releasedMock (s.requestId r))) := by
  rw [failWaiting_of_waiting hstate]
  simp only [MockBackend.now_eq]
  rw [releasedWorld_of_live s _ hlive]
  rfl

theorem failDecoding_mock (hstate : s.state r = .decoding)
    (hlive : ∀ handle, s.handles.find (s.requestId r) = some handle →
      handle.id ∈ s.world.sequences) :
    s.failDecoding r = .ok (s.retired r ((s.request r).enter .failed s.clockNow)
      (s.releasedMock (s.requestId r))) :=
  retire_mock (by rw [hstate]; rfl) hlive

theorem promote_mock (handle : SequenceHandle) (hstate : s.state r = .waitingPrefill) :
    s.promote r handle = .ok (s.promoted r handle
      ((((s.request r).enter .prefilling s.clockNow).enter .waitingDecode s.clockNow).enter
        .decoding s.clockNow) s.world) := by
  rw [promote_of_waiting handle hstate]
  rfl

theorem firstToken_mock (lc : RequestLifecycle) (b : MockBackend) : (lc.firstToken b).2 = b := by
  unfold RequestLifecycle.firstToken
  split_ifs <;> rfl

theorem tokenEmitted_world (s : FifoScheduler MockBackend) (r : RequestPtr) (tokenId : UInt32) :
    (s.tokenEmitted r tokenId).world = s.world := firstToken_mock _ _

theorem decodeOutcome_mock (hstate : s.state r = .decoding)
    (hlive : ∀ handle, s.handles.find (s.requestId r) = some handle →
      handle.id ∈ s.world.sequences) (report : TickReport) (token : DecodedToken) :
    decodeOutcome (s, report) r (.ok token) =
      if (s.request r).maxOutputTokens ≤ (s.request r).outputTokensEmitted then
        .error .tokenBudgetExceeded
      else if token.finished = true ∨
          (s.request r).maxOutputTokens ≤ (s.request r).outputTokensEmitted + 1 then
        .ok (s.retired r (((s.tokenEmitted r token.tokenId).request r).enter .completed s.clockNow)
            (s.releasedMock (s.requestId r)),
          { report with decodeCompleted := report.decodeCompleted + 1 })
      else .ok (s.tokenEmitted r token.tokenId, report) := by
  rw [decodeOutcome_ok_of_decoding hstate, tokenEmitted_world]
  simp only [MockBackend.now_eq]
  rw [releasedWorld_of_live s _ hlive]
  rfl

end MockSteps

/-! ### The map of handles after a retirement and after a promotion -/

section HandleMap

variable {ω : Type} {s : FifoScheduler ω} {r : RequestPtr} {q : Request} {w : ω}
  {handle : SequenceHandle}

theorem find_handles_promoted (hfree : s.requestId r ∉ s.handles) (a : RequestId) :
    (s.promoted r handle q w).handles.find a =
      if a = s.requestId r then some handle else s.handles.find a := by
  rw [show (s.promoted r handle q w).handles = s.handles.insert (s.requestId r) handle from
    FinMap.emplace_of_notMem hfree handle, FinMap.find_insert]

/-- A slot that is left belongs to a decoding request still, because the slot of `r` has gone. -/
theorem owner_retired
    (howner : ∀ a handle, s.handles.find a = some handle → ∃ d ∈ s.decoding, s.requestId d = a)
    (hq : q.id = s.requestId r) (a : RequestId) (handle : SequenceHandle)
    (ha : (s.retired r q w).handles.find a = some handle) :
    ∃ d ∈ (s.retired r q w).decoding, (s.retired r q w).requestId d = a := by
  simp only [FifoScheduler.retired, FinMap.find_erase] at ha
  split_ifs at ha with hne
  obtain ⟨d, hd, hid⟩ := howner a handle ha
  have hdr : d ≠ r := fun h => hne (by rw [← hid, h])
  refine ⟨d, (List.mem_erase_of_ne hdr).mpr hd, ?_⟩
  rw [requestId_retired s _ hq d]
  exact hid

/-- The new slot belongs to the promoted request. -/
theorem owner_promoted
    (howner : ∀ a handle, s.handles.find a = some handle → ∃ d ∈ s.decoding, s.requestId d = a)
    (hq : q.id = s.requestId r) (hfree : s.requestId r ∉ s.handles) (a : RequestId)
    (other : SequenceHandle) (ha : (s.promoted r handle q w).handles.find a = some other) :
    ∃ d ∈ (s.promoted r handle q w).decoding, (s.promoted r handle q w).requestId d = a := by
  have hids := requestId_promoted s w handle hq
  rw [find_handles_promoted hfree] at ha
  split_ifs at ha with haid
  · exact ⟨r, List.mem_append_right _ (List.mem_singleton.mpr rfl), by rw [hids, haid]⟩
  · obtain ⟨d, hd, hida⟩ := howner a other ha
    exact ⟨d, List.mem_append_left _ hd, by rw [hids, hida]⟩

end HandleMap

/-- The stored handles are pairwise distinct and live; `dead` names numbers that were given out once
and are live no more. -/
structure HandlesLive (dead : Nat → Prop) (s : FifoScheduler MockBackend) : Prop where
  fresh : s.world.Fresh
  injective : ∀ a c handle, s.handles.find a = some handle → s.handles.find c = some handle → a = c
  live : ∀ a handle, s.handles.find a = some handle → handle.id ∈ s.world.sequences
  buried : ∀ k, dead k → k < s.world.nextSequenceId ∧ k ∉ s.world.sequences

namespace HandlesLive

variable {dead : Nat → Prop} {s : FifoScheduler MockBackend}

theorem start (b : MockBackend) (hfresh : b.Fresh) : HandlesLive (fun _ => False) (new b) where
  fresh := hfresh
  injective a c handle ha := by simp [new] at ha
  live a handle ha := by simp [new] at ha
  buried k hk := hk.elim

/-- Only the world and the map matter. -/
theorem of_eq {s' : FifoScheduler MockBackend} (hs : HandlesLive dead s)
    (hworld : s'.world = s.world) (hhandles : s'.handles = s.handles) : HandlesLive dead s' := by
  obtain ⟨hfresh, hinj, hlive, hburied⟩ := hs
  refine ⟨?_, ?_, ?_, ?_⟩
  · rw [hworld]; exact hfresh
  · rw [hhandles]; exact hinj
  · rw [hworld, hhandles]; exact hlive
  · rw [hworld]; exact hburied

/-- A change of the world that mints and frees nothing. -/
theorem world (hs : HandlesLive dead s) {w : MockBackend}
    (hw : MockBackend.SameSequences s.world w) : HandlesLive dead { s with world := w } where
  fresh k hk := by
    rw [hw.nextSequenceId]
    exact hs.fresh k ((hw.mem k).mp hk)
  injective := hs.injective
  live a handle ha := (hw.mem _).mpr (hs.live a handle ha)
  buried k hk := by
    rw [hw.nextSequenceId, hw.mem]
    exact hs.buried k hk

/-- Giving a stored handle back and dropping it from the map. -/
theorem release (hs : HandlesLive dead s) (r : RequestPtr) (q : Request) :
    HandlesLive dead (s.retired r q (s.releasedMock (s.requestId r))) where
  fresh k hk := by
    have hmem := ((mem_releasedMock s _ k).mp hk).1
    rw [show (s.retired r q (s.releasedMock (s.requestId r))).world.nextSequenceId =
      s.world.nextSequenceId from releasedMock_nextSequenceId s _]
    exact hs.fresh k hmem
  injective a c handle ha hc := by
    simp only [retired, FinMap.find_erase] at ha hc
    split_ifs at ha hc
    exact hs.injective a c handle ha hc
  live a handle ha := by
    simp only [retired, FinMap.find_erase] at ha ⊢
    split_ifs at ha with hne
    rw [mem_releasedMock]
    refine ⟨hs.live a handle ha, ?_⟩
    intro other hother hid
    have heq : handle = other := by
      cases handle; cases other
      simpa using hid
    subst heq
    exact hne (hs.injective a _ handle ha hother)
  buried k hk := by
    obtain ⟨hlt, hmem⟩ := hs.buried k hk
    refine ⟨?_, fun h => hmem ((mem_releasedMock s _ k).mp h).1⟩
    rw [show (s.retired r q (s.releasedMock (s.requestId r))).world.nextSequenceId =
      s.world.nextSequenceId from releasedMock_nextSequenceId s _]
    exact hlt

/-- Storing a live handle nobody holds yet. -/
theorem promoted (hs : HandlesLive dead s) (r : RequestPtr) (handle : SequenceHandle) (q : Request)
    (hlive : handle.id ∈ s.world.sequences)
    (hnew : ∀ a other, s.handles.find a = some other → other.id ≠ handle.id) :
    HandlesLive dead (s.promoted r handle q s.world) := by
  by_cases hmem : s.requestId r ∈ s.handles
  · -- an equal id already holds a handle: the map does not change and the new handle is dropped
    exact hs.of_eq rfl (FinMap.emplace_of_mem hmem handle)
  · have hfind : ∀ a, (s.promoted r handle q s.world).handles.find a =
        if a = s.requestId r then some handle else s.handles.find a :=
      find_handles_promoted hmem
    refine ⟨hs.fresh, ?_, ?_, hs.buried⟩
    · intro a c other ha hc
      rw [hfind] at ha hc
      split_ifs at ha hc with hae hce hce
      · rw [hae, hce]
      · cases ha
        exact absurd rfl (hnew c handle hc)
      · cases hc
        exact absurd rfl (hnew a handle ha)
      · exact hs.injective a c other ha hc
    · intro a other ha
      rw [hfind] at ha
      split_ifs at ha with hae
      · cases ha
        exact hlive
      · exact hs.live a other ha

end HandlesLive

/-! ### Every operation keeps the handles live -/

section Operations

variable {dead : Nat → Prop} {s : FifoScheduler MockBackend} {r : RequestPtr}

theorem failWaiting_live (hp : s.Partition) (hs : HandlesLive dead s) (hr : r ∈ s.waiting) :
    Ensures (s.failWaiting r) NoDeadHandle (HandlesLive dead) := by
  rw [failWaiting_mock (hp.waiting_state r hr) (hs.live _)]
  exact hs.release r _

theorem failDecoding_live (hp : s.Partition) (hs : HandlesLive dead s) (hr : r ∈ s.decoding) :
    Ensures (s.failDecoding r) NoDeadHandle (HandlesLive dead) := by
  rw [failDecoding_mock (hp.decoding_state r hr) (hs.live _)]
  exact hs.release r _

theorem expireDeadlines_live (hp : s.Partition) (hs : HandlesLive dead s) :
    Ensures s.expireDeadlines NoDeadHandle
      (fun done => done.1.Partition ∧ HandlesLive dead done.1) := by
  refine expireDeadlines_ensures hp (fun _ _ => HandlesLive dead) ?_ ?_ ?_
  · exact hs.of_eq (expiredDecoding_mock s ▸ rfl) rfl
  · intro r rest t ht hr _ _ hinv
    exact failWaiting_live ht hinv hr
  · intro r rest t ht hr _ hinv
    exact failDecoding_live ht hinv hr

/-- Handles a prefill call has minted and the loop has not stored yet: live, distinct, in no slot. -/
def Unclaimed (outcomes : List (Except BackendError PrefillOutcome))
    (s : FifoScheduler MockBackend) : Prop :=
  (MockBackend.mintedIds outcomes).Nodup ∧ ∀ k ∈ MockBackend.mintedIds outcomes,
    k ∈ s.world.sequences ∧ ∀ a handle, s.handles.find a = some handle → handle.id ≠ k

theorem Unclaimed.retired {outcomes : List (Except BackendError PrefillOutcome)} {e : BackendError}
    (h : Unclaimed (.error e :: outcomes) s) (r : RequestPtr) (q : Request) :
    Unclaimed outcomes (s.retired r q (s.releasedMock (s.requestId r))) := by
  obtain ⟨hnodup, hnew⟩ := h
  refine ⟨hnodup, ?_⟩
  intro k hk
  obtain ⟨hmem, hfree⟩ := hnew k hk
  refine ⟨?_, ?_⟩
  · refine (mem_releasedMock s _ k).mpr ⟨hmem, ?_⟩
    intro handle hhandle heq
    exact hfree _ handle hhandle heq.symm
  · intro a handle ha
    simp only [FifoScheduler.retired, FinMap.find_erase] at ha
    split_ifs at ha
    exact hfree a handle ha

theorem Unclaimed.promoted {outcomes : List (Except BackendError PrefillOutcome)}
    {out : PrefillOutcome} (h : Unclaimed (.ok out :: outcomes) s) (r : RequestPtr) (q : Request) :
    Unclaimed outcomes (s.promoted r out.handle q s.world) := by
  obtain ⟨hnodup, hnew⟩ := h
  obtain ⟨hnotMem, hnodup⟩ := List.nodup_cons.mp hnodup
  refine ⟨hnodup, ?_⟩
  intro k hk
  obtain ⟨hmem, hfree⟩ := hnew k (List.mem_cons_of_mem _ hk)
  refine ⟨hmem, ?_⟩
  intro a handle ha
  simp only [FifoScheduler.promoted, FinMap.emplace] at ha
  split_ifs at ha with hbound
  · exact hfree a handle ha
  · rw [FinMap.find_insert] at ha
    split_ifs at ha
    · cases ha
      exact fun h => hnotMem (h ▸ hk)
    · exact hfree a handle ha

section Prefilled

variable {b : MockBackend} {requests : List PrefillRequest}
  {outcomes : List (Except BackendError PrefillOutcome)}

theorem HandlesLive.prefilled (hs : HandlesLive dead s)
    (h : MockBackend.Prefilled s.world requests b outcomes) :
    HandlesLive dead { s with world := b } where
  fresh := h.fresh hs.fresh
  injective := hs.injective
  live a handle ha := (h.mem_sequences _).mpr (.inl (hs.live a handle ha))
  buried k hk := by
    obtain ⟨hlt, hmem⟩ := hs.buried k hk
    have hnext := h.nextSequenceId
    refine ⟨?_, ?_⟩
    · change k < b.nextSequenceId
      omega
    · intro hk'
      rcases (h.mem_sequences k).mp hk' with hold | hminted
      · exact hmem hold
      · have hle := ((h.mem_mintedIds k).mp hminted).1
        omega

theorem HandlesLive.unclaimed (hs : HandlesLive dead s)
    (h : MockBackend.Prefilled s.world requests b outcomes) :
    Unclaimed outcomes { s with world := b } := by
  refine ⟨?_, ?_⟩
  · rw [h.mintedIds_eq]
    exact List.nodup_range'
  · intro k hk
    refine ⟨(h.mem_sequences k).mpr (.inr hk), ?_⟩
    intro a handle ha heq
    have hlt := hs.fresh _ (hs.live a handle ha)
    have hle := ((h.mem_mintedIds k).mp hk).1
    omega

end Prefilled

theorem prefillPhase_live (hp : s.Partition) (hs : HandlesLive dead s) :
    Ensures s.prefillPhase NoDeadHandle (fun done =>
      done.1.Partition ∧ done.1.waiting = [] ∧ HandlesLive dead done.1) := by
  refine (prefillPhase_ensures hp (fun _ outcomes t =>
    HandlesLive dead t.1 ∧ Unclaimed outcomes t.1) ?_ ?_).imp
    (fun _ h => ⟨h.1, h.2.1, h.2.2.1⟩)
  · refine (MockBackend.prefill_ensures hs.fresh _).mono
      (fun p hp => hp ▸ noDeadHandle_advance) (fun answer hanswer => ?_)
    exact ⟨hs.prefilled hanswer, hs.unclaimed hanswer⟩
  · rintro r rest outcome outcomes t report ht hwaiting ⟨hlive, hunclaimed⟩
    have hr : r ∈ t.waiting := by rw [hwaiting]; exact List.mem_cons_self
    unfold prefillOutcome
    cases outcome with
    | error e =>
        simp only
        rw [failWaiting_mock (ht.waiting_state r hr) (hlive.live _)]
        exact ⟨hlive.release r _, hunclaimed.retired r _⟩
    | ok out =>
        obtain ⟨hmem, hfree⟩ := hunclaimed.2 out.handle.id List.mem_cons_self
        simp only
        rw [promote_mock out.handle (ht.waiting_state r hr)]
        exact ⟨hlive.promoted r out.handle _ hmem hfree, hunclaimed.promoted r _⟩

/-- The handles a decode call is given are live. -/
theorem decodeBatch_live (hs : HandlesLive dead s) :
    Ensures (s.decoding.mapM s.decodeRequest) NoDeadHandle
      (fun batch => ∀ d ∈ batch, d.handle.id ∈ s.world.sequences) := by
  refine (Ensures.mapM (fun _ d => d.handle.id ∈ s.world.sequences) s.decoding ?_).imp ?_
  · intro r _
    unfold decodeRequest
    split
    · simp [NoDeadHandle]
    · rename_i handle hfind
      exact hs.live _ handle hfind
  · intro batch hbatch d hd
    obtain ⟨r, -, h⟩ := exists_of_forall₂ hbatch hd
    exact h

theorem decodePhase_live (hp : s.Partition) (hs : HandlesLive dead s) :
    Ensures s.decodePhase NoDeadHandle (fun done =>
      done.1.Partition ∧ HandlesLive dead done.1) := by
  refine (decodePhase_ensures hp (fun _ _ t => HandlesLive dead t.1) ?_ ?_).imp
    (fun _ h => ⟨h.1, h.2.2⟩)
  · refine (decodeBatch_live hs).imp (fun batch hbatch => ?_)
    refine (MockBackend.decode_ensures hbatch).mono (fun p hp => hp ▸ noDeadHandle_advance) ?_
    rintro answer ⟨-, hdecoded⟩
    exact hs.world ⟨hdecoded.mem, hdecoded.nextSequenceId⟩
  · rintro r rest outcome outcomes t report ht hr - - - hinv
    cases outcome with
    | error e => exact (failDecoding_live ht hinv hr).bind (fun _ h => h)
    | ok token =>
        rw [decodeOutcome_mock (ht.decoding_state r hr) (hinv.live _)]
        split_ifs
        · simp [NoDeadHandle]
        · exact hinv.release r _
        · exact hinv.of_eq (tokenEmitted_world t r token.tokenId) rfl

theorem tick_live (hp : s.Partition) (hs : HandlesLive dead s) :
    Ensures s.tick NoDeadHandle (fun done => done.1.Partition ∧ HandlesLive dead done.1) :=
  tick_ensures (fun a => a.1.Partition ∧ HandlesLive dead a.1)
    (fun _ b => b.1.Partition ∧ HandlesLive dead b.1)
    (expireDeadlines_live hp hs)
    (fun _ ha => (prefillPhase_live ha.1 ha.2).imp (fun _ h => ⟨h.1, h.2.2⟩))
    (fun _ _ hb => (decodePhase_live hb.1 hb.2).imp (fun _ h => ⟨h.1.world _, h.2⟩))

theorem cancelFirst_live (hp : s.Partition) (hs : HandlesLive dead s) {queue : List RequestPtr}
    (hqueue : ∀ r ∈ queue, s.Live r) (id : RequestId) :
    Ensures (s.cancelFirst queue id) NoDeadHandle (fun t => t.Partition ∧ HandlesLive dead t) := by
  unfold cancelFirst
  cases hfind : queue.find? (fun r => s.requestId r = id) with
  | none => exact ⟨hp, hs⟩
  | some r =>
      have hlive := hqueue r (List.mem_of_find?_eq_some hfind)
      simp only
      rw [retire_mock (valid_cancelled hp hlive) (hs.live _)]
      exact ⟨hp.retired rfl _, hs.release r _⟩

theorem apply_live (hp : s.Partition) (hs : HandlesLive dead s) (op : SchedulerOp MockBackend) :
    Ensures (s.apply op) NoDeadHandle (fun t => t.Partition ∧ HandlesLive dead t) := by
  cases op with
  | submit id deadlineFromNow maxOutputTokens promptTokenIds priority =>
      rw [apply_submit]
      exact ⟨(hp.world _).admitted rfl _, hs.of_eq rfl rfl⟩
  | cancel id =>
      exact (cancelFirst_live hp hs (fun _ hr => .inl hr) id).bind
        (fun _ ht => cancelFirst_live ht.1 ht.2 (fun _ hr => .inr hr) id)
  | tick => exact (tick_live hp hs).bind (fun _ h => h)
  | event e =>
      refine Ensures.bind (ensures_callBackend.mpr ((MockBackend.occur_ensures s.world e).mono ?_
        (fun _ h => h))) (fun w hw => ⟨hp.world w, hs.world hw⟩)
      rintro p (rfl | rfl)
      · exact noDeadHandle_advance
      · simp [NoDeadHandle]

end Operations

theorem run_live {dead : Nat → Prop} {s : FifoScheduler MockBackend} (hp : s.Partition)
    (hs : HandlesLive dead s) (ops : List (SchedulerOp MockBackend)) :
    Ensures (run apply s ops) NoDeadHandle (fun t => t.Partition ∧ HandlesLive dead t) :=
  run_ensures (fun _ op h => apply_live h.1 h.2 op) s ⟨hp, hs⟩ ops

theorem start_live (clock : FakeClock) (prefillCost decodeCost : Duration)
    (ops : List (SchedulerOp MockBackend)) :
    Ensures (run apply (new (MockBackend.new clock prefillCost decodeCost)) ops) NoDeadHandle
      (fun t => t.Partition ∧ HandlesLive (fun _ => False) t) :=
  run_live (partition_new _)
    (HandlesLive.start _ (MockBackend.fresh_new clock prefillCost decodeCost)) ops

/-- **No dead handle is used.** In every run, with shared ids and injected errors, no abort is an
unknown-handle one (so a handle is live when it is released), the stored handles are pairwise distinct
and live, every handle the next tick passes to `decode` is live at that call, and a number that was
given out and is not live never becomes live again, so no handle is released twice. -/
theorem no_dead_handle_used (clock : FakeClock) (prefillCost decodeCost : Duration)
    (ops : List (SchedulerOp MockBackend)) :
    Ensures (run apply (new (MockBackend.new clock prefillCost decodeCost)) ops)
      (fun p => p ≠ .backend .decodeUnknownHandle ∧ p ≠ .backend .releaseUnknownHandle)
      (fun s =>
        (∀ a c handle, s.handles.find a = some handle → s.handles.find c = some handle → a = c) ∧
        (∀ a handle, s.handles.find a = some handle → handle.id ∈ s.world.sequences) ∧
        (∀ expired prefilled batch, s.expireDeadlines = .ok expired →
          expired.1.prefillPhase = .ok prefilled →
          prefilled.1.decoding.mapM prefilled.1.decodeRequest = .ok batch →
            ∀ d ∈ batch, d.handle.id ∈ prefilled.1.world.sequences) ∧
        (∀ later t k, run apply s later = .ok t → k < s.world.nextSequenceId →
          k ∉ s.world.sequences → k ∉ t.world.sequences)) := by
  refine (start_live clock prefillCost decodeCost ops).imp ?_
  rintro s ⟨hp, hs⟩
  refine ⟨hs.injective, hs.live, ?_, ?_⟩
  · intro expired prefilled batch hexpired hprefilled hbatch
    have hafter := (expireDeadlines_live hp hs).ok hexpired
    have hready := (prefillPhase_live hafter.1 hafter.2).ok hprefilled
    exact (decodeBatch_live hready.2.2).ok hbatch
  · intro later t k hrun hlt hmem
    have hdead : HandlesLive (fun j => j = k) s :=
      ⟨hs.fresh, hs.injective, hs.live, fun j hj => by rw [hj]; exact ⟨hlt, hmem⟩⟩
    exact (((run_live hp hdead later).ok hrun).2.buried k rfl).2

end Tokamak.FifoScheduler
