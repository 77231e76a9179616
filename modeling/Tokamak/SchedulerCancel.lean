import Tokamak.SchedulerIsolation

/-! The algebra of cancels, over a mock backend and where no two live requests share an id. A cancel then
has one request to find, and it is the only one whose handle can be stored under that id: a handle is
stored under the id of a decoding request only. So a cancel in closed form is one retirement, and two
of them commute because they rewrite different cells, drop different pointers and erase different keys. -/

open Outcome

namespace Tokamak

namespace MockBackend

end MockBackend

namespace FifoScheduler

/-! ### Who a handle is stored for -/

section Owned

variable {ω : Type} {s : FifoScheduler ω}

/-- A handle is stored under the id of a decoding request only. -/
def HandlesOwned (s : FifoScheduler ω) : Prop :=
  ∀ a handle, s.handles.find a = some handle → ∃ d ∈ s.decoding, s.requestId d = a

theorem HandlesOwned.promoted (hs : s.HandlesOwned) {r : RequestPtr} {q : Request}
    (hq : q.id = s.requestId r) (handle : SequenceHandle) (w : ω) :
    (s.promoted r handle q w).HandlesOwned := by
  by_cases hfree : s.requestId r ∈ s.handles
  · -- the slot is taken already, and stays with its owner
    intro a other ha
    rw [show (s.promoted r handle q w).handles = s.handles from FinMap.emplace_of_mem hfree handle]
      at ha
    obtain ⟨d, hd, hid⟩ := hs a other ha
    refine ⟨d, List.mem_append_left _ hd, ?_⟩
    rw [requestId_promoted s w handle hq, hid]
  · exact owner_promoted hs hq hfree

theorem HandlesOwned.store (hs : s.HandlesOwned) {r : RequestPtr} {q : Request}
    (hq : q.id = s.requestId r) (w : ω) : (s.store r q w).HandlesOwned := by
  intro a handle ha
  obtain ⟨d, hd, hid⟩ := hs a handle ha
  exact ⟨d, hd, (requestId_store s w hq d).trans hid⟩

theorem HandlesOwned.admitted (hs : s.HandlesOwned) (hp : s.Partition) (q : Request) (w : ω) :
    (s.admitted q w).HandlesOwned := by
  intro a handle ha
  obtain ⟨d, hd, hid⟩ := hs a handle ha
  refine ⟨d, hd, ?_⟩
  rw [requestId, request_admitted_of_lt s q w (hp.decoding_lt d hd)]
  exact hid

variable [Clock ω] [InferenceBackend ω]

theorem HandlesOwned.retire (hs : s.HandlesOwned) {r : RequestPtr} {target : RequestState}
    {t : FifoScheduler ω} (hvalid : isValidTransition (s.state r) target = true)
    (h : s.retire r target = .ok t) : t.HandlesOwned := by
  rw [retire_of_valid hvalid] at h
  obtain ⟨w, -, hw⟩ := bind_eq_ok.mp h
  cases hw
  exact owner_retired hs rfl

theorem HandlesOwned.failWaiting (hs : s.HandlesOwned) {r : RequestPtr} {t : FifoScheduler ω}
    (hstate : s.state r = .waitingPrefill) (h : s.failWaiting r = .ok t) : t.HandlesOwned := by
  rw [failWaiting_of_waiting hstate] at h
  obtain ⟨w, -, hw⟩ := bind_eq_ok.mp h
  cases hw
  exact owner_retired hs rfl

theorem HandlesOwned.failDecoding (hs : s.HandlesOwned) {r : RequestPtr} {t : FifoScheduler ω}
    (hstate : s.state r = .decoding) (h : s.failDecoding r = .ok t) : t.HandlesOwned :=
  hs.retire (by rw [hstate]; rfl) h

theorem HandlesOwned.cancelFirst (hs : s.HandlesOwned) (hp : s.Partition) {t : FifoScheduler ω}
    {queue : List RequestPtr} {id : RequestId} (hqueue : ∀ p ∈ queue, s.Live p)
    (h : s.cancelFirst queue id = .ok t) : t.HandlesOwned := by
  unfold FifoScheduler.cancelFirst at h
  cases hfind : queue.find? (fun r => s.requestId r = id) with
  | none =>
      rw [hfind] at h
      cases h
      exact hs
  | some r =>
      rw [hfind] at h
      exact hs.retire (valid_cancelled hp (hqueue r (List.mem_of_find?_eq_some hfind))) h

variable [AlignedBackend ω]

theorem HandlesOwned.tick (hs : s.HandlesOwned) (hp : s.Partition) :
    Ensures s.tick (fun _ => True) (fun done => done.1.HandlesOwned) := by
  refine tick_ensures (fun a => a.1.Partition ∧ a.1.HandlesOwned)
    (fun _ b => b.1.Partition ∧ b.1.HandlesOwned) ?_ ?_ ?_
  · refine expireDeadlines_ensures hp (fun _ _ t => t.HandlesOwned) hs ?_ ?_
    · intro r rest t ht hr _ _ hinv
      exact ensures_iff.mpr
        ⟨fun t' ht' => hinv.failWaiting (ht.waiting_state r hr) ht', fun _ _ => trivial⟩
    · intro r rest t ht hr _ hinv
      exact ensures_iff.mpr
        ⟨fun t' ht' => hinv.failDecoding (ht.decoding_state r hr) ht', fun _ _ => trivial⟩
  · rintro a ⟨ha, howned⟩
    refine (prefillPhase_ensures ha (fun _ _ t => t.1.HandlesOwned) ?_ ?_).imp
      (fun _ h => ⟨h.1, h.2.2⟩)
    · exact ensures_iff.mpr ⟨fun _ _ => howned, fun _ _ => trivial⟩
    · intro r rest outcome outcomes t report ht hwaiting hinv
      have hr : r ∈ t.waiting := by rw [hwaiting]; exact List.mem_cons_self
      refine ensures_iff.mpr ⟨fun done hdone => ?_, fun _ _ => trivial⟩
      rcases prefillOutcome_cases (ht.waiting_state r hr) hdone with
        ⟨hfail, -⟩ | ⟨handle, t₁, t₂, t₃, w, heq, -⟩
      · exact hinv.failWaiting (ht.waiting_state r hr) hfail
      · rw [heq]
        refine HandlesOwned.promoted hinv ?_ handle w
        rfl
  · rintro - b ⟨hb, howned⟩
    refine (decodePhase_ensures hb (fun _ _ t => t.1.HandlesOwned) ?_ ?_).imp (fun _ h => h.2.2)
    · refine ensures_iff.mpr ⟨fun batch _ => ?_, fun _ _ => trivial⟩
      exact ensures_iff.mpr ⟨fun _ _ => howned, fun _ _ => trivial⟩
    · intro r rest outcome outcomes t report ht hr _ _ _ hinv
      have hstate := ht.decoding_state r hr
      refine ensures_iff.mpr ⟨fun done hdone => ?_, fun _ _ => trivial⟩
      rcases decodeOutcome_cases hstate hdone with
        ⟨hfail, -⟩ | ⟨token, -, ⟨-, ⟨stop, w, heq⟩, -⟩ | ⟨-, heq, -⟩⟩
      · exact hinv.failDecoding hstate hfail
      · rw [heq]
        refine owner_retired hinv ?_
        exact (requestId_tokenEmitted t r token.tokenId r)
      · rw [heq]
        refine HandlesOwned.store hinv ?_ _
        rfl

theorem HandlesOwned.apply [Environment ω] (hs : s.HandlesOwned) (hp : s.Partition)
    (op : SchedulerOp ω) : Ensures (s.apply op) (fun _ => True) HandlesOwned := by
  cases op with
  | submit id deadlineFromNow maxOutputTokens promptTokenIds priority =>
      rw [apply_submit]
      exact HandlesOwned.admitted hs (hp.world _) _ _
  | cancel id =>
      refine ensures_iff.mpr ⟨fun t ht => ?_, fun _ _ => trivial⟩
      obtain ⟨u, hu, ht⟩ := bind_eq_ok.mp ht
      have hfirst := (cancelFirst_cancelled hp (fun _ hr => .inl hr) hu).1.partition
      exact (hs.cancelFirst hp (fun _ hr => .inl hr) hu).cancelFirst hfirst (fun _ hr => .inr hr) ht
  | tick => exact (hs.tick hp).bind (fun _ h => h)
  | event e =>
      refine ensures_iff.mpr ⟨fun t ht => ?_, fun _ _ => trivial⟩
      obtain ⟨w, -, hw⟩ := bind_eq_ok.mp ht
      cases hw
      exact hs

end Owned

/-! ### One cancel in closed form -/

section Closed

variable {dead : Nat → Prop} {s : FifoScheduler MockBackend} {r p : RequestPtr}

/-- The state after `r` was cancelled. -/
def cancelled (s : FifoScheduler MockBackend) (r : RequestPtr) : FifoScheduler MockBackend :=
  s.retired r ((s.request r).enter .cancelled s.clockNow) (s.releasedMock (s.requestId r))

/-- What a cancel relies on. -/
structure Cancellable (dead : Nat → Prop) (s : FifoScheduler MockBackend) : Prop where
  partition : s.Partition
  handles : HandlesLive dead s
  owned : s.HandlesOwned
  distinct : s.DistinctTracked

theorem requestId_cancelled (s : FifoScheduler MockBackend) (r p : RequestPtr) :
    (s.cancelled r).requestId p = s.requestId p :=
  requestId_retired s _ (by rfl) p

theorem Cancellable.live_cancelled (hs : Cancellable dead s) :
    (s.cancelled r).Live p ↔ s.Live p ∧ p ≠ r := by
  unfold Live
  change p ∈ s.waiting.erase r ∨ p ∈ s.decoding.erase r ↔ _
  rw [hs.partition.waiting_nodup.mem_erase_iff, hs.partition.decoding_nodup.mem_erase_iff]
  constructor
  · rintro (⟨hne, hmem⟩ | ⟨hne, hmem⟩)
    · exact ⟨.inl hmem, hne⟩
    · exact ⟨.inr hmem, hne⟩
  · rintro ⟨hmem | hmem, hne⟩
    · exact .inl ⟨hne, hmem⟩
    · exact .inr ⟨hne, hmem⟩

theorem Cancellable.cancelled (hs : Cancellable dead s) (r : RequestPtr) :
    Cancellable dead (s.cancelled r) where
  partition := hs.partition.retired rfl _
  handles := hs.handles.release r _
  owned := owner_retired hs.owned rfl
  distinct := hs.distinct.of_live (fun _ hp => (hs.live_cancelled.mp hp).1)
    (fun p => requestId_cancelled s r p)

end Closed

/-! ### Reachable states -/

end FifoScheduler

end Tokamak
