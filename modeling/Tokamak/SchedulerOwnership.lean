import Tokamak.SchedulerHandles

/-! Who owns which backend sequence. As long as no tick mixes requests of one id, the live sequences
of a mock backend are exactly the handles of the decoding requests, one each. A shared id breaks this:
the second handle is dropped by `emplace`, and the first retirement gives the shared slot away. -/

open Outcome

namespace Tokamak.FifoScheduler

/-- Live sequences and decoding requests correspond one to one. -/
def SequencesOwned (s : FifoScheduler MockBackend) : Prop :=
  s.world.sequences.keys.length = s.decodingCount ∧
  (∀ d ∈ s.decoding, ∃ handle, s.handles.find (s.requestId d) = some handle ∧
    handle.id ∈ s.world.sequences ∧
    ∀ e ∈ s.decoding, s.handles.find (s.requestId e) = some handle → e = d) ∧
  (∀ k ∈ s.world.sequences, ∃ d ∈ s.decoding, s.handles.find (s.requestId d) = some ⟨k⟩)

/-- Ownership in the middle of an operation: some decoding requests may be excused from holding a
handle, and some fresh numbers may not be stored yet. `past` names requests and the numbers they held
once: they hold them still, or the number is dead. -/
structure Owns (past : RequestPtr → Nat → Prop) (excused : RequestPtr → Prop) (unclaimed : List Nat)
    (s : FifoScheduler MockBackend) : Prop extends HandlesLive (fun _ => False) s where
  held : ∀ d ∈ s.decoding, ¬excused d → ∃ handle, s.handles.find (s.requestId d) = some handle
  owner : ∀ a handle, s.handles.find a = some handle → ∃ d ∈ s.decoding, s.requestId d = a
  ids : ∀ d ∈ s.decoding, ∀ e ∈ s.decoding, s.requestId d = s.requestId e → d = e
  stored : ∀ k ∈ s.world.sequences, k ∈ unclaimed ∨ ∃ a, s.handles.find a = some ⟨k⟩
  kept : ∀ d k, past d k → (d ∈ s.decoding ∧ s.handles.find (s.requestId d) = some ⟨k⟩) ∨
    (k < s.world.nextSequenceId ∧ k ∉ s.world.sequences)

/-- Nobody is excused and nothing is unclaimed between two operations. -/
abbrev OwnsAll (past : RequestPtr → Nat → Prop) (s : FifoScheduler MockBackend) : Prop :=
  Owns past (fun _ => False) [] s

namespace Owns

variable {past : RequestPtr → Nat → Prop} {excused : RequestPtr → Prop} {unclaimed : List Nat}
  {s : FifoScheduler MockBackend} {r : RequestPtr}

theorem start (b : MockBackend) (hfresh : b.Fresh) (hempty : ∀ k, k ∉ b.sequences) :
    OwnsAll (fun _ _ => False) (new b) where
  toHandlesLive := HandlesLive.start b hfresh
  held d hd := by simp [new] at hd
  owner a handle ha := by simp [new] at ha
  ids d hd := by simp [new] at hd
  stored k hk := absurd hk (hempty k)
  kept d k h := h.elim

theorem excuse {excused' : RequestPtr → Prop} (hs : Owns past excused unclaimed s)
    (h : ∀ d ∈ s.decoding, excused d → excused' d) : Owns past excused' unclaimed s :=
  { hs with held := fun d hd hexcused => hs.held d hd (fun hd' => hexcused (h d hd hd')) }

theorem world (hs : Owns past excused unclaimed s) {w : MockBackend}
    (hw : MockBackend.SameSequences s.world w) :
    Owns past excused unclaimed { s with world := w } where
  toHandlesLive := hs.toHandlesLive.world hw
  held := hs.held
  owner := hs.owner
  ids := hs.ids
  stored k hk := hs.stored k ((hw.mem k).mp hk)
  kept d k h := by
    rw [hw.nextSequenceId, hw.mem]
    exact hs.kept d k h

/-- Retiring `r` takes the handle of its id away, so every other decoding request of that id must be
excused. -/
theorem retired (hs : Owns past excused unclaimed s) (hp : s.Partition) {q : Request}
    (hq : q.id = s.requestId r)
    (hother : ∀ d ∈ s.decoding, d ≠ r → ¬excused d → s.requestId d ≠ s.requestId r) :
    Owns past excused unclaimed (s.retired r q (s.releasedMock (s.requestId r))) where
  toHandlesLive := hs.toHandlesLive.release r q
  held d hd hexcused := by
    obtain ⟨hne, hd⟩ := hp.decoding_nodup.mem_erase_iff.mp hd
    obtain ⟨handle, hfind⟩ := hs.held d hd hexcused
    refine ⟨handle, ?_⟩
    rw [requestId_retired s _ hq d]
    simp only [FifoScheduler.retired, FinMap.find_erase]
    rw [if_neg (hother d hd hne hexcused)]
    exact hfind
  owner := owner_retired hs.owner hq
  ids d hd e he hid := by
    rw [requestId_retired s _ hq d, requestId_retired s _ hq e] at hid
    exact hs.ids d (List.mem_of_mem_erase hd) e (List.mem_of_mem_erase he) hid
  stored k hk := by
    obtain ⟨hmem, hkept⟩ := (mem_releasedMock s _ k).mp hk
    rcases hs.stored k hmem with hk | ⟨a, ha⟩
    · exact .inl hk
    · have hne : a ≠ s.requestId r := fun h => hkept ⟨k⟩ (h ▸ ha) rfl
      refine .inr ⟨a, ?_⟩
      simp only [FifoScheduler.retired, FinMap.find_erase]
      rw [if_neg hne]
      exact ha
  kept d k h := by
    rw [requestId_retired s _ hq d]
    rcases hs.kept d k h with ⟨hd, hfind⟩ | ⟨hlt, hdead⟩
    · by_cases hid : s.requestId d = s.requestId r
      · refine .inr ⟨?_, ?_⟩
        · rw [FifoScheduler.retired, releasedMock_nextSequenceId]
          exact hs.fresh k (hs.live _ ⟨k⟩ hfind)
        · intro hk
          exact ((mem_releasedMock s _ k).mp hk).2 ⟨k⟩ (hid ▸ hfind) rfl
      · have hdr : d ≠ r := fun heq => hid (by rw [heq])
        refine .inl ⟨(List.mem_erase_of_ne hdr).mpr hd, ?_⟩
        simp only [FifoScheduler.retired, FinMap.find_erase]
        rw [if_neg hid]
        exact hfind
    · refine .inr ⟨?_, fun hk => hdead ((mem_releasedMock s _ k).mp hk).1⟩
      rw [FifoScheduler.retired, releasedMock_nextSequenceId]
      exact hlt

/-- A decoding request takes its own handle with it. -/
theorem retired_decoding (hs : Owns past excused unclaimed s) (hp : s.Partition) (hr : r ∈ s.decoding)
    {q : Request} (hq : q.id = s.requestId r) :
    Owns past excused unclaimed (s.retired r q (s.releasedMock (s.requestId r))) :=
  hs.retired hp hq (fun d hd hne _ hid => hne (hs.ids d hd r hr hid))

/-- A fresh handle is stored under an id no decoding request has. -/
theorem promoted (hs : Owns past (fun _ => False) unclaimed s) {handle : SequenceHandle}
    {rest : List Nat} (hunclaimed : unclaimed = handle.id :: rest) {q : Request}
    (hq : q.id = s.requestId r) (hid : s.requestId r ∉ s.handles)
    (hlive : handle.id ∈ s.world.sequences)
    (hnew : ∀ a other, s.handles.find a = some other → other.id ≠ handle.id) :
    Owns past (fun _ => False) rest (s.promoted r handle q s.world) := by
  have hids : ∀ d, (s.promoted r handle q s.world).requestId d = s.requestId d :=
    requestId_promoted s s.world handle hq
  have hfind : ∀ a, (s.promoted r handle q s.world).handles.find a =
      if a = s.requestId r then some handle else s.handles.find a :=
    find_handles_promoted hid
  have hdistinct : ∀ d ∈ s.decoding, s.requestId d ≠ s.requestId r := by
    intro d hd heq
    obtain ⟨other, hother⟩ := hs.held d hd (fun h => h)
    exact hid (FinMap.mem_of_find (heq ▸ hother))
  refine ⟨hs.toHandlesLive.promoted r handle q hlive hnew, ?_, ?_, ?_, ?_, ?_⟩
  · intro d hd _
    rw [hids, hfind]
    rcases List.mem_append.mp hd with hd | hd
    · rw [if_neg (hdistinct d hd)]
      exact hs.held d hd (fun h => h)
    · rw [List.mem_singleton.mp hd, if_pos rfl]
      exact ⟨handle, rfl⟩
  · exact owner_promoted hs.owner hq hid
  · intro d hd e he hde
    rw [hids, hids] at hde
    rcases List.mem_append.mp hd with hd | hd <;> rcases List.mem_append.mp he with he | he
    · exact hs.ids d hd e he hde
    · rw [List.mem_singleton.mp he] at hde
      exact absurd hde (hdistinct d hd)
    · rw [List.mem_singleton.mp hd] at hde
      exact absurd hde.symm (hdistinct e he)
    · rw [List.mem_singleton.mp hd, List.mem_singleton.mp he]
  · intro k hk
    rcases hs.stored k hk with hk | ⟨a, ha⟩
    · rw [hunclaimed] at hk
      rcases List.mem_cons.mp hk with rfl | hk
      · exact .inr ⟨s.requestId r, by rw [hfind, if_pos rfl]⟩
      · exact .inl hk
    · have hne : a ≠ s.requestId r := fun h => hid (h ▸ FinMap.mem_of_find ha)
      exact .inr ⟨a, by rw [hfind, if_neg hne]; exact ha⟩
  · intro d k h
    rcases hs.kept d k h with ⟨hd, hheld⟩ | hdead
    · refine .inl ⟨List.mem_append_left _ hd, ?_⟩
      rw [hids, hfind, if_neg (hdistinct d hd)]
      exact hheld
    · exact .inr hdead

/-- The one-to-one correspondence, read off the invariant. -/
theorem sequencesOwned (hs : OwnsAll past s) (hp : s.Partition) : SequencesOwned s := by
  have hheld : ∀ d ∈ s.decoding, ∃ handle, s.handles.find (s.requestId d) = some handle :=
    fun d hd => hs.held d hd (fun h => h)
  have hstored : ∀ k ∈ s.world.sequences, ∃ d ∈ s.decoding,
      s.handles.find (s.requestId d) = some ⟨k⟩ := by
    intro k hk
    rcases hs.stored k hk with hk | ⟨a, ha⟩
    · cases hk
    · obtain ⟨d, hd, hid⟩ := hs.owner a _ ha
      exact ⟨d, hd, hid ▸ ha⟩
  refine ⟨?_, ?_, hstored⟩
  · -- the handle numbers of the decoding requests are a permutation of the live numbers
    let number : RequestPtr → Option Nat := fun d => (s.handles.find (s.requestId d)).map (·.id)
    have hnodup : (s.decoding.map number).Nodup := by
      refine hp.decoding_nodup.map_on ?_
      intro d hd e he heq
      obtain ⟨handle, hfind⟩ := hheld d hd
      obtain ⟨other, hother⟩ := hheld e he
      simp only [number, hfind, hother, Option.map_some, Option.some.injEq] at heq
      have hsame : handle = other := by
        cases handle; cases other
        simpa using heq
      subst hsame
      exact hs.ids d hd e he (hs.injective _ _ handle hfind hother)
    have hperm : (s.world.sequences.keys.map some).Perm (s.decoding.map number) := by
      refine (List.perm_ext_iff_of_nodup
        (s.world.sequences.keys_nodup.map (Option.some_injective _)) hnodup).mpr ?_
      intro k
      constructor
      · intro hk
        obtain ⟨j, hj, rfl⟩ := List.mem_map.mp hk
        obtain ⟨d, hd, hfind⟩ := hstored j (AList.mem_keys.mpr hj)
        exact List.mem_map.mpr ⟨d, hd, by simp [number, hfind]⟩
      · intro hk
        obtain ⟨d, hd, rfl⟩ := List.mem_map.mp hk
        obtain ⟨handle, hfind⟩ := hheld d hd
        simp only [number, hfind, Option.map_some]
        exact List.mem_map.mpr ⟨handle.id, AList.mem_keys.mp (hs.live _ handle hfind), rfl⟩
    have hlength := hperm.length_eq
    rwa [List.length_map, List.length_map] at hlength
  · intro d hd
    obtain ⟨handle, hfind⟩ := hheld d hd
    refine ⟨handle, hfind, hs.live _ handle hfind, ?_⟩
    intro e he hother
    exact hs.ids e he d hd (hs.injective _ _ handle hother hfind)

end Owns

/-! ### Expiry -/

/-- The scheduler in the middle of its expiry loops: `W` and `D` are still to be retired, everything
else that was expired is gone from the queues. -/
structure Expiring (s : FifoScheduler MockBackend) (W D : List RequestPtr)
    (t : FifoScheduler MockBackend) : Prop where
  waiting : t.waiting = s.waiting.filter (fun r => !s.isExpired r || decide (r ∈ W))
  decoding : t.decoding = s.decoding.filter (fun r => !s.isExpired r || decide (r ∈ D))
  requestId : ∀ p, t.requestId p = s.requestId p
  pendingPrefillErrors : t.world.pendingPrefillErrors = s.world.pendingPrefillErrors

namespace Expiring

variable {s t : FifoScheduler MockBackend} {W D : List RequestPtr} {r : RequestPtr} {q : Request}

/-- Erasing the pointer at the head of the list of those still to be retired. -/
theorem erase_filter {queue rest : List RequestPtr} (hnodup : queue.Nodup)
    (hexpired : s.isExpired r = true) (hr : r ∉ rest) :
    (queue.filter (fun p => !s.isExpired p || decide (p ∈ r :: rest))).erase r =
      queue.filter (fun p => !s.isExpired p || decide (p ∈ rest)) := by
  rw [(hnodup.filter _).erase_eq_filter, List.filter_filter]
  refine List.filter_congr (fun p _ => ?_)
  by_cases hp : p = r
  · subst hp
    simp [hexpired, hr]
  · simp [hp]

theorem start (s : FifoScheduler MockBackend) :
    Expiring s (s.waiting.filter s.isExpired) (s.decoding.filter s.isExpired) s where
  waiting := by
    refine (List.filter_eq_self.mpr (fun p hp => ?_)).symm
    cases hexpired : s.isExpired p <;> simp [hp, hexpired]
  decoding := by
    refine (List.filter_eq_self.mpr (fun p hp => ?_)).symm
    cases hexpired : s.isExpired p <;> simp [hp, hexpired]
  requestId _ := rfl
  pendingPrefillErrors := rfl

theorem retired_waiting (h : Expiring s (r :: W) D t) (hs : s.Partition) (ht : t.Partition)
    (hexpired : s.isExpired r = true) (hr : r ∈ t.waiting) (hrest : r ∉ W)
    (hq : q.id = t.requestId r) :
    Expiring s W D (t.retired r q (t.releasedMock (t.requestId r))) where
  waiting := by
    change t.waiting.erase r = _
    rw [h.waiting, erase_filter hs.waiting_nodup hexpired hrest]
  decoding := by
    change t.decoding.erase r = _
    rw [erase_of_waiting ht hr, h.decoding]
  requestId p := by rw [requestId_retired t _ hq p, h.requestId]
  pendingPrefillErrors := by
    rw [← h.pendingPrefillErrors]
    exact releasedMock_pendingPrefillErrors t _

theorem retired_decoding (h : Expiring s W (r :: D) t) (hs : s.Partition) (ht : t.Partition)
    (hexpired : s.isExpired r = true) (hr : r ∈ t.decoding) (hrest : r ∉ D)
    (hq : q.id = t.requestId r) :
    Expiring s W D (t.retired r q (t.releasedMock (t.requestId r))) where
  waiting := by
    change t.waiting.erase r = _
    rw [erase_of_decoding ht hr, h.waiting]
  decoding := by
    change t.decoding.erase r = _
    rw [h.decoding, erase_filter hs.decoding_nodup hexpired hrest]
  requestId p := by rw [requestId_retired t _ hq p, h.requestId]
  pendingPrefillErrors := by
    rw [← h.pendingPrefillErrors]
    exact releasedMock_pendingPrefillErrors t _

end Expiring

/-! ### What a tick needs -/

/-- The waiting requests a tick of this scheduler will promote: those whose deadline has not passed,
less one for each queued prefill error. -/
def upcoming (s : FifoScheduler MockBackend) : List RequestPtr :=
  (s.waiting.filter (fun r => !s.isExpired r)).drop s.world.pendingPrefillErrors.length

/-- No waiting request shares its id with a decoding request that outlives the expiry, and the
requests about to be promoted have distinct ids. -/
def TickSafe (s : FifoScheduler MockBackend) : Prop :=
  (∀ r ∈ s.waiting, ∀ d ∈ s.decoding, s.isExpired d = false → s.requestId r ≠ s.requestId d) ∧
  (s.upcoming.map s.requestId).Nodup

instance (s : FifoScheduler MockBackend) : Decidable s.TickSafe :=
  inferInstanceAs (Decidable (_ ∧ _))

/-- `TickSafe` after the expiry. -/
def PrefillSafe (s : FifoScheduler MockBackend) : Prop :=
  (∀ r ∈ s.waiting, ∀ d ∈ s.decoding, s.requestId r ≠ s.requestId d) ∧
  ((s.waiting.drop s.world.pendingPrefillErrors.length).map s.requestId).Nodup

theorem Expiring.prefillSafe {s t : FifoScheduler MockBackend} (h : Expiring s [] [] t)
    (hsafe : s.TickSafe) : t.PrefillSafe := by
  have hwaiting : t.waiting = s.waiting.filter (fun r => !s.isExpired r) := by
    simpa using h.waiting
  have hdecoding : t.decoding = s.decoding.filter (fun r => !s.isExpired r) := by
    simpa using h.decoding
  refine ⟨?_, ?_⟩
  · intro r hr d hd
    rw [hwaiting] at hr
    rw [hdecoding] at hd
    obtain ⟨hd, hlasting⟩ := List.mem_filter.mp hd
    rw [h.requestId, h.requestId]
    exact hsafe.1 r (List.mem_of_mem_filter hr) d hd (by simpa using hlasting)
  · rw [hwaiting, h.pendingPrefillErrors, funext h.requestId]
    exact hsafe.2

section Operations

variable {past : RequestPtr → Nat → Prop} {s : FifoScheduler MockBackend}

theorem expireDeadlines_owns (hp : s.Partition) (hs : OwnsAll past s) (hsafe : s.TickSafe) :
    Ensures s.expireDeadlines (· ≠ .outOfRange)
      (fun done => done.1.Partition ∧ OwnsAll past done.1 ∧ done.1.PrefillSafe) := by
  refine (expireDeadlines_ensures hp (fun W D t =>
    (∀ r ∈ W, s.isExpired r = true) ∧ (∀ r ∈ D, s.isExpired r = true) ∧ Expiring s W D t ∧
      Owns past (fun d => s.isExpired d = true) [] t) ?_ ?_ ?_).imp ?_
  · rw [expiredWaiting_mock, expiredDecoding_mock]
    exact ⟨fun r hr => List.of_mem_filter hr, fun r hr => List.of_mem_filter hr,
      Expiring.start s, hs.excuse (fun _ _ h => h.elim)⟩
  · rintro r rest t ht hr hrest hdecoding ⟨hW, hD, hexp, howns⟩
    have hexpired := hW r List.mem_cons_self
    have hmem : r ∈ s.waiting := by
      rw [hexp.waiting] at hr
      exact List.mem_of_mem_filter hr
    rw [failWaiting_mock (ht.waiting_state r hr) (howns.live _)]
    refine ⟨fun p hp => hW p (List.mem_cons_of_mem r hp), hD,
      hexp.retired_waiting hp ht hexpired hr hrest rfl, howns.retired ht rfl ?_⟩
    intro d hd _ hlasting hid
    rw [hexp.requestId, hexp.requestId] at hid
    rw [hdecoding] at hd
    exact hsafe.1 r hmem d hd (by simpa using hlasting) hid.symm
  · rintro r rest t ht hr hrest ⟨hW, hD, hexp, howns⟩
    have hexpired := hD r List.mem_cons_self
    rw [failDecoding_mock (ht.decoding_state r hr) (howns.live _)]
    exact ⟨hW, fun p hp => hD p (List.mem_cons_of_mem r hp),
      hexp.retired_decoding hp ht hexpired hr hrest rfl, howns.retired_decoding ht hr rfl⟩
  · rintro ⟨t, report⟩ ⟨ht, -, -, hexp, howns⟩
    refine ⟨ht, howns.excuse ?_, hexp.prefillSafe hsafe⟩
    intro d hd hexpired
    change d ∈ t.decoding at hd
    rw [hexp.decoding] at hd
    have hlasting := List.of_mem_filter hd
    simp [hexpired] at hlasting

/-- The outcomes still to be read are errors first and handles after, and the requests that will get
a handle have distinct ids. -/
def ErrorsFirst (idOf : RequestPtr → RequestId) (rest : List RequestPtr)
    (outcomes : List (Except BackendError PrefillOutcome)) : Prop :=
  ∃ (errors : List BackendError) (numbers : List Nat),
    outcomes = errors.map .error ++ numbers.map (fun k => .ok ⟨⟨k⟩⟩) ∧
      ((rest.drop errors.length).map idOf).Nodup

theorem ErrorsFirst.error {idOf : RequestPtr → RequestId} {r : RequestPtr} {rest : List RequestPtr}
    {e : BackendError} {outcomes : List (Except BackendError PrefillOutcome)}
    (h : ErrorsFirst idOf (r :: rest) (.error e :: outcomes)) : ErrorsFirst idOf rest outcomes := by
  obtain ⟨errors, numbers, heq, hnodup⟩ := h
  cases errors with
  | nil => cases numbers <;> simp at heq
  | cons e' errors =>
      simp only [List.map_cons, List.cons_append, List.cons.injEq] at heq
      exact ⟨errors, numbers, heq.2, hnodup⟩

theorem ErrorsFirst.ok {idOf : RequestPtr → RequestId} {r : RequestPtr} {rest : List RequestPtr}
    {out : PrefillOutcome} {outcomes : List (Except BackendError PrefillOutcome)}
    (h : ErrorsFirst idOf (r :: rest) (.ok out :: outcomes)) :
    ErrorsFirst idOf rest outcomes ∧ ∀ p ∈ rest, idOf p ≠ idOf r := by
  obtain ⟨errors, numbers, heq, hnodup⟩ := h
  cases errors with
  | cons e errors => simp at heq
  | nil =>
      cases numbers with
      | nil => simp at heq
      | cons k numbers =>
          simp only [List.map_nil, List.nil_append, List.map_cons, List.cons.injEq] at heq
          simp only [List.length_nil, List.drop_zero, List.map_cons, List.nodup_cons] at hnodup
          refine ⟨⟨[], numbers, heq.2, hnodup.2⟩, ?_⟩
          intro p hp hid
          exact hnodup.1 (List.mem_map.mpr ⟨p, hp, hid⟩)

theorem PrefillSafe.errorsFirst (hsafe : s.PrefillSafe) {b : MockBackend}
    {outcomes : List (Except BackendError PrefillOutcome)}
    (h : MockBackend.Prefilled s.world (s.prefillBatch s.waiting).sequences b outcomes) :
    ErrorsFirst s.requestId s.waiting outcomes := by
  refine ⟨_, _, h.outcomes_eq, ?_⟩
  rw [List.length_take]
  rcases Nat.le_total s.world.pendingPrefillErrors.length s.waiting.length with hle | hle
  · rw [Nat.min_eq_right (by simpa [prefillBatch] using hle)]
    exact hsafe.2
  · rw [Nat.min_eq_left (by simpa [prefillBatch] using hle)]
    simp [prefillBatch]

theorem prefillPhase_owns (hp : s.Partition) (hs : OwnsAll past s) (hsafe : s.PrefillSafe) :
    Ensures s.prefillPhase (· ≠ .outOfRange)
      (fun done => done.1.Partition ∧ OwnsAll past done.1) := by
  refine (prefillPhase_ensures hp (fun rest outcomes t =>
    Owns past (fun _ => False) (MockBackend.mintedIds outcomes) t.1 ∧ Unclaimed outcomes t.1 ∧
      (∀ p, t.1.requestId p = s.requestId p) ∧ ErrorsFirst s.requestId rest outcomes ∧
      ∀ r ∈ rest, s.requestId r ∉ t.1.handles) ?_ ?_).imp (fun _ h => ⟨h.1, h.2.2.1⟩)
  · refine (MockBackend.prefill_ensures hs.fresh _).mono (fun p hp => by simp)
      (fun answer hanswer => ?_)
    refine ⟨⟨hs.toHandlesLive.prefilled hanswer, hs.held, hs.owner, hs.ids, ?_, ?_⟩,
      hs.toHandlesLive.unclaimed hanswer, fun _ => rfl, hsafe.errorsFirst hanswer, ?_⟩
    · intro k hk
      rcases (hanswer.mem_sequences k).mp hk with hold | hminted
      · rcases hs.stored k hold with h | h
        · cases h
        · exact .inr h
      · exact .inl hminted
    · intro d k h
      refine (hs.kept d k h).imp (fun hheld => hheld) (fun hdead => ?_)
      have hnext := hanswer.nextSequenceId
      refine ⟨lt_of_lt_of_le hdead.1 (hnext ▸ Nat.le_add_right _ _), fun hk => ?_⟩
      rcases (hanswer.mem_sequences k).mp hk with hold | hminted
      · exact hdead.2 hold
      · exact absurd hdead.1 (not_lt.mpr ((hanswer.mem_mintedIds k).mp hminted).1)
    · intro r hr hmem
      obtain ⟨handle, hfind⟩ := FinMap.exists_find_of_mem hmem
      obtain ⟨d, hd, hid⟩ := hs.owner _ handle hfind
      exact hsafe.1 r hr d hd hid.symm
  · rintro r rest outcome outcomes t report ht hwaiting ⟨howns, hunclaimed, hids, hfirst, hfree⟩
    have hr : r ∈ t.waiting := by rw [hwaiting]; exact List.mem_cons_self
    have hrfree : t.requestId r ∉ t.handles := by
      rw [hids]
      exact hfree r List.mem_cons_self
    unfold prefillOutcome
    cases outcome with
    | error e =>
        simp only
        rw [failWaiting_mock (ht.waiting_state r hr) (howns.live _)]
        refine ⟨howns.retired ht rfl ?_, hunclaimed.retired r _, ?_, hfirst.error, ?_⟩
        · intro d hd _ _ hid
          obtain ⟨handle, hfind⟩ := howns.held d hd (fun h => h)
          exact hrfree (hid ▸ FinMap.mem_of_find hfind)
        · intro p
          rw [requestId_retired t _ (by rfl) p, hids]
        · intro p hp hmem
          exact hfree p (List.mem_cons_of_mem r hp) (AList.mem_erase.mp hmem).2
    | ok out =>
        obtain ⟨hmem, hnew⟩ := hunclaimed.2 out.handle.id List.mem_cons_self
        obtain ⟨hfirst, hdistinct⟩ := hfirst.ok
        simp only
        rw [promote_mock out.handle (ht.waiting_state r hr)]
        refine ⟨howns.promoted rfl rfl hrfree hmem hnew, hunclaimed.promoted r _, ?_, hfirst, ?_⟩
        · intro p
          rw [requestId_promoted t _ _ (by rfl) p, hids]
        · intro p hp hbound
          rw [show (t.promoted r out.handle _ t.world).handles = t.handles.insert (t.requestId r)
            out.handle from FinMap.emplace_of_notMem hrfree out.handle] at hbound
          rcases (AList.mem_insert _).mp hbound with heq | hbound
          · exact hdistinct p hp (heq.trans (hids r))
          · exact hfree p (List.mem_cons_of_mem r hp) hbound

/-- Every decoding request finds its handle. -/
theorem decodeBatch_owns (hs : OwnsAll past s) :
    Ensures (s.decoding.mapM s.decodeRequest) (· ≠ .outOfRange)
      (fun batch => ∀ d ∈ batch, d.handle.id ∈ s.world.sequences) := by
  refine (Ensures.mapM (fun _ d => d.handle.id ∈ s.world.sequences) s.decoding ?_).imp ?_
  · intro r hr
    obtain ⟨handle, hfind⟩ := hs.held r hr (fun h => h)
    unfold decodeRequest
    rw [hfind]
    exact hs.live _ handle hfind
  · intro batch hbatch d hd
    obtain ⟨r, -, h⟩ := exists_of_forall₂ hbatch hd
    exact h

/-- A token changes neither the ids nor the handles. -/
theorem Owns.tokenEmitted (hs : OwnsAll past s) (r : RequestPtr) (tokenId : UInt32) :
    OwnsAll past (s.tokenEmitted r tokenId) := by
  have hids := requestId_tokenEmitted s r tokenId
  refine ⟨hs.toHandlesLive.of_eq (tokenEmitted_world s r tokenId) rfl, ?_, ?_, ?_, ?_, ?_⟩
  · intro d hd hexcused
    rw [hids]
    exact hs.held d hd hexcused
  · intro a handle ha
    obtain ⟨d, hd, hid⟩ := hs.owner a handle ha
    exact ⟨d, hd, (hids d).trans hid⟩
  · intro d hd e he hid
    rw [hids, hids] at hid
    exact hs.ids d hd e he hid
  · rw [tokenEmitted_world]
    exact hs.stored
  · intro d k h
    rw [hids, tokenEmitted_world]
    exact hs.kept d k h

theorem decodePhase_owns (hp : s.Partition) (hs : OwnsAll past s) :
    Ensures s.decodePhase (· ≠ .outOfRange) (fun done => done.1.Partition ∧ OwnsAll past done.1) := by
  refine (decodePhase_ensures hp (fun _ _ t => OwnsAll past t.1) ?_ ?_).imp (fun _ h => ⟨h.1, h.2.2⟩)
  · refine (decodeBatch_owns hs).imp (fun batch hbatch => ?_)
    refine (MockBackend.decode_ensures hbatch).mono (fun p _ => by simp) ?_
    rintro answer ⟨-, hdecoded⟩
    exact Owns.world hs ⟨hdecoded.mem, hdecoded.nextSequenceId⟩
  · rintro r rest outcome outcomes t report ht hr - - - hinv
    have hlive := hinv.live (t.requestId r)
    cases outcome with
    | error e =>
        unfold decodeOutcome
        simp only
        rw [failDecoding_mock (ht.decoding_state r hr) hlive]
        exact hinv.retired_decoding ht hr rfl
    | ok token =>
        rw [decodeOutcome_mock (ht.decoding_state r hr) hlive]
        split_ifs
        · simp
        · refine hinv.retired_decoding ht hr ?_
          rw [Request.id_enter]
          exact requestId_tokenEmitted t r token.tokenId r
        · exact Owns.tokenEmitted hinv r token.tokenId

/-- The waiting request of the cancelled id may take the handle of a decoding one with it, but then
the decoding one is cancelled too. -/
theorem cancel_owns (hp : s.Partition) (hs : OwnsAll past s) (id : RequestId) :
    Ensures (s.cancel id) (· ≠ .outOfRange) (fun t => t.Partition ∧ OwnsAll past t) := by
  have hwaiting : Ensures (s.cancelFirst s.waiting id) (· ≠ .outOfRange)
      (fun t => t.Partition ∧ Owns past (fun d => t.requestId d = id) [] t) := by
    unfold cancelFirst
    cases hfind : s.waiting.find? (fun r => s.requestId r = id) with
    | none => exact ⟨hp, hs.excuse (fun _ _ h => h.elim)⟩
    | some r =>
        have hr := List.mem_of_find?_eq_some hfind
        have hid : s.requestId r = id := by simpa using List.find?_some hfind
        simp only
        rw [retire_mock (valid_cancelled hp (.inl hr)) (hs.live _)]
        refine ⟨hp.retired rfl _, ?_⟩
        rw [funext (requestId_retired s _ (by rfl))]
        refine (hs.excuse (fun _ _ h => h.elim)).retired hp rfl ?_
        intro d _ _ hother
        rw [hid]
        exact hother
  refine hwaiting.bind ?_
  rintro t ⟨ht, howns⟩
  unfold cancelFirst
  cases hfind : t.decoding.find? (fun r => t.requestId r = id) with
  | none =>
      refine ⟨ht, howns.excuse (fun d hd hid => ?_)⟩
      have hnone := List.find?_eq_none.mp hfind d hd
      simp [hid] at hnone
  | some r =>
      have hr := List.mem_of_find?_eq_some hfind
      have hid : t.requestId r = id := by simpa using List.find?_some hfind
      simp only
      rw [retire_mock (valid_cancelled ht (.inr hr)) (howns.live _)]
      refine ⟨ht.retired rfl _, Owns.excuse (howns.retired_decoding ht hr (by rfl)) ?_⟩
      intro d hd hdid
      obtain ⟨hne, hd⟩ := ht.decoding_nodup.mem_erase_iff.mp hd
      exact hne (howns.ids d hd r hr (hdid.trans hid.symm))

theorem tick_owns (hp : s.Partition) (hs : OwnsAll past s) (hsafe : s.TickSafe) :
    Ensures s.tick (· ≠ .outOfRange) (fun done => done.1.Partition ∧ OwnsAll past done.1) :=
  tick_ensures (fun a => a.1.Partition ∧ OwnsAll past a.1 ∧ a.1.PrefillSafe)
    (fun _ b => b.1.Partition ∧ OwnsAll past b.1)
    (expireDeadlines_owns hp hs hsafe)
    (fun _ ha => prefillPhase_owns ha.1 ha.2.1 ha.2.2)
    (fun _ _ hb => (decodePhase_owns hb.1 hb.2).imp (fun _ h => ⟨h.1.world _, h.2⟩))

/-- Only a tick needs a condition. -/
def OpSafe (s : FifoScheduler MockBackend) : SchedulerOp MockBackend → Prop
  | .tick => s.TickSafe
  | _ => True

instance (s : FifoScheduler MockBackend) : (op : SchedulerOp MockBackend) → Decidable (s.OpSafe op)
  | .submit .. => inferInstanceAs (Decidable True)
  | .cancel _ => inferInstanceAs (Decidable True)
  | .tick => inferInstanceAs (Decidable s.TickSafe)
  | .event _ => inferInstanceAs (Decidable True)

theorem Owns.admitted (hs : OwnsAll past s) (hp : s.Partition) (q : Request) :
    OwnsAll past (s.admitted q s.world) := by
  have hids : ∀ d ∈ s.decoding, (s.admitted q s.world).requestId d = s.requestId d := by
    intro d hd
    unfold requestId
    rw [request_admitted_of_lt s q s.world (hp.decoding_lt d hd)]
  refine ⟨hs.toHandlesLive.of_eq rfl rfl, ?_, ?_, ?_, hs.stored, ?_⟩
  · intro d hd hexcused
    rw [hids d hd]
    exact hs.held d hd hexcused
  · intro a handle ha
    obtain ⟨d, hd, hid⟩ := hs.owner a handle ha
    exact ⟨d, hd, (hids d hd).trans hid⟩
  · intro d hd e he hid
    rw [hids d hd, hids e he] at hid
    exact hs.ids d hd e he hid
  · intro d k h
    refine (hs.kept d k h).imp (fun hheld => ?_) (fun hdead => hdead)
    rw [hids d hheld.1]
    exact hheld

theorem apply_owns (hp : s.Partition) (hs : OwnsAll past s) {op : SchedulerOp MockBackend}
    (hsafe : s.OpSafe op) :
    Ensures (s.apply op) (· ≠ .outOfRange) (fun t => t.Partition ∧ OwnsAll past t) := by
  cases op with
  | submit id deadlineFromNow maxOutputTokens promptTokenIds priority =>
      rw [apply_submit]
      exact ⟨(hp.world _).admitted rfl _, Owns.admitted hs hp _⟩
  | cancel id => exact cancel_owns hp hs id
  | tick => exact (tick_owns hp hs hsafe).bind (fun _ h => h)
  | event e =>
      refine Ensures.bind (ensures_callBackend.mpr ((MockBackend.occur_ensures s.world e).mono ?_
        (fun _ h => h))) (fun w hw => ⟨hp.world w, Owns.world hs hw⟩)
      intro p _
      simp

end Operations

theorem run_owns {past : RequestPtr → Nat → Prop} {s : FifoScheduler MockBackend} (hp : s.Partition) (hs : OwnsAll past s)
    (ops : List (SchedulerOp MockBackend)) (hsafe : Guarded apply OpSafe s ops) :
    Ensures (run apply s ops) (· ≠ .outOfRange) (fun t => t.Partition ∧ OwnsAll past t) :=
  run_ensures_guarded (fun _ _ h hop => apply_owns h.1 h.2 hop) s ⟨hp, hs⟩ ops hsafe

/-- The same state, remembering who holds which handle now. -/
theorem Owns.remember {past : RequestPtr → Nat → Prop} {s : FifoScheduler MockBackend}
    (hs : OwnsAll past s) :
    OwnsAll (fun d k => d ∈ s.decoding ∧ s.handles.find (s.requestId d) = some ⟨k⟩) s :=
  ⟨hs.toHandlesLive, hs.held, hs.owner, hs.ids, hs.stored, fun _ _ h => .inl h⟩

/-- **No sequence is leaked and none is missing.** In every run whose ticks all start from a state in
which no waiting request shares its id with a decoding request that outlives the tick's expiry, and
the requests the tick promotes have distinct ids, the live sequences are the decoding requests' own
handles in every state, the lookup of a decode batch never throws, and a sequence is dead once the
request that held it is terminal. -/
theorem sequences_owned (clock : FakeClock) (prefillCost decodeCost : Duration)
    (ops : List (SchedulerOp MockBackend))
    (hsafe : Guarded apply OpSafe (new (MockBackend.new clock prefillCost decodeCost)) ops) :
    Ensures (run apply (new (MockBackend.new clock prefillCost decodeCost)) ops)
      (· ≠ .outOfRange) (fun s => SequencesOwned s ∧
        ∀ later t d handle, Guarded apply OpSafe s later → run apply s later = .ok t →
          d ∈ s.decoding → s.handles.find (s.requestId d) = some handle →
            (t.state d).isTerminal = true → handle.id ∉ t.world.sequences) := by
  have hstart : OwnsAll (fun _ _ => False) (new (MockBackend.new clock prefillCost decodeCost)) :=
    Owns.start _ (MockBackend.fresh_new clock prefillCost decodeCost)
      (fun k hk => absurd hk (AList.notMem_empty k))
  refine (run_owns (partition_new _) hstart ops hsafe).imp ?_
  intro s hs
  refine ⟨hs.2.sequencesOwned hs.1, ?_⟩
  intro later t d handle hlater hrun hd hheld hterminal
  have hlast := (run_owns hs.1 hs.2.remember later hlater).ok hrun
  rcases hlast.2.kept d handle.id ⟨hd, hheld⟩ with hdecoding | hdead
  · exact absurd (.inr hdecoding.1) (hlast.1.not_live_of_terminal hterminal)
  · exact hdead.2

/-- Three requests with ids of their own: one fails to prefill, one is cancelled, one decodes on. -/
def distinctIds : List (SchedulerOp MockBackend) :=
  [.event (MockBackend.Event.failNextPrefill ⟨.outOfMemory, "no pages"⟩), .submit "a" 1000 2 [7] 0,
    .submit "b" 1000 3 [7, 8] 0, .submit "c" 1000 2 [] 0, .tick, .cancel "c"]

theorem sequences_owned_distinct :
    Guarded apply OpSafe (new (MockBackend.new ⟨0⟩ 1 5)) distinctIds ∧
    ∃ s, run apply (new (MockBackend.new ⟨0⟩ 1 5)) distinctIds = .ok s ∧ s.decodingCount = 1 ∧
      SequencesOwned s := by
  have hsafe : Guarded apply OpSafe (new (MockBackend.new ⟨0⟩ 1 5)) distinctIds := by
    decide +kernel
  obtain ⟨s, hrun, hcount⟩ := exists_of_map_ok (x := run apply (new (MockBackend.new ⟨0⟩ 1 5))
    distinctIds) (f := decodingCount) (b := 1) (by decide +kernel)
  exact ⟨hsafe, s, hrun, hcount, ((sequences_owned ⟨0⟩ 1 5 distinctIds hsafe).ok hrun).1⟩

/-- A shared id leaks: the second handle of `"a"` is dropped, so one sequence outlives both requests.
With larger budgets the first retirement takes the handle the other one decodes with. -/
theorem sequences_leaked :
    ¬Ensures (run apply (new (MockBackend.new ⟨0⟩ 1 5))
        [.submit "a" 1000 2 [] 0, .tick, .submit "a" 1000 1 [] 0, .tick])
      (· ≠ .outOfRange) SequencesOwned ∧
    ¬Ensures (run apply (new (MockBackend.new ⟨0⟩ 1 5))
        [.submit "a" 1000 2 [] 0, .tick, .submit "a" 1000 3 [] 0, .tick, .tick])
      (· ≠ .outOfRange) SequencesOwned := by
  let view : FifoScheduler MockBackend → Nat × Nat :=
    fun s => (s.world.sequences.keys.length, s.decodingCount)
  refine ⟨?_, ?_⟩
  · refine not_ensures_of_map_ok view (b := (1, 0)) (by decide +kernel) ?_
    intro s howned hview
    simp only [view, Prod.mk.injEq] at hview
    have hcount := howned.1
    omega
  · exact not_ensures_of_map_error view (by decide +kernel) (fun h => h rfl)

end Tokamak.FifoScheduler
