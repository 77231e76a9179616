import Tokamak.SchedulerEvolution
import Tokamak.SchedulerHandles

/-! What a request emits depends on nothing but the request. Over a mock backend the tokens of a
sequence are numbered, so a token that went to another request, or a step whose token was lost, would
leave a gap. As long as tracked requests have ids of their own there is none: each decoding request
holds a handle no other request holds, its sequence has made as many steps as the request has emitted
tokens, and a decode batch answers by index. -/

open Outcome

namespace Tokamak.FifoScheduler

/-- The tokens `1, …, n`, as 32-bit numbers. -/
def countUp (n : Nat) : List UInt32 := (List.range n).map fun i => UInt32.ofNat (i + 1)

theorem countUp_succ (n : Nat) : countUp (n + 1) = countUp n ++ [UInt32.ofNat (n + 1)] := by
  rw [countUp, List.range_succ, List.map_append]
  rfl

/-- No two tracked requests share an id. -/
def DistinctTracked {ω : Type} (s : FifoScheduler ω) : Prop :=
  ∀ p r, s.Live p → s.Live r → s.requestId p = s.requestId r → p = r

theorem DistinctTracked.of_live {ω : Type} {s t : FifoScheduler ω} (hs : s.DistinctTracked)
    (hlive : ∀ p, t.Live p → s.Live p) (hids : ∀ p, t.requestId p = s.requestId p) :
    t.DistinctTracked := by
  intro p r hp hr heq
  rw [hids, hids] at heq
  exact hs p r (hlive p hp) (hlive r hr) heq

theorem live_of_retired {ω : Type} {s : FifoScheduler ω} {r p : RequestPtr} {q : Request} {w : ω}
    (h : (s.retired r q w).Live p) : s.Live p :=
  h.imp List.mem_of_mem_erase List.mem_of_mem_erase

theorem live_of_promoted {ω : Type} {s : FifoScheduler ω} {r p : RequestPtr} {q : Request} {w : ω}
    {handle : SequenceHandle} (hr : r ∈ s.waiting) (h : (s.promoted r handle q w).Live p) :
    s.Live p := by
  rcases h with h | h
  · exact .inl (List.mem_of_mem_filter h)
  · rcases List.mem_append.mp h with h | h
    · exact .inr h
    · rw [List.mem_singleton.mp h]
      exact .inl hr

/-- The sequence of `d` has made `n` steps. -/
def Counts (s : FifoScheduler MockBackend) (d : RequestPtr) (n : Nat) : Prop :=
  ∃ handle state, s.handles.find (s.requestId d) = some handle ∧
    s.world.sequences.find handle.id = some state ∧ state.tokensEmitted = UInt32.ofNat n

/-- Each request's tokens are numbered without a gap, and each decoding request's sequence is where
the request is, except for those of `pending`, whose step is made and whose token is still to come. -/
structure Isolated (pending : List RequestPtr) (s : FifoScheduler MockBackend) : Prop extends
    HandlesLive (fun _ => False) s where
  owner : ∀ a handle, s.handles.find a = some handle → ∃ d ∈ s.decoding, s.requestId d = a
  counts : ∀ d ∈ s.decoding, d ∉ pending → s.Counts d (s.request d).outputTokensEmitted
  none : ∀ r ∈ s.waiting, (s.request r).outputTokensEmitted = 0
  tokens : ∀ p < s.requests.size,
    (s.request p).outputTokenIds = countUp (s.request p).outputTokensEmitted

theorem isolated_new (b : MockBackend) (hfresh : b.Fresh) : Isolated [] (new b) where
  toHandlesLive := HandlesLive.start b hfresh
  owner a handle ha := by simp [new] at ha
  counts d hd := by simp [new] at hd
  none r hr := by simp [new] at hr
  tokens p hp := absurd hp (Nat.not_lt_zero p)

section Steps

variable {pending : List RequestPtr} {s : FifoScheduler MockBackend} {r d : RequestPtr} {n : Nat}

/-- Giving another id's handle back does not touch this one's sequence. -/
theorem Counts.retired (h : s.Counts d n) (hs : HandlesLive (fun _ => False) s) {q : Request}
    (hq : q.id = s.requestId r) (hid : s.requestId d ≠ s.requestId r) :
    (s.retired r q (s.releasedMock (s.requestId r))).Counts d n := by
  obtain ⟨handle, state, hhandle, hstate, hcount⟩ := h
  refine ⟨handle, state, ?_, ?_, hcount⟩
  · rw [requestId_retired s _ hq d]
    simp only [FifoScheduler.retired, FinMap.find_erase]
    rw [if_neg hid]
    exact hhandle
  · change (s.releasedMock (s.requestId r)).sequences.find handle.id = some state
    unfold releasedMock
    cases hother : s.handles.find (s.requestId r) with
    | none => exact hstate
    | some other =>
        have hne : handle.id ≠ other.id := by
          intro heq
          have hsame : handle = other := by
            cases handle; cases other
            simpa using heq
          subst hsame
          exact hid (hs.injective _ _ handle hhandle hother)
        simp only [FinMap.find_erase]
        rw [if_neg hne]
        exact hstate

theorem Isolated.retired (hs : Isolated pending s) (hp : s.Partition) (hdistinct : s.DistinctTracked)
    (hr : s.Live r) {q : Request} (hq : q.id = s.requestId r)
    (htokens : q.outputTokenIds = countUp q.outputTokensEmitted) :
    Isolated pending (s.retired r q (s.releasedMock (s.requestId r))) where
  toHandlesLive := hs.toHandlesLive.release r q
  owner := owner_retired hs.owner hq
  counts d hd hpending := by
    obtain ⟨hne, hd⟩ := hp.decoding_nodup.mem_erase_iff.mp hd
    rw [request_retired_of_ne s q _ hne]
    exact (hs.counts d hd hpending).retired hs.toHandlesLive hq
      (fun hid => hne (hdistinct d r (.inr hd) hr hid))
  none p hp' := by
    obtain ⟨hne, hmem⟩ := hp.waiting_nodup.mem_erase_iff.mp hp'
    rw [request_retired_of_ne s q _ hne]
    exact hs.none p hmem
  tokens p hlt := by
    by_cases heq : p = r
    · rw [heq, request_retired_self]
      exact htokens
    · rw [request_retired_of_ne s q _ heq]
      exact hs.tokens p hlt

/-- A request that decodes holds its own handle: no other tracked request has its id. -/
theorem Isolated.notMem_handles (hs : Isolated pending s) (hp : s.Partition)
    (hdistinct : s.DistinctTracked) (hr : r ∈ s.waiting) : s.requestId r ∉ s.handles := by
  intro hmem
  obtain ⟨handle, hfind⟩ := FinMap.exists_find_of_mem hmem
  obtain ⟨d, hd, hid⟩ := hs.owner _ handle hfind
  have heq := hdistinct d r (.inr hd) (.inl hr) hid
  exact hp.notMem_decoding hr (heq ▸ hd)

theorem Isolated.promoted (hs : Isolated [] s) (hp : s.Partition) (hdistinct : s.DistinctTracked)
    (hr : r ∈ s.waiting) {handle : SequenceHandle} {state : SequenceState} {q : Request}
    (hq : (s.request r).SameTerms q) (htokens : (s.request r).SameTokens q)
    (hstate : s.world.sequences.find handle.id = some state) (hzero : state.tokensEmitted = 0)
    (hnew : ∀ a other, s.handles.find a = some other → other.id ≠ handle.id) :
    Isolated [] (s.promoted r handle q s.world) := by
  have hfree := hs.notMem_handles hp hdistinct hr
  have hids : ∀ d, (s.promoted r handle q s.world).requestId d = s.requestId d :=
    requestId_promoted s s.world handle hq.id
  have hfind : ∀ a, (s.promoted r handle q s.world).handles.find a =
      if a = s.requestId r then some handle else s.handles.find a :=
    find_handles_promoted hfree
  refine ⟨hs.toHandlesLive.promoted r handle q (FinMap.mem_of_find hstate) hnew, ?_, ?_, ?_, ?_⟩
  · exact owner_promoted hs.owner hq.id hfree
  · intro d hd _
    rcases List.mem_append.mp hd with hd | hd
    · have hne : d ≠ r := fun heq => hp.notMem_decoding hr (heq ▸ hd)
      obtain ⟨other, state', hother, hstate', hcount⟩ := hs.counts d hd List.not_mem_nil
      have hid : s.requestId d ≠ s.requestId r :=
        fun hid => hfree (hid ▸ FinMap.mem_of_find hother)
      refine ⟨other, state', ?_, hstate', ?_⟩
      · rw [hids, hfind, if_neg hid]
        exact hother
      · rw [request_promoted_of_ne s q s.world handle hne]
        exact hcount
    · rw [List.mem_singleton.mp hd]
      refine ⟨handle, state, ?_, hstate, ?_⟩
      · rw [hids, hfind, if_pos rfl]
      · rw [request_promoted_self, htokens.outputTokensEmitted, hs.none r hr, hzero]
        rfl
  · intro p hmem
    obtain ⟨hmem, hne⟩ := List.mem_filter.mp hmem
    rw [request_promoted_of_ne s q s.world handle (of_decide_eq_true hne)]
    exact hs.none p hmem
  · intro p hlt
    by_cases heq : p = r
    · rw [heq, request_promoted_self, htokens.outputTokenIds, htokens.outputTokensEmitted]
      exact hs.tokens r (hp.waiting_lt r hr)
    · rw [request_promoted_of_ne s q s.world handle heq]
      exact hs.tokens p hlt

/-- The token that was still to come has come. -/
theorem Isolated.tokenEmitted {rest : List RequestPtr} (hs : Isolated (r :: rest) s)
    (hp : s.Partition) (hr : r ∈ s.decoding) {tokenId : UInt32}
    (htoken : tokenId = UInt32.ofNat ((s.request r).outputTokensEmitted + 1))
    (hcount : s.Counts r ((s.request r).outputTokensEmitted + 1)) :
    Isolated rest (s.tokenEmitted r tokenId) := by
  have hids := requestId_tokenEmitted s r tokenId
  have hworld := tokenEmitted_world s r tokenId
  have hself : ((s.tokenEmitted r tokenId).request r).outputTokensEmitted =
      (s.request r).outputTokensEmitted + 1 := by
    unfold FifoScheduler.tokenEmitted
    rw [request_store_self]
    rfl
  have hother : ∀ {p}, p ≠ r → (s.tokenEmitted r tokenId).request p = s.request p :=
    fun hne => request_store_of_ne s _ _ hne
  refine ⟨hs.toHandlesLive.of_eq hworld rfl, ?_, ?_, ?_, ?_⟩
  · intro a handle ha
    obtain ⟨d, hd, hid⟩ := hs.owner a handle ha
    exact ⟨d, hd, (hids d).trans hid⟩
  · intro d hd hpending
    unfold Counts
    rw [hids, hworld]
    by_cases heq : d = r
    · rw [heq, hself]
      exact hcount
    · rw [hother heq]
      refine hs.counts d hd (fun hmem => ?_)
      rcases List.mem_cons.mp hmem with h | h
      · exact heq h
      · exact hpending h
  · intro p hmem
    have hne : p ≠ r := fun heq => hp.notMem_decoding hmem (heq ▸ hr)
    rw [hother hne]
    exact hs.none p hmem
  · intro p hlt
    by_cases heq : p = r
    · rw [heq, hself, countUp_succ, ← hs.tokens r (hp.decoding_lt r hr), ← htoken]
      unfold FifoScheduler.tokenEmitted
      rw [request_store_self]
      rfl
    · rw [hother heq]
      exact hs.tokens p hlt

theorem Isolated.narrow {pending' : List RequestPtr} (hs : Isolated pending s)
    (h : ∀ d ∈ s.decoding, d ∉ pending' → d ∉ pending) : Isolated pending' s :=
  { hs with counts := fun d hd hpending => hs.counts d hd (h d hd hpending) }

end Steps

/-! ### The phases -/

section Phases

variable {s : FifoScheduler MockBackend} {fails : Panic → Prop}

theorem DistinctTracked.retired (h : s.DistinctTracked) {r : RequestPtr} {q : Request}
    (hq : q.id = s.requestId r) (w : MockBackend) : (s.retired r q w).DistinctTracked :=
  h.of_live (fun _ hp => live_of_retired hp) (requestId_retired s w hq)

theorem expireDeadlines_isolated (hp : s.Partition) (hs : Isolated [] s)
    (hdistinct : s.DistinctTracked) :
    Ensures s.expireDeadlines fails (fun done => done.1.Partition ∧ Isolated [] done.1 ∧
      done.1.DistinctTracked) := by
  refine expireDeadlines_ensures hp (fun _ _ t => Isolated [] t ∧ t.DistinctTracked) ?_ ?_ ?_
  · rw [expiredDecoding_mock]
    exact ⟨hs, hdistinct⟩
  · rintro r rest t ht hr - - ⟨hiso, hdist⟩
    rw [failWaiting_mock (ht.waiting_state r hr) (hiso.live _)]
    exact ⟨hiso.retired ht hdist (.inl hr) rfl (hiso.tokens r (ht.waiting_lt r hr)),
      hdist.retired (by rfl) _⟩
  · rintro r rest t ht hr - ⟨hiso, hdist⟩
    rw [failDecoding_mock (ht.decoding_state r hr) (hiso.live _)]
    exact ⟨hiso.retired ht hdist (.inr hr) rfl (hiso.tokens r (ht.decoding_lt r hr)),
      hdist.retired (by rfl) _⟩

/-- A prefill call hands out sequences that have made no step. -/
theorem prefillPhase_isolated (hp : s.Partition) (hs : Isolated [] s) (hdistinct : s.DistinctTracked)
    (hcall : Ensures (InferenceBackend.prefill s.world (s.prefillBatch s.waiting))
      (fun p => fails (.backend p)) (fun answer => MockBackend.Prefilled s.world
        (s.prefillBatch s.waiting).sequences answer.1 answer.2.outcomes)) :
    Ensures s.prefillPhase fails (fun done => done.1.Partition ∧ Isolated [] done.1 ∧
      done.1.DistinctTracked) := by
  refine (prefillPhase_ensures hp (fun _ outcomes t => Isolated [] t.1 ∧ t.1.DistinctTracked ∧
    Unclaimed outcomes t.1 ∧ ∀ k ∈ MockBackend.mintedIds outcomes,
      t.1.world.sequences.find k = some ⟨0, Option.none⟩) ?_ ?_).imp
    (fun _ h => ⟨h.1, h.2.2.1, h.2.2.2.1⟩)
  · refine hcall.imp (fun answer hanswer => ?_)
    have hfind : ∀ k, k ∉ MockBackend.mintedIds answer.2.outcomes →
        answer.1.sequences.find k = s.world.sequences.find k := by
      intro k hk
      rw [hanswer.mem_mintedIds] at hk
      rw [hanswer.find, if_neg hk]
    refine ⟨⟨hs.toHandlesLive.prefilled hanswer, hs.owner, ?_, hs.none, hs.tokens⟩, hdistinct,
      hs.toHandlesLive.unclaimed hanswer, ?_⟩
    · intro d hd hpending
      obtain ⟨handle, state, hhandle, hstate, hcount⟩ := hs.counts d hd hpending
      refine ⟨handle, state, hhandle, ?_, hcount⟩
      rw [← hstate]
      refine hfind _ (fun hminted => ?_)
      have hlt := hs.fresh _ (FinMap.mem_of_find hstate)
      have hle := ((hanswer.mem_mintedIds _).mp hminted).1
      omega
    · intro k hk
      rw [show answer.1.sequences.find k = _ from hanswer.find k,
        if_pos ((hanswer.mem_mintedIds k).mp hk)]
  · rintro r rest outcome outcomes t report ht hwaiting ⟨hiso, hdist, hunclaimed, hunused⟩
    have hr : r ∈ t.waiting := by rw [hwaiting]; exact List.mem_cons_self
    unfold prefillOutcome
    cases outcome with
    | error e =>
        simp only
        rw [failWaiting_mock (ht.waiting_state r hr) (hiso.live _)]
        refine ⟨hiso.retired ht hdist (.inl hr) rfl (hiso.tokens r (ht.waiting_lt r hr)),
          hdist.retired (by rfl) _, hunclaimed.retired r _, ?_⟩
        intro k hk
        obtain ⟨-, hfree⟩ := hunclaimed.2 k hk
        have hsame := hunused k hk
        change (t.releasedMock (t.requestId r)).sequences.find k = _
        unfold releasedMock
        cases hother : t.handles.find (t.requestId r) with
        | none => exact hsame
        | some other =>
            simp only [FinMap.find_erase]
            rw [if_neg (fun heq => hfree _ other hother heq.symm)]
            exact hsame
    | ok out =>
        obtain ⟨hmem, hnew⟩ := hunclaimed.2 out.handle.id List.mem_cons_self
        simp only
        rw [promote_mock out.handle (ht.waiting_state r hr)]
        refine ⟨hiso.promoted ht hdist hr ⟨rfl, rfl, rfl, rfl, rfl⟩ ⟨rfl, rfl⟩
          (hunused _ List.mem_cons_self) rfl hnew, ?_, hunclaimed.promoted r _, ?_⟩
        · exact hdist.of_live (fun _ h => live_of_promoted hr h)
            (requestId_promoted t t.world out.handle rfl)
        · exact fun k hk => hunused k (List.mem_cons_of_mem _ hk)

/-- The outcome still to be read of a request whose sequence has made its step. -/
def Due (s : FifoScheduler MockBackend) (r : RequestPtr) (outcome : Except BackendError DecodedToken) :
    Prop :=
  ∀ token, outcome = .ok token →
    token.tokenId = UInt32.ofNat ((s.request r).outputTokensEmitted + 1) ∧
      s.Counts r ((s.request r).outputTokensEmitted + 1)

/-- Every decoding request finds its handle. -/
theorem decodeBatch_isolated (hs : Isolated [] s) :
    Ensures (s.decoding.mapM s.decodeRequest) fails (List.Forall₂ (fun r d =>
      s.handles.find (s.requestId r) = some d.handle) s.decoding) := by
  refine Ensures.mapM _ s.decoding (fun r hr => ?_)
  obtain ⟨handle, -, hhandle, -⟩ := hs.counts r hr List.not_mem_nil
  unfold decodeRequest
  rw [hhandle]
  rfl

/-- The handles of a decode batch are pairwise distinct. -/
theorem decodeBatch_nodup (hp : s.Partition) (hs : Isolated [] s) (hdistinct : s.DistinctTracked)
    {batch : List DecodeRequest} (hbatch : List.Forall₂ (fun r d =>
      s.handles.find (s.requestId r) = some d.handle) s.decoding batch) :
    (batch.map fun d => d.handle.id).Nodup := by
  refine nodup_map_of_forall₂ hbatch hp.decoding_nodup ?_
  intro r hr r' hr' d d' hd hd' heq
  have hsame : d.handle = d'.handle := by
    cases hhandle : d.handle
    cases hhandle' : d'.handle
    simpa [hhandle, hhandle'] using heq
  rw [← hsame] at hd'
  exact hdistinct r r' (.inr hr) (.inr hr') (hs.injective _ _ _ hd hd')

/-- The answer of a decode call, seen from the requests. -/
theorem decodeAnswer_due (hs : Isolated [] s) {batch : List DecodeRequest}
    (hbatch : List.Forall₂ (fun r d => s.handles.find (s.requestId r) = some d.handle) s.decoding
      batch) {b : MockBackend} {outcomes : List (Except BackendError DecodedToken)}
    (h : MockBackend.Stepped { s.world with
      clock := ⟨s.world.clock.current + s.world.perDecodeCost⟩ } batch b outcomes) :
    List.Forall₂ (Due { s with world := b }) s.decoding outcomes := by
  refine forall₂_imp_of_mem (forall₂_comp hbatch h.answers) ?_
  rintro r hr outcome ⟨d, hd, hanswer⟩ token rfl
  obtain ⟨handle, state, hhandle, hstate, hcount⟩ := hs.counts r hr List.not_mem_nil
  rw [hd] at hhandle
  cases hhandle
  cases hanswer with
  | emitted state' hbefore hafter =>
      have heq : state' = state := Option.some.inj (hbefore.symm.trans hstate)
      subst heq
      have hstep : state'.step.tokensEmitted =
          UInt32.ofNat ((s.request r).outputTokensEmitted + 1) := by
        rw [UInt32.ofNat_add, ← hcount]
        rfl
      exact ⟨hstep, d.handle, state'.step, hd, hafter, hstep⟩

theorem Due.of_same {t : FifoScheduler MockBackend} {r : RequestPtr}
    {outcome : Except BackendError DecodedToken} (h : s.Due r outcome)
    (hrequest : t.request r = s.request r) (hcounts : ∀ n, s.Counts r n → t.Counts r n) :
    t.Due r outcome := by
  intro token htoken
  rw [hrequest]
  exact ⟨(h token htoken).1, hcounts _ (h token htoken).2⟩

/-- In the middle of the decode phase of `s`: the requests whose outcomes are still to be read are as
they were, and each is due what its sequence has counted to. -/
structure Awaiting (s t : FifoScheduler MockBackend) (rest : List RequestPtr)
    (outcomes : List (Except BackendError DecodedToken)) : Prop where
  due : List.Forall₂ (Due t) rest outcomes
  same : ∀ p ∈ rest, p ∈ s.decoding ∧ t.request p = s.request p

namespace Awaiting

variable {t : FifoScheduler MockBackend} {r : RequestPtr} {rest : List RequestPtr}
  {outcome : Except BackendError DecodedToken} {outcomes : List (Except BackendError DecodedToken)}

theorem retired (h : Awaiting s t (r :: rest) (outcome :: outcomes)) (hrest : r ∉ rest)
    (hids : ∀ p ∈ rest, t.requestId p ≠ t.requestId r) (hlive : HandlesLive (fun _ => False) t)
    {q : Request} (hq : q.id = t.requestId r) :
    Awaiting s (t.retired r q (t.releasedMock (t.requestId r))) rest outcomes := by
  have hothers : ∀ p ∈ rest,
      (t.retired r q (t.releasedMock (t.requestId r))).request p = t.request p := fun p hmem =>
    request_retired_of_ne t q _ (fun heq => hrest (heq ▸ hmem))
  refine ⟨?_, fun p hmem => ?_⟩
  · refine forall₂_imp_of_mem (List.forall₂_cons.mp h.due).2 (fun p hmem out hout => ?_)
    exact hout.of_same (hothers p hmem) (fun n hn => hn.retired hlive hq (hids p hmem))
  · obtain ⟨hdecoding, hsame⟩ := h.same p (List.mem_cons_of_mem r hmem)
    exact ⟨hdecoding, (hothers p hmem).trans hsame⟩

theorem tokenEmitted (h : Awaiting s t (r :: rest) (outcome :: outcomes)) (hrest : r ∉ rest)
    (tokenId : UInt32) : Awaiting s (t.tokenEmitted r tokenId) rest outcomes := by
  have hothers : ∀ p ∈ rest, (t.tokenEmitted r tokenId).request p = t.request p := fun p hmem =>
    request_store_of_ne t _ _ (fun heq => hrest (heq ▸ hmem))
  refine ⟨?_, fun p hmem => ?_⟩
  · refine forall₂_imp_of_mem (List.forall₂_cons.mp h.due).2 (fun p hmem out hout => ?_)
    refine hout.of_same (hothers p hmem) (fun n hn => ?_)
    unfold Counts
    rw [requestId_tokenEmitted, tokenEmitted_world]
    exact hn
  · obtain ⟨hdecoding, hsame⟩ := h.same p (List.mem_cons_of_mem r hmem)
    exact ⟨hdecoding, (hothers p hmem).trans hsame⟩

end Awaiting

theorem decodePhase_isolated (hp : s.Partition) (hs : Isolated [] s) (hdistinct : s.DistinctTracked)
    (hcall : ∀ batch : List DecodeRequest, (∀ d ∈ batch, d.handle.id ∈ s.world.sequences) →
      Ensures (InferenceBackend.decode s.world ⟨batch⟩) (fun p => fails (.backend p))
        (fun answer => MockBackend.SameSequences s.world answer.1))
    (hbudget : ∀ r ∈ s.decoding, (s.request r).maxOutputTokens ≤ (s.request r).outputTokensEmitted →
      fails .tokenBudgetExceeded) :
    Ensures s.decodePhase fails (fun done => done.1.Partition ∧ Isolated [] done.1 ∧
      done.1.DistinctTracked) := by
  refine (decodePhase_ensures hp (fun rest outcomes t => Isolated rest t.1 ∧ t.1.DistinctTracked ∧
    Awaiting s t.1 rest outcomes) ?_ ?_).imp (fun _ h => ⟨h.1, h.2.2.1, h.2.2.2.1⟩)
  · refine (decodeBatch_isolated hs).imp (fun batch hbatch => ?_)
    have hlive : ∀ d ∈ batch, d.handle.id ∈ s.world.sequences := by
      intro d hd
      obtain ⟨r, -, hfind⟩ := exists_of_forall₂ hbatch hd
      exact hs.live _ _ hfind
    refine ((hcall batch hlive).and_ok (fun answer hanswer =>
      MockBackend.decode_stepped (decodeBatch_nodup hp hs hdistinct hbatch) hanswer)).imp ?_
    rintro answer ⟨hsame, hstepped⟩
    have hawaiting : Awaiting s { s with world := answer.1 } s.decoding answer.2.outcomes :=
      ⟨decodeAnswer_due hs hbatch hstepped, fun p hp => ⟨hp, rfl⟩⟩
    refine ⟨⟨hs.toHandlesLive.world hsame, hs.owner, ?_, hs.none, hs.tokens⟩, hdistinct, hawaiting⟩
    exact fun d hd hpending => absurd hd hpending
  · rintro r rest outcome outcomes t report ht hr hrest hmem - ⟨hiso, hdist, hawaiting⟩
    have hlive := hiso.live (t.requestId r)
    have hids : ∀ p ∈ rest, t.requestId p ≠ t.requestId r := fun p hp heq =>
      hrest (hdist p r (.inr (hmem p hp)) (.inr hr) heq ▸ hp)
    have hnarrow : ∀ (q : Request) (w : MockBackend), ∀ d ∈ (t.retired r q w).decoding, d ∉ rest →
        d ∉ r :: rest := by
      intro q w d hd hpending hcons
      have hne := (ht.decoding_nodup.mem_erase_iff.mp hd).1
      rcases List.mem_cons.mp hcons with h | h
      · exact hne h
      · exact hpending h
    cases outcome with
    | error e =>
        unfold decodeOutcome
        simp only
        rw [failDecoding_mock (ht.decoding_state r hr) hlive]
        have hid : ((t.request r).enter .failed t.clockNow).id = t.requestId r := rfl
        exact ⟨(hiso.retired ht hdist (.inr hr) hid (hiso.tokens r (ht.decoding_lt r hr))).narrow
          (hnarrow _ _), hdist.retired hid _, hawaiting.retired hrest hids hiso.toHandlesLive hid⟩
    | ok token =>
        obtain ⟨htoken, hcount⟩ := (List.forall₂_cons.mp hawaiting.due).1 token rfl
        obtain ⟨hdecoding, hsame⟩ := hawaiting.same r List.mem_cons_self
        have hemitted := hiso.tokenEmitted ht hr htoken hcount
        rw [decodeOutcome_mock (ht.decoding_state r hr) hlive]
        split_ifs with hover
        · rw [hsame] at hover
          exact hbudget r hdecoding hover
        · have hid : (((t.tokenEmitted r token.tokenId).request r).enter .completed
              t.clockNow).id = t.requestId r := requestId_tokenEmitted t r token.tokenId r
          refine ⟨(hiso.retired ht hdist (.inr hr) hid ?_).narrow (hnarrow _ _),
            hdist.retired hid _, hawaiting.retired hrest hids hiso.toHandlesLive hid⟩
          exact hemitted.tokens r (ht.decoding_lt r hr)
        · exact ⟨hemitted, hdist.of_live (fun _ h => h) (requestId_tokenEmitted t r token.tokenId),
            hawaiting.tokenEmitted hrest token.tokenId⟩

theorem tick_isolated (hp : s.Partition) (hs : Isolated [] s) (hdistinct : s.DistinctTracked) :
    Ensures s.tick (fun _ => True) (fun done => done.1.Partition ∧ Isolated [] done.1) := by
  refine tick_ensures
    (fun a => a.1.Partition ∧ Isolated [] a.1 ∧ a.1.DistinctTracked)
    (fun _ b => b.1.Partition ∧ Isolated [] b.1 ∧ b.1.DistinctTracked)
    (expireDeadlines_isolated hp hs hdistinct) ?_ ?_
  · rintro a ⟨hpart, hiso, hdist⟩
    exact prefillPhase_isolated hpart hiso hdist
      ((MockBackend.prefill_ensures hiso.fresh _).mono (fun _ _ => trivial) (fun _ h => h))
  · rintro _ b ⟨hpart, hiso, hdist⟩
    refine (decodePhase_isolated hpart hiso hdist (fun batch hbatch => ?_)
      (fun _ _ _ => trivial)).imp (fun c hc => ⟨hc.1.world _, hc.2.1⟩)
    exact (MockBackend.decode_ensures hbatch).mono (fun _ _ => trivial)
      (fun _ h => ⟨h.2.mem, h.2.nextSequenceId⟩)

theorem cancelFirst_isolated (hp : s.Partition) (hs : Isolated [] s) (hdistinct : s.DistinctTracked)
    {queue : List RequestPtr} (hqueue : ∀ p ∈ queue, s.Live p) (id : RequestId) :
    Ensures (s.cancelFirst queue id) fails (fun t => t.Partition ∧ Isolated [] t ∧
      t.DistinctTracked) := by
  unfold cancelFirst
  cases hfind : queue.find? (fun r => s.requestId r = id) with
  | none => exact ⟨hp, hs, hdistinct⟩
  | some r =>
      have hlive := hqueue r (List.mem_of_find?_eq_some hfind)
      have hlt := ((hp.live_iff r).mp hlive).1
      simp only
      rw [retire_mock (valid_cancelled hp hlive) (hs.live _)]
      exact ⟨hp.retired rfl _, hs.retired hp hdistinct hlive rfl (hs.tokens r hlt),
        hdistinct.retired (by rfl) _⟩

theorem Isolated.admitted (hs : Isolated [] s) (hp : s.Partition) {q : Request}
    (hnone : q.outputTokensEmitted = 0) (hempty : q.outputTokenIds = []) :
    Isolated [] (s.admitted q s.world) := by
  have hold : ∀ p < s.requests.size, (s.admitted q s.world).request p = s.request p :=
    fun p hlt => request_admitted_of_lt s q s.world hlt
  have hids : ∀ d ∈ s.decoding, (s.admitted q s.world).requestId d = s.requestId d := by
    intro d hd
    rw [requestId, hold d (hp.decoding_lt d hd)]
    rfl
  refine ⟨hs.toHandlesLive.of_eq rfl rfl, ?_, ?_, ?_, ?_⟩
  · intro a handle ha
    obtain ⟨d, hd, hid⟩ := hs.owner a handle ha
    exact ⟨d, hd, (hids d hd).trans hid⟩
  · intro d hd hpending
    unfold Counts
    rw [hids d hd, hold d (hp.decoding_lt d hd)]
    exact hs.counts d hd hpending
  · intro r hr
    rcases List.mem_append.mp hr with hr | hr
    · rw [hold r (hp.waiting_lt r hr)]
      exact hs.none r hr
    · rw [List.mem_singleton.mp hr, request_admitted_self]
      exact hnone
  · intro p hlt
    rcases Nat.lt_succ_iff_lt_or_eq.mp hlt with hlt | heq
    · rw [hold p hlt]
      exact hs.tokens p hlt
    · rw [heq, request_admitted_self, hnone, hempty]
      rfl

theorem Isolated.event (hs : Isolated [] s) {e : MockBackend.Event} {w : MockBackend}
    (h : s.world.occur e = .ok w) : Isolated [] { s with world := w } := by
  have hsame := (MockBackend.occur_ensures s.world e).ok h
  refine ⟨hs.toHandlesLive.world hsame, hs.owner, ?_, hs.none, hs.tokens⟩
  intro d hd hpending
  obtain ⟨handle, state, hhandle, hstate, hcount⟩ := hs.counts d hd hpending
  obtain ⟨state', hstate', hcount'⟩ := MockBackend.occur_counts h hstate
  exact ⟨handle, state', hhandle, hstate', hcount'.trans hcount⟩

end Phases

theorem apply_isolated {s : FifoScheduler MockBackend} (hp : s.Partition) (hs : Isolated [] s)
    (hdistinct : s.DistinctTracked) (op : SchedulerOp MockBackend) :
    Ensures (s.apply op) (fun _ => True) (fun t => t.Partition ∧ Isolated [] t) := by
  cases op with
  | submit id deadlineFromNow maxOutputTokens promptTokenIds priority =>
      rw [apply_submit]
      exact ⟨(hp.world _).admitted rfl _, hs.admitted hp rfl rfl⟩
  | cancel id =>
      refine (cancelFirst_isolated hp hs hdistinct (fun _ hr => .inl hr) id).bind ?_
      rintro t ⟨ht, hiso, hdist⟩
      exact (cancelFirst_isolated ht hiso hdist (fun _ hr => .inr hr) id).imp
        (fun _ h => ⟨h.1, h.2.1⟩)
  | tick => exact (tick_isolated hp hs hdistinct).bind (fun _ h => h)
  | event e =>
      refine ensures_iff.mpr ⟨fun t ht => ?_, fun _ _ => trivial⟩
      obtain ⟨w, hw, ht⟩ := bind_eq_ok.mp ht
      cases ht
      exact ⟨hp.world w, hs.event (callBackend_eq_ok.mp hw)⟩

/-- **Requests are isolated.** In every run whose operations all start with distinct ids among the
tracked requests, with whatever injected errors, end-of-sequence bounds, cancels and expiries, every
request's output is `1, 2, …, k` where `k` is the number of tokens it has emitted, and the sequence of
every decoding request has made exactly as many steps. -/
theorem outputs_isolated (clock : FakeClock) (prefillCost decodeCost : Duration)
    (ops : List (SchedulerOp MockBackend))
    (hdistinct : Guarded apply (fun s _ => s.DistinctTracked)
      (new (MockBackend.new clock prefillCost decodeCost)) ops) :
    Ensures (run apply (new (MockBackend.new clock prefillCost decodeCost)) ops) (fun _ => True)
      (fun s => (∀ p < s.requests.size, (s.request p).outputTokenIds =
          (List.range (s.request p).outputTokensEmitted).map fun i => UInt32.ofNat (i + 1)) ∧
        ∀ d ∈ s.decoding, ∃ handle state, s.handles.find (s.requestId d) = some handle ∧
          s.world.sequences.find handle.id = some state ∧
            state.tokensEmitted = UInt32.ofNat (s.request d).outputTokensEmitted) := by
  have hstart := isolated_new _ (MockBackend.fresh_new clock prefillCost decodeCost)
  have hrun : Ensures (run apply (new (MockBackend.new clock prefillCost decodeCost)) ops)
      (fun _ => True) (fun s => s.Partition ∧ Isolated [] s) :=
    run_ensures_guarded (fun _ op h hdist => apply_isolated h.1 h.2 hdist op) _
      ⟨partition_new _, hstart⟩ ops hdistinct
  exact hrun.imp (fun s h => ⟨h.2.tokens, fun d hd => h.2.counts d hd List.not_mem_nil⟩)

instance (s : FifoScheduler MockBackend) : Decidable s.DistinctTracked :=
  decidable_of_iff (∀ p ∈ s.waiting ++ s.decoding, ∀ r ∈ s.waiting ++ s.decoding,
      s.requestId p = s.requestId r → p = r)
    ⟨fun h p r hp hr => h p (List.mem_append.mpr hp) r (List.mem_append.mpr hr),
      fun h p hp r hr => h p r (List.mem_append.mp hp) (List.mem_append.mp hr)⟩

/-- Three requests share batches; the second one's decode step fails and its id is used again. -/
def sharedBatches : List (SchedulerOp MockBackend) :=
  [.submit "a" 1000 3 [7] 0, .submit "b" 1000 3 [] 0, .submit "c" 1000 2 [7] 0, .tick,
    .event (MockBackend.Event.failNextDecode ⟨.outOfMemory, "no pages"⟩), .cancel "a", .tick,
    .submit "b" 1000 2 [] 0, .tick]

theorem outputs_isolated_shared :
    Guarded apply (fun s _ => s.DistinctTracked) (new (MockBackend.new ⟨0⟩ 1 5)) sharedBatches ∧
    ∃ s, run apply (new (MockBackend.new ⟨0⟩ 1 5)) sharedBatches = .ok s ∧ s.requests.size = 4 ∧
      ∀ p < s.requests.size, (s.request p).outputTokenIds =
        countUp (s.request p).outputTokensEmitted := by
  have hdistinct : Guarded apply (fun s _ => s.DistinctTracked) (new (MockBackend.new ⟨0⟩ 1 5))
      sharedBatches := by decide +kernel
  obtain ⟨s, hrun, hsize⟩ := exists_of_map_ok (x := run apply (new (MockBackend.new ⟨0⟩ 1 5))
    sharedBatches) (f := fun s => s.requests.size) (b := 4) (by decide +kernel)
  exact ⟨hdistinct, s, hrun, hsize, ((outputs_isolated ⟨0⟩ 1 5 sharedBatches hdistinct).ok hrun).1⟩

end Tokamak.FifoScheduler
