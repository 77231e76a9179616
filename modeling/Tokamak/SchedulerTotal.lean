import Tokamak.MockBackendBatch
import Tokamak.SchedulerQuiet

/-! What it takes for a scheduler over a mock backend never to abort. As long as a client submits ids
that are not in use and budgets that are not zero, and the world around the backend neither turns the
clock back nor configures a sequence that is gone, every operation returns: no illegal transition, no
exhausted budget, no missing or dead handle, no missing outcome. Injected errors, expiries, cancels and
ends of sequence are all allowed. -/

open Outcome

namespace Tokamak

namespace MockBackend

/-- The two costs of a backend. -/
structure Costs (prefillCost decodeCost : Duration) (b : MockBackend) : Prop where
  prefill : b.perTokenPrefillCost = prefillCost
  decode : b.perDecodeCost = decodeCost

/-- The world may do this to the backend: the clock is not turned back, and an end of sequence is only
configured for a live sequence. -/
def Admissible (b : MockBackend) : Event → Prop
  | .configureEos handle _ => handle.id ∈ b.sequences
  | .advanceClock d => 0 ≤ d
  | _ => True

instance (b : MockBackend) : (e : Event) → Decidable (b.Admissible e)
  | .failNextPrefill _ => inferInstanceAs (Decidable True)
  | .failNextDecode _ => inferInstanceAs (Decidable True)
  | .configureEos handle _ => inferInstanceAs (Decidable (handle.id ∈ b.sequences))
  | .advanceClock d => inferInstanceAs (Decidable (0 ≤ d))

variable {b b' : MockBackend} {prefillCost decodeCost : Duration}

theorem Costs.occur (h : b.Costs prefillCost decodeCost) {e : Event} (hoccur : b.occur e = .ok b') :
    b'.Costs prefillCost decodeCost := by
  cases e with
  | failNextPrefill error =>
      cases hoccur
      exact ⟨h.prefill, h.decode⟩
  | failNextDecode error =>
      cases hoccur
      exact ⟨h.prefill, h.decode⟩
  | configureEos handle afterTokens =>
      unfold MockBackend.occur configureEos at hoccur
      simp only at hoccur
      split at hoccur
      · cases hoccur
      · cases hoccur
        exact ⟨h.prefill, h.decode⟩
  | advanceClock d =>
      obtain ⟨-, rfl⟩ := advance_ok hoccur
      exact ⟨h.prefill, h.decode⟩

theorem occur_of_admissible {e : Event} (h : b.Admissible e) : ∃ b', b.occur e = .ok b' := by
  cases e with
  | failNextPrefill error => exact ⟨_, rfl⟩
  | failNextDecode error => exact ⟨_, rfl⟩
  | configureEos handle afterTokens =>
      obtain ⟨state, hfind⟩ := FinMap.exists_find_of_mem h
      unfold MockBackend.occur configureEos
      simp only
      rw [hfind]
      exact ⟨_, rfl⟩
  | advanceClock d => exact ⟨_, advance_of_nonneg h⟩

/-- With costs that are not negative a prefill call does not abort. -/
theorem Costs.prefill_total (h : b.Costs prefillCost decodeCost) (hcost : 0 ≤ prefillCost)
    (hfresh : b.Fresh) (batch : PrefillBatch) :
    Ensures (InferenceBackend.prefill b batch) (fun _ => False)
      (fun answer => Prefilled b batch.sequences answer.1 answer.2.outcomes) := by
  refine ensures_iff.mpr ⟨fun answer hanswer => (prefill_ensures hfresh batch).ok hanswer, fun p hp => ?_⟩
  have hnegative := ((prefill_aligned b batch).error hp).2.1
  rw [h.prefill] at hnegative
  exact absurd hcost (not_le.mpr hnegative)

theorem Costs.decode_total (h : b.Costs prefillCost decodeCost) (hcost : 0 ≤ decodeCost)
    {batch : DecodeBatch} (hlive : ∀ d ∈ batch.sequences, d.handle.id ∈ b.sequences) :
    Ensures (InferenceBackend.decode b batch) (fun _ => False)
      (fun answer => SameSequences b answer.1) := by
  refine ensures_iff.mpr ⟨fun answer hanswer => ?_, fun p hp => ?_⟩
  · have hdecoded := ((decode_ensures hlive).ok hanswer).2
    exact ⟨hdecoded.mem, hdecoded.nextSequenceId⟩
  · rcases (decode_aligned b batch).error hp with ⟨-, hnegative⟩ | ⟨-, d, hd, hdead⟩
    · rw [h.decode] at hnegative
      exact absurd hcost (not_le.mpr hnegative)
    · exact hdead (hlive d (List.mem_of_mem_drop hd))

end MockBackend

namespace FifoScheduler

variable {s : FifoScheduler MockBackend} {r : RequestPtr} {prefillCost decodeCost : Duration}

/-- What a scheduler that cannot abort is like: first come, first served, every tracked request with an
id and a sequence of its own, a budget for everyone who waits, and costs that are not negative. -/
structure Able (prefillCost decodeCost : Duration) (s : FifoScheduler MockBackend) : Prop where
  firstCome : s.FirstCome
  isolated : Isolated [] s
  distinct : s.DistinctTracked
  funded : ∀ r ∈ s.waiting, (s.request r).maxOutputTokens ≠ 0
  costs : s.world.Costs prefillCost decodeCost

theorem able_new (clock : FakeClock) (prefillCost decodeCost : Duration) :
    Able prefillCost decodeCost (new (.new clock prefillCost decodeCost)) where
  firstCome := firstCome_new _
  isolated := isolated_new _ (MockBackend.fresh_new clock prefillCost decodeCost)
  distinct p r hp := by simp [new, Live] at hp
  funded r hr := by simp [new] at hr
  costs := ⟨rfl, rfl⟩

/-! ### The phases leave the costs alone -/

section Costs

theorem costs_releasedWorld {id : RequestId} {w w' : MockBackend}
    (h : w.Costs prefillCost decodeCost) (hreleased : s.releasedWorld id w = .ok w') :
    w'.Costs prefillCost decodeCost := by
  unfold releasedWorld at hreleased
  split at hreleased
  · cases hreleased
    exact h
  · have hrelease := callBackend_eq_ok.mp hreleased
    change MockBackend.release w _ = _ at hrelease
    unfold MockBackend.release at hrelease
    split_ifs at hrelease
    cases hrelease
    exact ⟨h.prefill, h.decode⟩

theorem failWaiting_costs (hr : s.state r = .waitingPrefill)
    (h : s.world.Costs prefillCost decodeCost) :
    Ensures (s.failWaiting r) (fun _ => True) (fun t => t.world.Costs prefillCost decodeCost) := by
  rw [failWaiting_of_waiting hr]
  refine ensures_iff.mpr ⟨fun t ht => ?_, fun _ _ => trivial⟩
  obtain ⟨w, hw, ht⟩ := bind_eq_ok.mp ht
  cases ht
  exact costs_releasedWorld h hw

theorem failDecoding_costs (hr : s.state r = .decoding) (h : s.world.Costs prefillCost decodeCost) :
    Ensures (s.failDecoding r) (fun _ => True) (fun t => t.world.Costs prefillCost decodeCost) := by
  rw [failDecoding_of_decoding hr]
  refine ensures_iff.mpr ⟨fun t ht => ?_, fun _ _ => trivial⟩
  obtain ⟨w, hw, ht⟩ := bind_eq_ok.mp ht
  cases ht
  exact costs_releasedWorld h hw

theorem expireDeadlines_costs (hs : s.Partition) (h : s.world.Costs prefillCost decodeCost) :
    Ensures s.expireDeadlines (fun _ => True)
      (fun done => done.1.Partition ∧ done.1.world.Costs prefillCost decodeCost) := by
  refine expireDeadlines_ensures hs (fun _ _ t => t.world.Costs prefillCost decodeCost) ?_ ?_ ?_
  · rw [expiredDecoding_mock]
    exact h
  · exact fun r rest t ht hr _ _ hcosts => failWaiting_costs (ht.waiting_state r hr) hcosts
  · exact fun r rest t ht hr _ hcosts => failDecoding_costs (ht.decoding_state r hr) hcosts

theorem prefillPhase_costs (hs : s.Partition) (h : s.world.Costs prefillCost decodeCost) :
    Ensures s.prefillPhase (fun _ => True)
      (fun done => done.1.Partition ∧ done.1.world.Costs prefillCost decodeCost) := by
  refine (prefillPhase_ensures hs (fun _ _ t => t.1.world.Costs prefillCost decodeCost) ?_ ?_).imp
    (fun _ hdone => ⟨hdone.1, hdone.2.2⟩)
  · refine ensures_iff.mpr ⟨fun answer hanswer => ?_, fun _ _ => trivial⟩
    have haligned := (MockBackend.prefill_aligned s.world _).ok hanswer
    exact ⟨haligned.perTokenPrefillCost.trans h.prefill, haligned.perDecodeCost.trans h.decode⟩
  · intro r rest outcome outcomes t report ht hwaiting hcosts
    have hr : t.state r = .waitingPrefill :=
      ht.waiting_state r (by rw [hwaiting]; exact List.mem_cons_self)
    cases outcome with
    | error e => exact (failWaiting_costs hr hcosts).bind (fun _ ht' => ht')
    | ok out =>
        unfold prefillOutcome
        simp only
        rw [promote_mock out.handle hr]
        exact hcosts

theorem decodePhase_costs (hs : s.Partition) (h : s.world.Costs prefillCost decodeCost) :
    Ensures s.decodePhase (fun _ => True)
      (fun done => done.1.Partition ∧ done.1.world.Costs prefillCost decodeCost) := by
  refine (decodePhase_ensures hs (fun _ _ t => t.1.world.Costs prefillCost decodeCost) ?_ ?_).imp
    (fun _ hdone => ⟨hdone.1, hdone.2.2⟩)
  · refine (decodeRequests_aborts s s.decoding).mono (fun _ _ => trivial) (fun batch _ => ?_)
    refine ensures_iff.mpr ⟨fun answer hanswer => ?_, fun _ _ => trivial⟩
    have haligned := (MockBackend.decode_aligned s.world _).ok hanswer
    exact ⟨haligned.perTokenPrefillCost.trans h.prefill, haligned.perDecodeCost.trans h.decode⟩
  · intro r rest outcome outcomes t report ht hr _ _ _ hcosts
    have hstate := ht.decoding_state r hr
    cases outcome with
    | error e => exact (failDecoding_costs hstate hcosts).bind (fun _ ht' => ht')
    | ok token =>
        rw [decodeOutcome_ok_of_decoding hstate]
        have hemitted : (t.tokenEmitted r token.tokenId).world.Costs prefillCost decodeCost := by
          rw [tokenEmitted_world]
          exact hcosts
        split_ifs
        · trivial
        · refine ensures_iff.mpr ⟨fun t' ht' => ?_, fun _ _ => trivial⟩
          obtain ⟨w, hw, ht'⟩ := bind_eq_ok.mp ht'
          cases ht'
          exact costs_releasedWorld hemitted hw
        · exact hemitted

end Costs

/-- Everyone who waits after the expiry waited before, so the decode phase stays within all budgets. -/
theorem Able.decodesWithinBudget (hs : Able prefillCost decodeCost s) : s.DecodesWithinBudget := by
  refine hs.firstCome.funded_iff.mpr (fun a b answer ha hb hanswer r hr => ?_)
  obtain ⟨hpart, hsize, hculled⟩ := (expireDeadlines_culls hs.firstCome.partition).ok ha
  have hwaiting := mem_of_granted hr
  obtain ⟨hlt, hlive⟩ := (hpart.live_iff r).mp (.inl hwaiting)
  have heq := (hculled r).eq_of_live hlive
  have hstate := hpart.waiting_state r hwaiting
  rw [state, heq] at hstate
  rw [heq]
  exact hs.funded r (hs.firstCome.partition.mem_waiting (hsize ▸ hlt) hstate)

/-- A tick returns. -/
theorem Able.tick (hs : Able prefillCost decodeCost s) (hprefill : 0 ≤ prefillCost)
    (hdecode : 0 ≤ decodeCost) :
    Ensures s.tick (fun _ => False) (fun done => Able prefillCost decodeCost done.1) := by
  have hbudget := hs.decodesWithinBudget
  have hsafe : Ensures s.tick (fun _ => False) (fun done => done.1.Partition ∧ Isolated [] done.1 ∧
      done.1.DistinctTracked ∧ done.1.world.Costs prefillCost decodeCost) := by
    refine tick_ensures
      (fun a => s.expireDeadlines = .ok a ∧ a.1.Partition ∧ Isolated [] a.1 ∧
        a.1.DistinctTracked ∧ a.1.world.Costs prefillCost decodeCost)
      (fun _ b => ∃ a, s.expireDeadlines = .ok a ∧ a.1.prefillPhase = .ok b ∧ b.1.Partition ∧
        Isolated [] b.1 ∧ b.1.DistinctTracked ∧ b.1.world.Costs prefillCost decodeCost) ?_ ?_ ?_
    · refine ((expireDeadlines_isolated hs.firstCome.partition hs.isolated hs.distinct).and_ok
        (fun a ha => ha)).imp ?_
      rintro a ⟨⟨hpart, hiso, hdist⟩, ha⟩
      exact ⟨ha, hpart, hiso, hdist, ((expireDeadlines_costs hs.firstCome.partition hs.costs).ok ha).2⟩
    · rintro a ⟨ha, hpart, hiso, hdist, hcosts⟩
      refine ((prefillPhase_isolated hpart hiso hdist
        (hcosts.prefill_total hprefill hiso.fresh _)).and_ok (fun b hb => hb)).imp ?_
      rintro b ⟨⟨hpart', hiso', hdist'⟩, hb⟩
      exact ⟨a, ha, hb, hpart', hiso', hdist', ((prefillPhase_costs hpart hcosts).ok hb).2⟩
    · rintro _ b ⟨a, ha, hb, hpart, hiso, hdist, hcosts⟩
      refine ((decodePhase_isolated hpart hiso hdist
        (fun batch hbatch => hcosts.decode_total hdecode hbatch)
        (fun r hr hover => absurd hover (not_le.mpr (hbudget a b ha hb r hr)))).and_ok
        (fun c hc => hc)).imp ?_
      rintro c ⟨⟨hpart', hiso', hdist'⟩, hc⟩
      exact ⟨hpart'.world _, hiso', hdist', ((decodePhase_costs hpart hcosts).ok hc).2⟩
  refine (hsafe.and_ok (fun done hdone => hdone)).imp ?_
  rintro done ⟨⟨hpart, hiso, hdist, hcosts⟩, htick⟩
  refine ⟨hs.firstCome.ticked htick, hiso, hdist, fun r hr => ?_, hcosts⟩
  rw [((tick_evolves hs.firstCome.partition).ok htick).2.1] at hr
  cases hr

/-- An operation a scheduler can always carry out. -/
def Admits (s : FifoScheduler MockBackend) : SchedulerOp MockBackend → Prop
  | .submit id _ maxOutputTokens _ _ =>
      maxOutputTokens ≠ 0 ∧ ∀ r ∈ s.waiting ++ s.decoding, s.requestId r ≠ id
  | .event e => s.world.Admissible e
  | _ => True

instance (s : FifoScheduler MockBackend) : (op : SchedulerOp MockBackend) → Decidable (s.Admits op)
  | .submit id _ maxOutputTokens _ _ => inferInstanceAs (Decidable (maxOutputTokens ≠ 0 ∧
      ∀ r ∈ s.waiting ++ s.decoding, s.requestId r ≠ id))
  | .cancel _ => inferInstanceAs (Decidable True)
  | .tick => inferInstanceAs (Decidable True)
  | .event e => inferInstanceAs (Decidable (s.world.Admissible e))

/-- A new id and ids of its own so far leave every tracked request with an id of its own. -/
theorem DistinctTracked.admitted {ω : Type} {s : FifoScheduler ω} (hs : s.DistinctTracked)
    (hp : s.Partition) {q : Request} (w : ω) (hnew : ∀ r, s.Live r → s.requestId r ≠ q.id) :
    (s.admitted q w).DistinctTracked := by
  have hold : ∀ r, s.Live r → (s.admitted q w).requestId r = s.requestId r := by
    intro r hr
    rw [requestId, request_admitted_of_lt s q w ((hp.live_iff r).mp hr).1]
    rfl
  have hself : (s.admitted q w).requestId s.requests.size = q.id := by
    rw [requestId, request_admitted_self]
  have hlive : ∀ r, (s.admitted q w).Live r → s.Live r ∨ r = s.requests.size := by
    rintro r (hr | hr)
    · rcases List.mem_append.mp hr with hr | hr
      · exact .inl (.inl hr)
      · exact .inr (List.mem_singleton.mp hr)
    · exact .inl (.inr hr)
  intro p r hp hr heq
  rcases hlive p hp with hp | rfl
  · rcases hlive r hr with hr | rfl
    · rw [hold p hp, hold r hr] at heq
      exact hs p r hp hr heq
    · rw [hold p hp, hself] at heq
      exact absurd heq (hnew p hp)
  · rcases hlive r hr with hr | rfl
    · rw [hself, hold r hr] at heq
      exact absurd heq.symm (hnew r hr)
    · rfl

theorem cancelFirst_costs (hp : s.Partition) {queue : List RequestPtr}
    (hqueue : ∀ r ∈ queue, s.Live r) {id : RequestId} {t : FifoScheduler MockBackend}
    (h : s.world.Costs prefillCost decodeCost) (hcancel : s.cancelFirst queue id = .ok t) :
    t.world.Costs prefillCost decodeCost := by
  unfold cancelFirst at hcancel
  cases hfind : queue.find? (fun r => s.requestId r = id) with
  | none =>
      rw [hfind] at hcancel
      cases hcancel
      exact h
  | some r =>
      rw [hfind] at hcancel
      simp only at hcancel
      rw [retire_of_valid (valid_cancelled hp (hqueue r (List.mem_of_find?_eq_some hfind)))]
        at hcancel
      obtain ⟨w, hw, hcancel⟩ := bind_eq_ok.mp hcancel
      cases hcancel
      exact costs_releasedWorld h hw

/-- A cancel returns, whoever it is meant for. -/
theorem Able.cancel (hs : Able prefillCost decodeCost s) (id : RequestId) :
    Ensures (s.cancel id) (fun _ => False) (Able prefillCost decodeCost) := by
  have hp := hs.firstCome.partition
  have hsafe : Ensures (s.cancel id) (fun _ => False) (fun t => t.Partition ∧ Isolated [] t ∧
      t.DistinctTracked ∧ t.world.Costs prefillCost decodeCost) := by
    refine Ensures.bind ((cancelFirst_isolated hp hs.isolated hs.distinct
      (fun _ hr => .inl hr) id).and_ok
      (fun u hu => cancelFirst_costs hp (fun _ hr => .inl hr) hs.costs hu)) ?_
    rintro u ⟨⟨hpart, hiso, hdist⟩, hcosts⟩
    refine ((cancelFirst_isolated hpart hiso hdist (fun _ hr => .inr hr) id).and_ok
      (fun t ht => cancelFirst_costs hpart (fun _ hr => .inr hr) hcosts ht)).imp ?_
    rintro t ⟨⟨hpart', hiso', hdist'⟩, hcosts'⟩
    exact ⟨hpart', hiso', hdist', hcosts'⟩
  refine (hsafe.and_ok (fun t ht => ht)).imp ?_
  rintro t ⟨⟨-, hiso, hdist, hcosts⟩, hcancel⟩
  have hcancelled := cancel_cancelled hp hcancel
  refine ⟨hs.firstCome.cancelled hcancel, hiso, hdist, fun r hr => ?_, hcosts⟩
  rw [hcancelled.request_of_live (.inl hr)]
  exact hs.funded r (hcancelled.mem_waiting hp hr)

theorem Able.admitted (hs : Able prefillCost decodeCost s) {q : Request}
    (hq : q.state = .waitingPrefill) (hnone : q.outputTokensEmitted = 0)
    (hempty : q.outputTokenIds = []) (hbudget : q.maxOutputTokens ≠ 0)
    (hnew : ∀ r, s.Live r → s.requestId r ≠ q.id) :
    Able prefillCost decodeCost (s.admitted q s.world) where
  firstCome := hs.firstCome.admitted hq hnone _
  isolated := hs.isolated.admitted hs.firstCome.partition hnone hempty
  distinct := hs.distinct.admitted hs.firstCome.partition _ hnew
  funded r hr := by
    rcases List.mem_append.mp hr with hr | hr
    · rw [request_admitted_of_lt s q _ (hs.firstCome.partition.waiting_lt r hr)]
      exact hs.funded r hr
    · rw [List.mem_singleton.mp hr, request_admitted_self]
      exact hbudget
  costs := hs.costs

/-- An admissible operation returns and leaves a scheduler that cannot abort either. -/
theorem Able.apply (hs : Able prefillCost decodeCost s) (hprefill : 0 ≤ prefillCost)
    (hdecode : 0 ≤ decodeCost) {op : SchedulerOp MockBackend} (hop : s.Admits op) :
    Ensures (s.apply op) (fun _ => False) (Able prefillCost decodeCost) := by
  have hp := hs.firstCome.partition
  cases op with
  | submit id deadlineFromNow maxOutputTokens promptTokenIds priority =>
      rw [apply_submit]
      exact hs.admitted rfl rfl rfl hop.1 (fun r hr => hop.2 r (List.mem_append.mpr hr))
  | cancel id => exact hs.cancel id
  | tick => exact (hs.tick hprefill hdecode).bind (fun _ h => h)
  | event e =>
      obtain ⟨w, hw⟩ := MockBackend.occur_of_admissible hop
      have hoccur : s.apply (.event e) = .ok { s with world := w } := by
        change (callBackend (s.world.occur e) >>= fun w =>
          (.ok { s with world := w } : Except Panic (FifoScheduler MockBackend))) = _
        rw [hw]
        rfl
      rw [hoccur]
      exact ⟨hs.firstCome.world w, hs.isolated.event hw, hs.distinct, hs.funded, hs.costs.occur hw⟩

/-- **Nothing aborts by accident.** In every run whose operations are admissible (an id is submitted
when it is not in use and with a budget of at least one token, the clock is not turned back, an end of
sequence is configured for a live sequence), every operation returns, whatever errors are injected and
whoever is cancelled or expires. In particular a prefill batch is answered in full, no handle is missing
or dead, and no request is asked for a token beyond its budget. -/
theorem admissible_run_returns (clock : FakeClock) (prefillCost decodeCost : Duration)
    (ops : List (SchedulerOp MockBackend)) (hprefill : 0 ≤ prefillCost) (hdecode : 0 ≤ decodeCost)
    (hadmits : Guarded apply Admits (new (.new clock prefillCost decodeCost)) ops) :
    ∃ s, run apply (new (.new clock prefillCost decodeCost)) ops = .ok s ∧ s.Partition ∧
      s.DistinctTracked ∧ ∀ r ∈ s.decoding,
        (s.request r).outputTokensEmitted < (s.request r).maxOutputTokens := by
  have hall : Ensures (run apply (new (.new clock prefillCost decodeCost)) ops) (fun _ => False)
      (Able prefillCost decodeCost) :=
    run_ensures_guarded (fun _ _ hs hop => hs.apply hprefill hdecode hop) _
      (able_new clock prefillCost decodeCost) ops hadmits
  cases hrun : run apply (new (.new clock prefillCost decodeCost)) ops with
  | error p => exact (hall.error hrun).elim
  | ok s =>
      have hs := hall.ok hrun
      exact ⟨s, rfl, hs.firstCome.partition, hs.distinct, fun r hr => (hs.firstCome.decoding r hr).2⟩

/-- A prefill fails, its id is used again, a sequence is cut short, and a deadline passes. -/
def eventful : List (SchedulerOp MockBackend) :=
  [.submit "a" 1000 3 [7] 0, .event (MockBackend.Event.failNextPrefill ⟨.outOfMemory, "no pages"⟩),
    .tick, .submit "a" 1000 3 [7] 0, .submit "b" 10 3 [] 0, .tick,
    .event (MockBackend.Event.configureEos ⟨0⟩ 2),
    .event (MockBackend.Event.failNextDecode ⟨.unavailable, "gone"⟩), .cancel "a",
    .event (MockBackend.Event.advanceClock 20), .tick]

theorem admissible_run_returns_eventful :
    ∃ s, run apply (new (.new ⟨0⟩ 1 5)) eventful = .ok s ∧ s.Partition := by
  obtain ⟨s, hrun, hpart, -⟩ :=
    admissible_run_returns ⟨0⟩ 1 5 eventful (by decide) (by decide) (by decide +kernel)
  exact ⟨s, hrun, hpart⟩

end FifoScheduler

end Tokamak
