import Tokamak.EngineStep
import Tokamak.SchedulerEvolution

/-! The engine's bookkeeping. The `i`-th submission the engine accepted becomes the scheduler's
request `i`, until then it waits in the drained batch or in the pending vector; an active entry leads
from an id to that request and to the submission's channel; and a request without an entry is
terminal and its channel closed. All of it rests on one condition: the engine never admits a
submission whose id is active, since `emplace` would drop the new entry. Distinct ids imply it. -/

open Outcome

namespace Tokamak

namespace Engine

variable {ω : Type}

/-- The part of the bookkeeping that does not depend on where the engine thread stands. -/
structure Ledger (g : Engine ω) : Prop where
  partition : g.scheduler.Partition
  owned_le : g.owned ≤ g.accepted.length
  requestId : ∀ i sub, i < g.owned → g.accepted[i]? = some sub → g.scheduler.requestId i = sub.id
  entry : ∀ id e, g.active.find id = some e → e.request < g.owned ∧
    g.scheduler.requestId e.request = id ∧ ∃ sub, g.accepted[e.request]? = some sub ∧
      sub.channel = e.channel
  uncancelled : ∀ id e, g.active.find id = some e → g.scheduler.state e.request ≠ .cancelled
  settled : ∀ i sub, i < g.owned → g.accepted[i]? = some sub →
    (∃ id e, g.active.find id = some e ∧ e.request = i) ∨
      ((g.scheduler.state i).isTerminal = true ∧ (g.channels sub.channel).closed = true)

/-- The bookkeeping between two steps. -/
structure Books (g : Engine ω) : Prop extends Ledger g where
  backlog : g.accepted.drop g.owned = g.pc.admitBatch ++ g.pendingSubmissions
  cancelled : g.cancels = g.handled ++ g.pc.cancelBatch ++ g.pendingCancels
  delivered : ∀ id ∈ g.pc.reapBatch, ∀ e, g.active.find id = some e → g.isDelivered e = true
  thread : g.joinable = false → g.pc = .exited

/-- What no step takes back. -/
structure Frame (g g' : Engine ω) : Prop where
  accepted : g.accepted <+: g'.accepted
  owned : g.owned ≤ g'.owned
  live : ∀ i < g.owned, (g'.scheduler.state i).isTerminal = false →
    (g.scheduler.state i).isTerminal = false
  closed : ∀ c, (g.channels c).closed = true → (g'.channels c).closed = true

theorem Frame.refl (g : Engine ω) : Frame g g :=
  ⟨List.prefix_refl _, le_rfl, fun _ _ h => h, fun _ h => h⟩

/-- The next submission to be admitted has an id that is not active. -/
def AdmitSafe (g : Engine ω) : Prop :=
  ∀ sub rest, g.pc = .admitting (sub :: rest) → sub.id ∉ g.active

/-- After an admission a request is one of the old ones, as it was, or the one that is new. -/
theorem admitted_cases {g : Engine ω} {sub sub' : Submission} {i : RequestPtr} (q : Request) (w : ω)
    (hnext : g.accepted[g.owned]? = some sub) (hi : i < g.owned + 1)
    (hsub' : g.accepted[i]? = some sub') :
    (i < g.owned ∧ (g.scheduler.admitted q w).request i = g.scheduler.request i) ∨
      (i = g.owned ∧ sub' = sub ∧ (g.scheduler.admitted q w).request i = q) := by
  rcases Nat.lt_succ_iff_lt_or_eq.mp hi with hi | rfl
  · exact .inl ⟨hi, FifoScheduler.request_admitted_of_lt g.scheduler q w hi⟩
  · rw [hnext] at hsub'
    exact .inr ⟨rfl, (Option.some.inj hsub').symm, FifoScheduler.request_admitted_self g.scheduler q w⟩

namespace Ledger

variable {g g' : Engine ω} {id : RequestId} {e : ActiveEntry}

theorem new (w : ω) (timeout : Duration) (channels : ChannelPtr → TokenChannel) :
    Ledger (Engine.new w timeout channels) where
  partition := FifoScheduler.partition_new w
  owned_le := Nat.zero_le _
  requestId i sub hi := absurd hi (Nat.not_lt_zero i)
  entry id e h := by simp [Engine.new] at h
  uncancelled id e h := by simp [Engine.new] at h
  settled i sub hi := absurd hi (Nat.not_lt_zero i)

/-- Steps that touch neither the scheduler nor the active entries. -/
theorem of_eq (hg : Ledger g) (hscheduler : g'.scheduler = g.scheduler)
    (hactive : g'.active = g.active) (haccepted : g.accepted <+: g'.accepted)
    (hclosed : ∀ c, (g.channels c).closed = true → (g'.channels c).closed = true) : Ledger g' := by
  have howned : g'.owned = g.owned := by
    unfold owned
    rw [hscheduler]
  have hsame : ∀ i < g.owned, g'.accepted[i]? = g.accepted[i]? := by
    intro i hi
    exact getElem?_of_isPrefix haccepted (lt_of_lt_of_le hi hg.owned_le)
  refine ⟨?_, ?_, ?_, ?_, ?_, ?_⟩
  · rw [hscheduler]
    exact hg.partition
  · rw [howned]
    exact hg.owned_le.trans haccepted.length_le
  · intro i sub hi hsub
    rw [howned] at hi
    rw [hscheduler]
    exact hg.requestId i sub hi (hsame i hi ▸ hsub)
  · intro id e h
    rw [hactive] at h
    obtain ⟨hlt, hid, sub, hsub, hchannel⟩ := hg.entry id e h
    rw [howned, hscheduler]
    exact ⟨hlt, hid, sub, (hsame _ hlt).trans hsub, hchannel⟩
  · intro id e h
    rw [hactive] at h
    rw [hscheduler]
    exact hg.uncancelled id e h
  · intro i sub hi hsub
    rw [howned] at hi
    rw [hsame i hi] at hsub
    rw [hactive, hscheduler]
    exact (hg.settled i sub hi hsub).imp (fun h => h) (fun h => ⟨h.1, hclosed _ h.2⟩)

theorem world (hg : Ledger g) (w : ω) :
    Ledger { g with scheduler := { g.scheduler with world := w } } :=
  ⟨hg.partition.world w, hg.owned_le, hg.requestId, hg.entry, hg.uncancelled, hg.settled⟩

/-- A live request has an entry. -/
theorem active_of_live (hg : Ledger g) {p : RequestPtr} (hp : g.scheduler.Live p) :
    ∃ e, g.active.find (g.scheduler.requestId p) = some e ∧ e.request = p := by
  obtain ⟨hlt, hlive⟩ := (hg.partition.live_iff p).mp hp
  have hsub := List.getElem?_eq_getElem (lt_of_lt_of_le hlt hg.owned_le)
  rcases hg.settled p _ hlt hsub with ⟨id, e, he, hrequest⟩ | ⟨hterminal, -⟩
  · refine ⟨e, ?_, hrequest⟩
    have hkey := (hg.entry id e he).2.1
    rw [hrequest] at hkey
    rw [hkey]
    exact he
  · rw [hlive] at hterminal
    cases hterminal

/-- Requests of one id that are both live are one request: its entry is the only one of that id. -/
theorem live_unique (hg : Ledger g) {p r : RequestPtr} (hp : g.scheduler.Live p)
    (hr : g.scheduler.Live r) (hid : g.scheduler.requestId p = g.scheduler.requestId r) : p = r := by
  obtain ⟨e, he, hep⟩ := hg.active_of_live hp
  obtain ⟨e', he', her⟩ := hg.active_of_live hr
  rw [hid, he'] at he
  cases he
  exact hep.symm.trans her

/-- An entry is closed and erased once its request is terminal; a cancel of that id may have been what
made it so. -/
theorem closeEntry (hg : Ledger g) {t : FifoScheduler ω}
    (ht : FifoScheduler.CancelledById g.scheduler id t) (he : g.active.find id = some e)
    (hterminal : (t.state e.request).isTerminal = true) (handled : List RequestId)
    (closer : Closer) :
    Ledger ({ g with scheduler := t, handled := handled }.closeEntry id e closer) := by
  have howned : ({ g with scheduler := t, handled := handled }.closeEntry id e closer).owned =
      g.owned := ht.size
  refine ⟨ht.partition, ?_, ?_, ?_, ?_, ?_⟩
  · rw [howned]
    exact hg.owned_le
  · intro i sub hi hsub
    rw [howned] at hi
    exact (ht.requestId i).trans (hg.requestId i sub hi hsub)
  · intro a e' h
    simp only [Engine.closeEntry, FinMap.find_erase] at h
    split_ifs at h with hne
    obtain ⟨hlt, hid, hsub⟩ := hg.entry a e' h
    rw [howned]
    exact ⟨hlt, (ht.requestId _).trans hid, hsub⟩
  · intro a e' h
    simp only [Engine.closeEntry, FinMap.find_erase] at h
    split_ifs at h with hne
    have hkey := (hg.entry a e' h).2.1
    have hsame : t.request e'.request = g.scheduler.request e'.request := by
      rcases ht.request e'.request with heq | ⟨-, hid, -⟩
      · exact heq
      · exact absurd (hkey.symm.trans hid) hne
    change (t.request e'.request).state ≠ .cancelled
    rw [hsame]
    exact hg.uncancelled a e' h
  · intro i sub hi hsub
    rw [howned] at hi
    rcases hg.settled i sub hi hsub with ⟨a, e', h, hrequest⟩ | ⟨hdone, hclosed⟩
    · by_cases hid : a = id
      · -- the entry that is closed here
        subst hid
        rw [he] at h
        cases h
        obtain ⟨-, -, sub', hsub', hchannel⟩ := hg.entry a e he
        rw [hrequest, show g.accepted[i]? = some sub from hsub] at hsub'
        cases hsub'
        refine .inr ⟨hrequest ▸ hterminal, ?_⟩
        simp [Engine.closeEntry, hchannel]
      · refine .inl ⟨a, e', ?_, hrequest⟩
        simp only [Engine.closeEntry, FinMap.find_erase]
        rw [if_neg hid]
        exact h
    · refine .inr ⟨?_, ?_⟩
      · rcases ht.request i with heq | ⟨-, -, τ, heq⟩
        · change (t.request i).state.isTerminal = true
          rw [heq]
          exact hdone
        · change (t.request i).state.isTerminal = true
          rw [heq]
          rfl
      · simp only [Engine.closeEntry, Function.update_apply]
        split_ifs
        · rfl
        · exact hclosed

/-- The scheduler moves on by itself. -/
theorem ticked (hg : Ledger g) {t : FifoScheduler ω} (ht : t.Partition)
    (hsize : t.requests.size = g.owned)
    (hticked : ∀ p < g.owned, (g.scheduler.request p).Ticked (t.request p)) :
    Ledger { g with scheduler := t } := by
  have hid : ∀ p < g.owned, t.requestId p = g.scheduler.requestId p := fun p hp =>
    (hticked p hp).sameTerms.id
  have howned : ({ g with scheduler := t } : Engine ω).owned = g.owned := hsize
  refine ⟨ht, ?_, ?_, ?_, ?_, ?_⟩
  · rw [howned]
    exact hg.owned_le
  · intro i sub hi hsub
    rw [howned] at hi
    exact (hid i hi).trans (hg.requestId i sub hi hsub)
  · intro a e' h
    obtain ⟨hlt, hkey, hsub⟩ := hg.entry a e' h
    rw [howned]
    exact ⟨hlt, (hid _ hlt).trans hkey, hsub⟩
  · intro a e' h
    exact (hticked _ (hg.entry a e' h).1).uncancelled (hg.uncancelled a e' h)
  · intro i sub hi hsub
    rw [howned] at hi
    rcases hg.settled i sub hi hsub with h | ⟨hdone, hclosed⟩
    · exact .inl h
    · refine .inr ⟨?_, hclosed⟩
      change (t.request i).state.isTerminal = true
      rw [(hticked i hi).eq_of_terminal hdone]
      exact hdone

/-- The submission at the head of the backlog becomes the next request. -/
theorem admitted (hg : Ledger g) {sub : Submission} {q : Request} (hq : sub.Queued q) (w : ω)
    (hnext : g.accepted[g.owned]? = some sub) (hfree : sub.id ∉ g.active) :
    Ledger { g with
      scheduler := g.scheduler.admitted q w
      active := g.active.emplace sub.id ⟨g.owned, sub.channel, 0, none⟩ } := by
  have hold : ∀ i < g.owned, (g.scheduler.admitted q w).request i = g.scheduler.request i :=
    fun i hi => FifoScheduler.request_admitted_of_lt g.scheduler q w hi
  have hnew : (g.scheduler.admitted q w).request g.owned = q :=
    FifoScheduler.request_admitted_self g.scheduler q w
  have hlt : g.owned < g.accepted.length := (List.getElem?_eq_some_iff.mp hnext).1
  rw [FinMap.emplace_of_notMem hfree]
  refine ⟨hg.partition.admitted hq.state w, hlt, ?_, ?_, ?_, ?_⟩
  · intro i sub' hi hsub'
    change ((g.scheduler.admitted q w).request i).id = sub'.id
    rcases admitted_cases q w hnext hi hsub' with ⟨hi, hsame⟩ | ⟨-, rfl, hnew⟩
    · rw [hsame]
      exact hg.requestId i sub' hi hsub'
    · rw [hnew]
      exact hq.id
  · intro a e' h
    rw [FinMap.find_insert] at h
    split_ifs at h with ha
    · cases h
      refine ⟨Nat.lt_succ_self _, ?_, sub, hnext, rfl⟩
      change ((g.scheduler.admitted q w).request g.owned).id = a
      rw [hnew, hq.id, ha]
    · obtain ⟨hlt', hkey, hsub⟩ := hg.entry a e' h
      refine ⟨Nat.lt_succ_of_lt hlt', ?_, hsub⟩
      change ((g.scheduler.admitted q w).request e'.request).id = a
      rw [hold _ hlt']
      exact hkey
  · intro a e' h
    rw [FinMap.find_insert] at h
    split_ifs at h with ha
    · cases h
      change ((g.scheduler.admitted q w).request g.owned).state ≠ .cancelled
      rw [hnew, hq.state]
      decide
    · change ((g.scheduler.admitted q w).request e'.request).state ≠ .cancelled
      rw [hold _ (hg.entry a e' h).1]
      exact hg.uncancelled a e' h
  · intro i sub' hi hsub'
    rcases admitted_cases q w hnext hi hsub' with ⟨hi, hsame⟩ | ⟨hi, -, -⟩
    · rcases hg.settled i sub' hi hsub' with ⟨a, e', h, hrequest⟩ | ⟨hdone, hclosed⟩
      · have hne : a ≠ sub.id := fun heq => hfree (heq ▸ FinMap.mem_of_find h)
        refine .inl ⟨a, e', ?_, hrequest⟩
        rw [FinMap.find_insert, if_neg hne]
        exact h
      · refine .inr ⟨?_, hclosed⟩
        change ((g.scheduler.admitted q w).request i).state.isTerminal = true
        rw [hsame]
        exact hdone
    · refine .inl ⟨sub.id, ⟨g.owned, sub.channel, 0, none⟩, ?_, hi.symm⟩
      rw [FinMap.find_insert, if_pos rfl]

/-- An entry is rewritten in place. -/
theorem replaced (hg : Ledger g) (he : g.active.find id = some e) {e' : ActiveEntry}
    (hrequest : e'.request = e.request) (hchannel : e'.channel = e.channel)
    {channels : ChannelPtr → TokenChannel} (hclosed : ∀ c, (channels c).closed = (g.channels c).closed)
    (calls : List ChannelCall) (pc : EnginePc) :
    Ledger { g with
      active := g.active.replace id e', channels := channels, calls := calls, pc := pc } := by
  have hfind : ∀ a, FinMap.find (g.active.replace id e') a =
      if a = id then some e' else g.active.find a := fun a =>
    FinMap.find_replace (FinMap.mem_of_find he) a e'
  refine ⟨hg.partition, hg.owned_le, hg.requestId, ?_, ?_, ?_⟩
  · intro a e'' h
    rw [hfind] at h
    split_ifs at h with ha
    · cases h
      rw [hrequest, hchannel, ha]
      exact hg.entry id e he
    · exact hg.entry a e'' h
  · intro a e'' h
    rw [hfind] at h
    split_ifs at h with ha
    · cases h
      rw [hrequest]
      exact hg.uncancelled id e he
    · exact hg.uncancelled a e'' h
  · intro i sub hi hsub
    rcases hg.settled i sub hi hsub with ⟨a, e'', h, hi'⟩ | ⟨hdone, hc⟩
    · by_cases ha : a = id
      · subst ha
        rw [he] at h
        cases h
        exact .inl ⟨a, e', by rw [hfind, if_pos rfl], hrequest.trans hi'⟩
      · exact .inl ⟨a, e'', by rw [hfind, if_neg ha]; exact h, hi'⟩
    · exact .inr ⟨hdone, (hclosed _).trans hc⟩

end Ledger

section Cancel

variable [Clock ω] [InferenceBackend ω] {g : Engine ω} {id : RequestId} {e : ActiveEntry}
  {t : FifoScheduler ω}

/-- A cancel of an active id makes its request terminal. -/
theorem Ledger.terminal_of_cancel (hg : Ledger g) (he : g.active.find id = some e)
    (h : g.scheduler.cancel id = .ok t) : (t.state e.request).isTerminal = true := by
  have ht := FifoScheduler.cancel_cancelled hg.partition h
  obtain ⟨hlt, hkey, -⟩ := hg.entry id e he
  by_contra hlive
  have hp : t.Live e.request := by
    refine (ht.partition.live_iff _).mpr ⟨?_, Bool.eq_false_iff.mpr hlive⟩
    rw [ht.size]
    exact hlt
  refine FifoScheduler.cancel_none_live hg.partition ?_ h e.request hp ?_
  · intro p r hp hr hpid hrid
    exact hg.live_unique hp hr (hpid.trans hrid.symm)
  · rw [ht.requestId, hkey]

/-- A cancel of an id that is not active changes nothing. -/
theorem Ledger.cancel_inactive (hg : Ledger g) (he : g.active.find id = none) :
    g.scheduler.cancel id = .ok g.scheduler := by
  refine FifoScheduler.cancel_of_not_live (fun p hp hid => ?_)
  obtain ⟨e, hfind, -⟩ := hg.active_of_live hp
  rw [hid, he] at hfind
  cases hfind

end Cancel

/-! ### What each step keeps -/

namespace Frame

variable {g g' : Engine ω} {id : RequestId} {e : ActiveEntry} {t : FifoScheduler ω}

theorem of_eq (hscheduler : g'.scheduler = g.scheduler) (haccepted : g.accepted <+: g'.accepted)
    (hclosed : ∀ c, (g.channels c).closed = true → (g'.channels c).closed = true) : Frame g g' where
  accepted := haccepted
  owned := by
    unfold Engine.owned
    rw [hscheduler]
  live i _ h := by rwa [hscheduler] at h
  closed := hclosed

theorem closeEntry (ht : FifoScheduler.CancelledById g.scheduler id t) (handled : List RequestId)
    (closer : Closer) (pc : EnginePc) :
    Frame g { ({ g with scheduler := t, handled := handled }.closeEntry id e closer) with pc := pc }
    where
  accepted := List.prefix_refl _
  owned := ht.size.ge
  live i _ h := by
    change (t.request i).state.isTerminal = false at h
    rcases ht.request i with heq | ⟨-, -, τ, heq⟩
    · rw [heq] at h
      exact h
    · rw [heq] at h
      cases h
  closed c hc := by
    simp only [Engine.closeEntry, Function.update_apply]
    split_ifs
    · rfl
    · exact hc

theorem ticked (hsize : t.requests.size = g.owned)
    (hticked : ∀ p < g.owned, (g.scheduler.request p).Ticked (t.request p)) (pc : EnginePc) :
    Frame g { g with scheduler := t, pc := pc } where
  accepted := List.prefix_refl _
  owned := hsize.ge
  live i hi h := by
    by_contra hterminal
    rw [Bool.not_eq_false] at hterminal
    change (t.request i).state.isTerminal = false at h
    rw [(hticked i hi).eq_of_terminal hterminal] at h
    rw [show (g.scheduler.request i).state.isTerminal = true from hterminal] at h
    cases h
  closed _ hc := hc

theorem admitted (q : Request) (w : ω) (active : FinMap RequestId ActiveEntry) (pc : EnginePc) :
    Frame g { g with scheduler := g.scheduler.admitted q w, active := active, pc := pc } where
  accepted := List.prefix_refl _
  owned := Nat.le_succ _
  live i hi h := by
    change ((g.scheduler.admitted q w).request i).state.isTerminal = false at h
    rw [FifoScheduler.request_admitted_of_lt g.scheduler q w hi] at h
    exact h
  closed _ hc := hc

end Frame

/-! ### The books over a step -/

namespace Books

variable {g g' : Engine ω}

theorem new (w : ω) (timeout : Duration) (channels : ChannelPtr → TokenChannel) :
    Books (Engine.new w timeout channels) where
  toLedger := Ledger.new w timeout channels
  backlog := rfl
  cancelled := rfl
  delivered id hid := by cases hid
  thread _ := rfl

theorem outside (hg : Books g) (h : Outside g g') : Books g' ∧ Frame g g' := by
  obtain ⟨w, hscheduler⟩ := h.world
  obtain ⟨subs, haccepted, hsubs⟩ := h.submissions
  obtain ⟨ids, hcancels, hids⟩ := h.cancels
  have hprefix : g.accepted <+: g'.accepted := haccepted ▸ List.prefix_append _ _
  have howned : g'.owned = g.owned := by
    unfold owned
    rw [hscheduler]
  have hadmission := h.pc_same hg.thread (f := EnginePc.admitBatch) rfl
  have hcancel := h.pc_same hg.thread (f := EnginePc.cancelBatch) rfl
  have hreap := h.pc_same hg.thread (f := EnginePc.reapBatch) rfl
  refine ⟨⟨(hg.toLedger.world w).of_eq hscheduler h.active hprefix h.closed, ?_, ?_, ?_, ?_⟩,
    hprefix, howned.ge, ?_, h.closed⟩
  · calc g'.accepted.drop g'.owned
        = (g.accepted ++ subs).drop g.owned := by rw [howned, haccepted]
      _ = g.accepted.drop g.owned ++ subs := List.drop_append_of_le_length hg.owned_le
      _ = g.pc.admitBatch ++ (g.pendingSubmissions ++ subs) := by rw [hg.backlog, List.append_assoc]
      _ = g'.pc.admitBatch ++ g'.pendingSubmissions := by rw [hadmission, hsubs]
  · calc g'.cancels
        = g.handled ++ g.pc.cancelBatch ++ g.pendingCancels ++ ids := by rw [hcancels, hg.cancelled]
      _ = g.handled ++ g.pc.cancelBatch ++ (g.pendingCancels ++ ids) := List.append_assoc _ _ _
      _ = g'.handled ++ g'.pc.cancelBatch ++ g'.pendingCancels := by rw [h.handled, hcancel, hids]
  · rw [hreap, h.active]
    unfold isDelivered
    rw [hscheduler]
    exact hg.delivered
  · intro hfree
    have hexited : g.pc = .exited := (h.joinable hfree).elim hg.thread (fun h => h)
    rcases h.pc with hpc | ⟨-, -, hstarted⟩
    · exact hpc.trans hexited
    · rw [hfree] at hstarted
      cases hstarted
  · intro i _ hlive
    rw [hscheduler] at hlive
    exact hlive

/-- Closing an entry: what is left of the loop has to be named, since it speaks about the entries. -/
theorem closeEntry (hg : Books g) {id : RequestId} {e : ActiveEntry} {t : FifoScheduler ω}
    (ht : FifoScheduler.CancelledById g.scheduler id t) (he : g.active.find id = some e)
    (hterminal : (t.state e.request).isTerminal = true) {handled : List RequestId} (closer : Closer)
    {pc : EnginePc} (halive : g.pc ≠ .exited) (hadmission : pc.admitBatch = g.pc.admitBatch)
    (hcancel : g.cancels = handled ++ pc.cancelBatch ++ g.pendingCancels)
    (hdelivered : ∀ a ∈ pc.reapBatch, ∀ e', a ≠ id → g.active.find a = some e' →
      ({ g with scheduler := t } : Engine ω).isDelivered e' = true) :
    Books { ({ g with scheduler := t, handled := handled }.closeEntry id e closer) with pc := pc } ∧
      Frame g { ({ g with scheduler := t, handled := handled }.closeEntry id e closer) with
        pc := pc } := by
  have hledger := hg.toLedger.closeEntry ht he hterminal handled closer
  refine ⟨⟨hledger.of_eq rfl rfl (List.prefix_refl _) (fun _ h => h), ?_, hcancel, ?_,
    fun h => absurd (hg.thread h) halive⟩, Frame.closeEntry ht handled closer pc⟩
  · change g.accepted.drop t.requests.size = pc.admitBatch ++ g.pendingSubmissions
    rw [ht.size, hadmission]
    exact hg.backlog
  · intro a ha e' h
    change FinMap.find (g.active.erase id) a = some e' at h
    rw [FinMap.find_erase] at h
    split_ifs at h with hne
    exact hdelivered a ha e' hne h

/-- The submission about to be admitted is the first one the scheduler does not own. -/
theorem next_accepted (hg : Books g) {sub : Submission} {rest : List Submission}
    (hpc : g.pc = .admitting (sub :: rest)) : g.accepted[g.owned]? = some sub := by
  have hbacklog := hg.backlog
  rw [hpc] at hbacklog
  have hhead := congrArg List.head? hbacklog
  rwa [List.head?_drop, EnginePc.admitBatch, List.cons_append, List.head?_cons] at hhead

theorem pushEvent (hg : Books g) {id : RequestId} {e : ActiveEntry}
    (he : g.active.find id = some e) (event : TokenEvent) {todo : List RequestId}
    (hpc : g.pc = .pushing id todo) (steadyNow : TimePoint) :
    Books (g.pushEvent id e event todo steadyNow) ∧
      Frame g (g.pushEvent id e event todo steadyNow) := by
  obtain ⟨e', channels, pc, hrequest, hchannel, -, hclosed, hnext, heq⟩ :=
    pushEvent_eq g id e event todo steadyNow
  have hbacklog := hg.backlog
  have hcancelled := hg.cancelled
  have halive : g.joinable ≠ false := fun h => by
    have hexited := hg.thread h
    rw [hpc] at hexited
    cases hexited
  have hbatches : pc.admitBatch = [] ∧ pc.cancelBatch = [] ∧ pc.reapBatch = [] := by
    rcases hnext with hnext | hnext
    · rw [hnext, hpc]
      exact ⟨rfl, rfl, rfl⟩
    · rw [hnext]
      exact ⟨rfl, rfl, rfl⟩
  rw [hpc] at hbacklog hcancelled
  rw [heq]
  refine ⟨⟨hg.toLedger.replaced he hrequest hchannel hclosed _ _, ?_, ?_, ?_,
    fun h => absurd h halive⟩, Frame.of_eq rfl (List.prefix_refl _) (fun c hc => (hclosed c).trans hc)⟩
  · rw [hbatches.1]
    exact hbacklog
  · rw [hbatches.2.1]
    exact hcancelled
  · rw [hbatches.2.2]
    intro a ha
    cases ha

variable [Clock ω] [InferenceBackend ω]

theorem move [AlignedBackend ω] (hg : Books g) (hsafe : AdmitSafe g) (h : Move g g') :
    Books g' ∧ Frame g g' := by
  have hbacklog := hg.backlog
  have hcancelled := hg.cancelled
  have hthread : g.pc ≠ .exited → g.joinable = false → ∀ pc, pc = EnginePc.exited :=
    fun halive h => absurd (hg.thread h) halive
  have hledger : ∀ pc subs ids handled, Ledger { g with
      pc := pc, pendingSubmissions := subs, pendingCancels := ids, handled := handled } :=
    fun _ _ _ _ => hg.toLedger.of_eq rfl rfl (List.prefix_refl _) (fun _ h => h)
  have hframe : ∀ pc subs ids handled, Frame g { g with
      pc := pc, pendingSubmissions := subs, pendingCancels := ids, handled := handled } :=
    fun _ _ _ _ => Frame.of_eq rfl (List.prefix_refl _) (fun _ h => h)
  cases h with
  | idle => exact ⟨hg, Frame.refl g⟩
  | jump pc halive hadmission hcancel hreap =>
      refine ⟨⟨hledger _ _ _ _, ?_, ?_, ?_, fun h => hthread halive h _⟩, hframe _ _ _ _⟩
      · rw [hadmission]
        exact hbacklog
      · rw [hcancel]
        exact hcancelled
      · rw [hreap]
        intro id hid
        cases hid
  | drainSubmissions hpc =>
      rw [hpc] at hbacklog hcancelled hthread
      refine ⟨⟨hledger _ _ _ _, ?_, hcancelled, ?_, fun h => hthread nofun h _⟩, hframe _ _ _ _⟩
      · rw [List.append_nil]
        exact hbacklog
      · intro id hid
        cases hid
  | @admission sub rest q w hpc hq =>
      have hadmitted := hg.toLedger.admitted hq w (hg.next_accepted hpc) (hsafe sub rest hpc)
      rw [hpc] at hbacklog hcancelled hthread
      refine ⟨⟨hadmitted.of_eq rfl rfl (List.prefix_refl _) (fun _ h => h), ?_, hcancelled, ?_,
        fun h => hthread nofun h _⟩, Frame.admitted q w _ _⟩
      · change g.accepted.drop (g.owned + 1) = rest ++ g.pendingSubmissions
        rw [← List.drop_drop, hbacklog]
        rfl
      · intro id hid
        cases hid
  | drainCancels hpc =>
      rw [hpc] at hbacklog hcancelled hthread
      refine ⟨⟨hledger _ _ _ _, hbacklog, ?_, ?_, fun h => hthread nofun h _⟩, hframe _ _ _ _⟩
      · rw [List.append_nil, hcancelled]
        simp [EnginePc.cancelBatch]
      · intro id hid
        cases hid
  | @cancelInactive id rest t hpc hcancel he =>
      rw [hg.cancel_inactive he] at hcancel
      cases hcancel
      rw [hpc] at hbacklog hcancelled hthread
      refine ⟨⟨hledger _ _ _ _, hbacklog, ?_, ?_, fun h => hthread nofun h _⟩, hframe _ _ _ _⟩
      · rw [hcancelled]
        simp [EnginePc.cancelBatch]
      · intro a ha
        cases ha
  | @cancelActive id rest t e hpc hcancel he =>
      rw [hpc] at hcancelled
      refine hg.closeEntry (FifoScheduler.cancel_cancelled hg.partition hcancel) he
        (hg.terminal_of_cancel he hcancel) .cancel (by simp [hpc]) (by rw [hpc]; rfl) ?_ ?_
      · rw [hcancelled]
        simp [EnginePc.cancelBatch]
      · intro a ha
        cases ha
  | @tick done hpc htick =>
      obtain ⟨ht, -, hsize, hticked⟩ := (FifoScheduler.tick_evolves hg.partition).ok htick
      have hmoved := hg.toLedger.ticked ht hsize hticked
      rw [hpc] at hbacklog hcancelled hthread
      refine ⟨⟨hmoved.of_eq rfl rfl (List.prefix_refl _) (fun _ h => h), ?_, hcancelled, ?_,
        fun h => hthread nofun h _⟩, Frame.ticked hsize hticked _⟩
      · change g.accepted.drop done.1.requests.size = _
        rw [hsize]
        exact hbacklog
      · intro a ha
        cases ha
  | push steadyNow hpc he => exact hg.pushEvent he _ hpc steadyNow
  | @expel id toCancel t e hpc hid hcancel he =>
      rw [hpc] at hcancelled
      refine hg.closeEntry (FifoScheduler.cancel_cancelled hg.partition hcancel) he
        (hg.terminal_of_cancel he hcancel) .backpressure (by simp [hpc]) (by rw [hpc]; rfl)
        hcancelled ?_
      intro a ha
      cases ha
  | reapTerminal hpc =>
      rw [hpc] at hbacklog hcancelled hthread
      refine ⟨⟨hledger _ _ _ _, hbacklog, hcancelled, ?_, fun h => hthread nofun h _⟩, hframe _ _ _ _⟩
      intro id hid e he
      have hselected := List.of_mem_filter (show id ∈ g.select g.isDelivered from hid)
      rw [show g.active.find id = some e from he] at hselected
      exact hselected
  | @reap id toReap e hpc hid he =>
      have hdelivered := hg.delivered
      rw [hpc] at hcancelled hdelivered
      have hterminal : (g.scheduler.state e.request).isTerminal = true := by
        have hdone := hdelivered id hid e he
        simp only [isDelivered, Bool.and_eq_true] at hdone
        exact hdone.1
      refine hg.closeEntry ⟨hg.partition, rfl, fun p => .inl rfl⟩ he hterminal .reap
        (by simp [hpc]) (by rw [hpc]; rfl) hcancelled ?_
      intro a ha e' _ h
      exact hdelivered a (List.mem_of_mem_erase ha) e' h

variable [Environment ω]

theorem step [AlignedBackend ω] (hg : Books g) (hsafe : AdmitSafe g) {a : EngineAction ω}
    (h : g.step a = .ok g') : Books g' ∧ Frame g g' := by
  rcases step_cases h with houtside | ⟨choice, steadyNow, -, hmove⟩
  · exact hg.outside houtside
  · exact hg.move hsafe hmove

end Books

/-! ### Runs -/

section Runs

variable {g g' : Engine ω}

/-- All submissions the engine has accepted have ids of their own. -/
def DistinctIds (g : Engine ω) : Prop := (g.accepted.map (fun sub => sub.id)).Nodup

theorem DistinctIds.of_isPrefix (h : g'.DistinctIds) (haccepted : g.accepted <+: g'.accepted) :
    g.DistinctIds := nodup_map_of_isPrefix h haccepted

/-- With distinct ids, an accepted submission is found by its id. -/
theorem DistinctIds.index_eq (h : g.DistinctIds) {i j : Nat} {sub sub' : Submission}
    (hi : g.accepted[i]? = some sub) (hj : g.accepted[j]? = some sub') (hid : sub.id = sub'.id) :
    i = j := index_eq_of_nodup_map h hi hj hid

/-- A submission that is not admitted yet cannot have the id of one that is. -/
theorem Books.admitSafe (hg : Books g) (hdistinct : g.DistinctIds) : AdmitSafe g := by
  intro sub rest hpc hmem
  obtain ⟨e, he⟩ := FinMap.exists_find_of_mem hmem
  obtain ⟨hlt, hkey, sub', hsub', -⟩ := hg.entry sub.id e he
  rw [hg.requestId _ _ hlt hsub'] at hkey
  exact (Nat.ne_of_lt hlt) (hdistinct.index_eq hsub' (hg.next_accepted hpc) hkey)

variable [Clock ω] [InferenceBackend ω]

theorem Move.accepted (h : Move g g') : g'.accepted = g.accepted := by
  cases h with
  | push =>
      unfold pushEvent
      simp only
      split_ifs <;> rfl
  | _ => rfl

variable [Environment ω]

theorem step_accepted {a : EngineAction ω} (h : g.step a = .ok g') :
    g.accepted <+: g'.accepted := by
  rcases step_cases h with houtside | ⟨choice, steadyNow, -, hmove⟩
  · obtain ⟨subs, haccepted, -⟩ := houtside.submissions
    exact haccepted ▸ List.prefix_append _ _
  · rw [hmove.accepted]

theorem run_accepted {actions : List (EngineAction ω)} (h : run step g actions = .ok g') :
    g.accepted <+: g'.accepted := by
  have hall : Ensures (run Engine.step g actions) (fun _ => True)
      (fun g' => g.accepted <+: g'.accepted) := by
    refine run_ensures (fun u a hu => ?_) g (List.prefix_refl _) actions
    exact ensures_iff.mpr ⟨fun u' h' => hu.trans (step_accepted h'), fun _ _ => trivial⟩
  exact hall.ok h

/-- An invariant of the guarded runs with distinct ids: it may use the books. -/
theorem run_distinct_guarded [AlignedBackend ω] (inv : Engine ω → Prop)
    {guard : Engine ω → EngineAction ω → Prop}
    (hstep : ∀ g a g', Books g → Books g' → Frame g g' → g'.DistinctIds → inv g → guard g a →
      g.step a = .ok g' → inv g')
    (hg : Books g) (hinv : inv g) {actions : List (EngineAction ω)}
    (hguard : Guarded Engine.step guard g actions) (h : run step g actions = .ok g')
    (hdistinct : g'.DistinctIds) : Books g' ∧ inv g' := by
  have hall : Ensures (run Engine.step g actions) (fun _ => True)
      (fun g' => g'.DistinctIds → Books g' ∧ inv g') := by
    refine run_ensures_guarded (fun u a hu hmet => ?_) g (fun _ => ⟨hg, hinv⟩) actions hguard
    refine ensures_iff.mpr ⟨fun u' h' hdistinct' => ?_, fun _ _ => trivial⟩
    have hdistinct := hdistinct'.of_isPrefix (step_accepted h')
    obtain ⟨hbooks, huinv⟩ := hu hdistinct
    obtain ⟨hbooks', hframe⟩ := hbooks.step (hbooks.admitSafe hdistinct) h'
    exact ⟨hbooks', hstep u a u' hbooks hbooks' hframe hdistinct' huinv hmet h'⟩
  exact hall.ok h hdistinct

/-- An invariant of all runs with distinct ids. -/
theorem run_distinct [AlignedBackend ω] (inv : Engine ω → Prop)
    (hstep : ∀ g a g', Books g → Books g' → Frame g g' → g'.DistinctIds → inv g →
      g.step a = .ok g' → inv g')
    (hg : Books g) (hinv : inv g) {actions : List (EngineAction ω)}
    (h : run step g actions = .ok g') (hdistinct : g'.DistinctIds) : Books g' ∧ inv g' := by
  have hguard : Guarded Engine.step (fun _ _ => True) g actions :=
    guarded_of_forall (fun _ _ => trivial) g actions
  refine run_distinct_guarded inv ?_ hg hinv hguard h hdistinct
  intro u a u' hu hu' hframe hids huinv _ hok
  exact hstep u a u' hu hu' hframe hids huinv hok

/-- An invariant of a state and what the run has emitted. -/
theorem run_distinct_history [AlignedBackend ω] {β : Type}
    {emits : Engine ω → EngineAction ω → List β} (inv : List β → Engine ω → Prop)
    (hstep : ∀ past g a g', Books g → Books g' → Frame g g' → g'.DistinctIds → inv past g →
      g.step a = .ok g' → inv (past ++ emits g a) g')
    {past : List β} (hg : Books g) (hinv : inv past g) {actions : List (EngineAction ω)}
    (h : run step g actions = .ok g') (hdistinct : g'.DistinctIds) :
    Books g' ∧ inv (past ++ history step emits g actions) g' := by
  have hall : Ensures (run Engine.step g actions) (fun _ => True) (fun g' => g'.DistinctIds →
      Books g' ∧ inv (past ++ history Engine.step emits g actions) g') := by
    refine run_history (fun past u => u.DistinctIds → Books u ∧ inv past u) (fun past u a hu => ?_)
      past g (fun _ => ⟨hg, hinv⟩) actions
    refine ensures_iff.mpr ⟨fun u' h' hdistinct' => ?_, fun _ _ => trivial⟩
    have hdistinct := hdistinct'.of_isPrefix (step_accepted h')
    obtain ⟨hbooks, huinv⟩ := hu hdistinct
    obtain ⟨hbooks', hframe⟩ := hbooks.step (hbooks.admitSafe hdistinct) h'
    exact ⟨hbooks', hstep past u a u' hbooks hbooks' hframe hdistinct' huinv h'⟩
  exact hall.ok h hdistinct

theorem run_books [AlignedBackend ω] (w : ω) (timeout : Duration)
    (channels : ChannelPtr → TokenChannel) {actions : List (EngineAction ω)}
    (h : run step (new w timeout channels) actions = .ok g) (hdistinct : g.DistinctIds) : Books g :=
  (run_distinct (fun _ => True) (fun _ _ _ _ _ _ _ _ _ => trivial) (Books.new w timeout channels)
    trivial h hdistinct).1

end Runs

/-! ### A small system -/

/-- A prompt for one token, streamed to channel 0. -/
def oneToken : Submission := ⟨"a", [7], 1, 1000, 0⟩

/-- Three tokens, for a channel that may have less room. -/
def manyTokens : Submission := { oneToken with maxTokens := 3 }

def idleEngine : Engine MockBackend := new (.new ⟨0⟩ 1 5) 100 (fun _ => .new 4)

def engineSteps (n : Nat) : List (EngineAction MockBackend) := List.replicate n (.engine 0 0)

end Engine

end Tokamak
