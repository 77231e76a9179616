import Tokamak.EngineBooks

/-! What reaches the channels. The history of the engine's calls on a channel is a list of pushes,
ended by one close at most; the accepted pushes carry the request's output from its beginning, without
a gap and in order, up to the entry's cursor. The finish reason is what the engine sends along with
the last token of a terminal request, and here the code looks only at `is_terminal`. -/

open Outcome

namespace Tokamak

def ChannelCall.channel : ChannelCall → ChannelPtr
  | .tryPush channel _ _ => channel
  | .close channel _ => channel

/-- The event a call left in the channel, if it did. -/
def ChannelCall.delivery (c : ChannelPtr) : ChannelCall → Option TokenEvent
  | .tryPush channel event true => if channel = c then some event else none
  | .tryPush _ _ false => none
  | .close _ _ => none

namespace Engine

variable {ω : Type}

/-- The events a channel has accepted from the engine. -/
def delivered (g : Engine ω) (c : ChannelPtr) : List TokenEvent :=
  g.calls.filterMap (ChannelCall.delivery c)

/-- The token ids a channel has accepted from the engine. -/
def deliveredIds (g : Engine ω) (c : ChannelPtr) : List UInt32 :=
  (g.delivered c).map (fun event => event.tokenId)

/-- All submissions the engine has accepted have channels of their own. -/
def DistinctChannels (g : Engine ω) : Prop := (g.accepted.map (fun sub => sub.channel)).Nodup

/-- The streams, request by request. -/
structure Streams (g : Engine ω) : Prop where
  counted : ∀ i < g.owned, (g.scheduler.request i).outputTokensEmitted =
    (g.scheduler.request i).outputTokenIds.length
  untouched : ∀ call ∈ g.calls, ∃ i sub, i < g.owned ∧ g.accepted[i]? = some sub ∧
    sub.channel = call.channel
  unclosed : ∀ id e, g.active.find id = some e → ∀ closer, .close e.channel closer ∉ g.calls
  cursor : ∀ id e, g.active.find id = some e →
    e.lastSeenTokens ≤ (g.scheduler.request e.request).outputTokensEmitted ∧
      g.deliveredIds e.channel =
        (g.scheduler.request e.request).outputTokenIds.take e.lastSeenTokens
  stream : ∀ i sub, i < g.owned → g.accepted[i]? = some sub →
    g.deliveredIds sub.channel <+: (g.scheduler.request i).outputTokenIds
  reaped : ∀ i sub, i < g.owned → g.accepted[i]? = some sub → .close sub.channel .reap ∈ g.calls →
    (g.scheduler.state i).isTerminal = true ∧
      g.deliveredIds sub.channel = (g.scheduler.request i).outputTokenIds
  silent : g.calls.Pairwise (fun earlier later => ∀ closer, earlier ≠ .close later.channel closer)

section Calls

variable {g : Engine ω} {c : ChannelPtr}

theorem delivered_close (calls : List ChannelCall) (channel : ChannelPtr) (closer : Closer) :
    ({ g with calls := calls ++ [.close channel closer] } : Engine ω).delivered c =
      ({ g with calls := calls } : Engine ω).delivered c := by
  simp [delivered, ChannelCall.delivery]

theorem delivered_refused (calls : List ChannelCall) (channel : ChannelPtr) (event : TokenEvent) :
    ({ g with calls := calls ++ [.tryPush channel event false] } : Engine ω).delivered c =
      ({ g with calls := calls } : Engine ω).delivered c := by
  simp [delivered, ChannelCall.delivery]

theorem delivered_pushed (calls : List ChannelCall) (channel : ChannelPtr) (event : TokenEvent) :
    ({ g with calls := calls ++ [.tryPush channel event true] } : Engine ω).delivered c =
      ({ g with calls := calls } : Engine ω).delivered c ++ if channel = c then [event] else [] := by
  simp only [delivered, List.filterMap_append, List.filterMap_cons, List.filterMap_nil,
    ChannelCall.delivery]
  split_ifs <;> rfl

theorem deliveredIds_push_self (g : Engine ω) (channel : ChannelPtr) (event : TokenEvent)
    (accepted : Bool) :
    ({ g with calls := g.calls ++ [.tryPush channel event accepted] } :
      Engine ω).deliveredIds channel =
        if accepted then g.deliveredIds channel ++ [event.tokenId] else g.deliveredIds channel := by
  unfold deliveredIds
  cases accepted with
  | false => exact congrArg _ (delivered_refused g.calls channel event)
  | true => rw [delivered_pushed, if_pos rfl, if_pos rfl, List.map_append, List.map_singleton]

theorem deliveredIds_push_of_ne {channel : ChannelPtr} (hc : c ≠ channel) (event : TokenEvent)
    (accepted : Bool) :
    ({ g with calls := g.calls ++ [.tryPush channel event accepted] } : Engine ω).deliveredIds c =
      g.deliveredIds c := by
  unfold deliveredIds
  cases accepted with
  | false => rw [delivered_refused]
  | true => rw [delivered_pushed, if_neg hc.symm, List.append_nil]

/-- A push closes nothing. -/
theorem close_mem_of_push {calls : List ChannelCall} {channel : ChannelPtr} {event : TokenEvent}
    {accepted : Bool} {closer : Closer}
    (h : .close c closer ∈ calls ++ [ChannelCall.tryPush channel event accepted]) :
    .close c closer ∈ calls := by
  rcases List.mem_append.mp h with h | h
  · exact h
  · cases List.mem_singleton.mp h

theorem delivered_eq_nil (h : ∀ call ∈ g.calls, call.channel ≠ c) : g.delivered c = [] := by
  refine List.filterMap_eq_nil_iff.mpr (fun call hcall => ?_)
  have hne := h call hcall
  cases call with
  | close => rfl
  | tryPush channel event accepted =>
      cases accepted with
      | false => rfl
      | true => exact if_neg hne

end Calls

theorem DistinctChannels.index_eq {g : Engine ω} (h : g.DistinctChannels) {i j : Nat}
    {sub sub' : Submission} (hi : g.accepted[i]? = some sub) (hj : g.accepted[j]? = some sub')
    (hchannel : sub.channel = sub'.channel) : i = j := index_eq_of_nodup_map h hi hj hchannel

theorem DistinctChannels.of_isPrefix {g g' : Engine ω} (h : g'.DistinctChannels)
    (haccepted : g.accepted <+: g'.accepted) : g.DistinctChannels :=
  nodup_map_of_isPrefix h haccepted

/-- Entries of different ids stream to different channels. -/
theorem Ledger.id_eq_of_channel {g : Engine ω} (hg : Ledger g) (hchannels : g.DistinctChannels)
    {a a' : RequestId} {e e' : ActiveEntry} (he : g.active.find a = some e)
    (he' : g.active.find a' = some e') (h : e.channel = e'.channel) : a = a' := by
  obtain ⟨-, hkey, sub, hsub, hc⟩ := hg.entry a e he
  obtain ⟨-, hkey', sub', hsub', hc'⟩ := hg.entry a' e' he'
  have hrequest : e.request = e'.request :=
    hchannels.index_eq hsub hsub' (hc.trans (h.trans hc'.symm))
  rw [← hkey, ← hkey', hrequest]

namespace Streams

variable {g g' : Engine ω} {id : RequestId} {e : ActiveEntry}

theorem new (w : ω) (timeout : Duration) (channels : ChannelPtr → TokenChannel) :
    Streams (Engine.new w timeout channels) where
  counted i hi := absurd hi (Nat.not_lt_zero i)
  untouched call hcall := by cases hcall
  unclosed id e he := by simp [Engine.new] at he
  cursor id e he := by simp [Engine.new] at he
  stream i sub hi := absurd hi (Nat.not_lt_zero i)
  reaped i sub hi := absurd hi (Nat.not_lt_zero i)
  silent := List.Pairwise.nil

/-- Steps that touch neither the requests, nor the entries, nor the history. -/
theorem of_eq (h : Streams g) (hle : g.owned ≤ g.accepted.length)
    (hrequests : g'.scheduler.requests = g.scheduler.requests)
    (hactive : g'.active = g.active) (hcalls : g'.calls = g.calls)
    (haccepted : g.accepted <+: g'.accepted) : Streams g' := by
  have howned : g'.owned = g.owned := by
    unfold owned
    rw [hrequests]
  have hrequest : ∀ i, g'.scheduler.request i = g.scheduler.request i := by
    intro i
    unfold FifoScheduler.request
    rw [hrequests]
  have hsame : ∀ i < g.owned, g'.accepted[i]? = g.accepted[i]? := by
    intro i hi
    exact getElem?_of_isPrefix haccepted (lt_of_lt_of_le hi hle)
  have hids : ∀ c, g'.deliveredIds c = g.deliveredIds c := by
    intro c
    unfold deliveredIds delivered
    rw [hcalls]
  refine ⟨?_, ?_, ?_, ?_, ?_, ?_, ?_⟩
  · intro i hi
    rw [hrequest]
    exact h.counted i (howned ▸ hi)
  · rw [hcalls, howned]
    intro call hcall
    obtain ⟨i, sub, hi, hsub, hc⟩ := h.untouched call hcall
    exact ⟨i, sub, hi, (hsame i hi).trans hsub, hc⟩
  · rw [hactive, hcalls]
    exact h.unclosed
  · rw [hactive]
    intro id e he
    rw [hrequest, hids]
    exact h.cursor id e he
  · intro i sub hi hsub
    rw [howned] at hi
    rw [hids, hrequest]
    exact h.stream i sub hi ((hsame i hi).symm.trans hsub)
  · intro i sub hi hsub
    rw [howned] at hi
    rw [hcalls, hids, FifoScheduler.state, hrequest]
    exact h.reaped i sub hi ((hsame i hi).symm.trans hsub)
  · rw [hcalls]
    exact h.silent

/-- The scheduler moves on: outputs grow at their end, and those of terminal requests do not grow. -/
theorem evolved (h : Streams g) {t : FifoScheduler ω}
    (hentry : ∀ id e, g.active.find id = some e → e.request < g.owned)
    (hsize : t.requests.size = g.owned)
    (hevolved : ∀ i < g.owned, (g.scheduler.request i).Evolved (t.request i)) :
    Streams { g with scheduler := t } := by
  have howned : ({ g with scheduler := t } : Engine ω).owned = g.owned := hsize
  refine ⟨?_, ?_, h.unclosed, ?_, ?_, ?_, h.silent⟩
  · intro i hi
    rw [howned] at hi
    exact (hevolved i hi).counted (h.counted i hi)
  · rw [howned]
    exact h.untouched
  · intro id e he
    have hlt := hentry id e he
    obtain ⟨hle, hids⟩ := h.cursor id e he
    have hcount := h.counted _ hlt
    have hcount' := (hevolved _ hlt).counted hcount
    obtain ⟨more, hmore⟩ := (hevolved _ hlt).isPrefix
    change e.lastSeenTokens ≤ (t.request e.request).outputTokensEmitted ∧
      g.deliveredIds e.channel = (t.request e.request).outputTokenIds.take e.lastSeenTokens
    rw [hcount] at hle
    rw [hcount', ← hmore, List.length_append, List.take_append_of_le_length hle]
    exact ⟨hle.trans (Nat.le_add_right _ _), hids⟩
  · intro i sub hi hsub
    rw [howned] at hi
    exact (h.stream i sub hi hsub).trans (hevolved i hi).isPrefix
  · intro i sub hi hsub hclosed
    rw [howned] at hi
    obtain ⟨hterminal, hids⟩ := h.reaped i sub hi hsub hclosed
    change (t.request i).state.isTerminal = true ∧
      g.deliveredIds sub.channel = (t.request i).outputTokenIds
    rw [(hevolved i hi).eq_of_terminal hterminal]
    exact ⟨hterminal, hids⟩

/-- An entry leaves with a last call on its channel. -/
theorem closeEntry (h : Streams g) (hg : Ledger g) (hchannels : g.DistinctChannels)
    (he : g.active.find id = some e) (closer : Closer)
    (hreap : closer = .reap → g.isDelivered e = true) : Streams (g.closeEntry id e closer) := by
  obtain ⟨hlt, -, sub, hsub, hchannel⟩ := hg.entry id e he
  have hids : ∀ c, (g.closeEntry id e closer).deliveredIds c = g.deliveredIds c := by
    intro c
    unfold deliveredIds
    rw [show (g.closeEntry id e closer).delivered c = g.delivered c from
      delivered_close (g := g) g.calls e.channel closer]
  refine ⟨h.counted, ?_, ?_, ?_, ?_, ?_, ?_⟩
  · intro call hcall
    rcases List.mem_append.mp hcall with hcall | hcall
    · exact h.untouched call hcall
    · rw [List.mem_singleton.mp hcall]
      exact ⟨e.request, sub, hlt, hsub, hchannel⟩
  · intro a e' he' closer' hmem
    simp only [Engine.closeEntry, FinMap.find_erase] at he'
    split_ifs at he' with hne
    rcases List.mem_append.mp hmem with hmem | hmem
    · exact h.unclosed a e' he' closer' hmem
    · have hsame := (ChannelCall.close.inj (List.mem_singleton.mp hmem)).1
      exact hne (hg.id_eq_of_channel hchannels he' he hsame)
  · intro a e' he'
    simp only [Engine.closeEntry, FinMap.find_erase] at he'
    split_ifs at he' with hne
    rw [hids]
    exact h.cursor a e' he'
  · intro i sub' hi hsub'
    rw [hids]
    exact h.stream i sub' hi hsub'
  · intro i sub' hi hsub' hclosed
    rw [hids]
    rcases List.mem_append.mp hclosed with hclosed | hclosed
    · exact h.reaped i sub' hi hsub' hclosed
    · -- the close of this very step: everything had been delivered
      obtain ⟨hsame, hcloser⟩ := ChannelCall.close.inj (List.mem_singleton.mp hclosed)
      have hi' : i = e.request := hchannels.index_eq hsub' hsub (hsame.trans hchannel.symm)
      subst hi'
      obtain ⟨-, hdelivered⟩ := h.cursor id e he
      have hdone := hreap hcloser.symm
      simp only [isDelivered, Bool.and_eq_true, decide_eq_true_eq] at hdone
      refine ⟨hdone.1, ?_⟩
      rw [hsame, hdelivered]
      refine List.take_of_length_le ?_
      rw [← h.counted _ hlt]
      exact hdone.2
  · refine List.pairwise_append.mpr ⟨h.silent, List.pairwise_singleton _ _, ?_⟩
    intro earlier hearlier later hlater closer' heq
    rw [List.mem_singleton.mp hlater] at heq
    exact h.unclosed id e he closer' (heq ▸ hearlier)

/-- The channel of a submission that is not admitted yet has not been used. -/
theorem unused (h : Streams g) (hchannels : g.DistinctChannels) {sub : Submission}
    (hnext : g.accepted[g.owned]? = some sub) : ∀ call ∈ g.calls, call.channel ≠ sub.channel := by
  intro call hcall hc
  obtain ⟨i, sub', hi, hsub', hc'⟩ := h.untouched call hcall
  exact (Nat.ne_of_lt hi) (hchannels.index_eq hsub' hnext (hc'.trans hc))

/-- A new request has emitted nothing, and nothing was ever sent to its channel. -/
theorem admitted (h : Streams g) (hg : Ledger g) (hchannels : g.DistinctChannels) {sub : Submission}
    {q : Request} (hq : sub.Queued q) (w : ω) (hnext : g.accepted[g.owned]? = some sub)
    (hfree : sub.id ∉ g.active) :
    Streams { g with
      scheduler := g.scheduler.admitted q w
      active := g.active.emplace sub.id ⟨g.owned, sub.channel, 0, none⟩ } := by
  have hold : ∀ i < g.owned, (g.scheduler.admitted q w).request i = g.scheduler.request i :=
    fun i hi => FifoScheduler.request_admitted_of_lt g.scheduler q w hi
  have hnew : (g.scheduler.admitted q w).request g.owned = q :=
    FifoScheduler.request_admitted_self g.scheduler q w
  have hfresh := h.unused hchannels hnext
  have hempty : g.deliveredIds sub.channel = [] := by
    unfold deliveredIds
    rw [delivered_eq_nil hfresh, List.map_nil]
  rw [FinMap.emplace_of_notMem hfree]
  refine ⟨?_, ?_, ?_, ?_, ?_, ?_, h.silent⟩
  · intro i hi
    rcases Nat.lt_succ_iff_lt_or_eq.mp hi with hi | hi
    · rw [hold i hi]
      exact h.counted i hi
    · subst hi
      change ((g.scheduler.admitted q w).request g.owned).outputTokensEmitted =
        ((g.scheduler.admitted q w).request g.owned).outputTokenIds.length
      rw [hnew, hq.outputTokenIds, hq.outputTokensEmitted]
      rfl
  · intro call hcall
    obtain ⟨i, sub', hi, hsub', hc⟩ := h.untouched call hcall
    exact ⟨i, sub', Nat.lt_succ_of_lt hi, hsub', hc⟩
  · intro a e' he' closer hmem
    rw [FinMap.find_insert] at he'
    split_ifs at he' with ha
    · cases he'
      exact hfresh _ hmem rfl
    · exact h.unclosed a e' he' closer hmem
  · intro a e' he'
    rw [FinMap.find_insert] at he'
    split_ifs at he' with ha
    · cases he'
      exact ⟨Nat.zero_le _, hempty⟩
    · change e'.lastSeenTokens ≤ ((g.scheduler.admitted q w).request e'.request).outputTokensEmitted ∧
        g.deliveredIds e'.channel = _
      rw [hold _ (hg.entry a e' he').1]
      exact h.cursor a e' he'
  · intro i sub' hi hsub'
    rcases admitted_cases q w hnext hi hsub' with ⟨hi, hsame⟩ | ⟨-, rfl, -⟩
    · change g.deliveredIds sub'.channel <+: ((g.scheduler.admitted q w).request i).outputTokenIds
      rw [hsame]
      exact h.stream i sub' hi hsub'
    · change g.deliveredIds sub'.channel <+: _
      rw [hempty]
      exact List.nil_prefix
  · intro i sub' hi hsub' hclosed
    rcases admitted_cases q w hnext hi hsub' with ⟨hi, hsame⟩ | ⟨-, rfl, -⟩
    · change ((g.scheduler.admitted q w).request i).state.isTerminal = true ∧
        g.deliveredIds sub'.channel = ((g.scheduler.admitted q w).request i).outputTokenIds
      rw [hsame]
      exact h.reaped i sub' hi hsub' hclosed
    · exact absurd rfl (hfresh _ hclosed)

/-- One more call on the channel of an entry: the cursor moves exactly when the event is accepted. -/
theorem pushed (h : Streams g) (hg : Ledger g) (hchannels : g.DistinctChannels)
    (he : g.active.find id = some e) {tokenId : UInt32} (reason : FinishReason)
    (hunseen : e.lastSeenTokens < (g.scheduler.request e.request).outputTokensEmitted)
    (htoken : (g.scheduler.request e.request).outputTokenIds[e.lastSeenTokens]? = some tokenId)
    (accepted : Bool) {e' : ActiveEntry} (hrequest : e'.request = e.request)
    (hchannel' : e'.channel = e.channel)
    (hseen : e'.lastSeenTokens = if accepted then e.lastSeenTokens + 1 else e.lastSeenTokens)
    (channels : ChannelPtr → TokenChannel) (pc : EnginePc) :
    Streams { g with
      active := g.active.replace id e'
      channels := channels
      calls := g.calls ++ [.tryPush e.channel ⟨tokenId, reason⟩ accepted]
      pc := pc } := by
  obtain ⟨hlt, -, sub, hsub, hchannel⟩ := hg.entry id e he
  obtain ⟨hle, hcursor⟩ := h.cursor id e he
  have hfind : ∀ a, FinMap.find (g.active.replace id e') a =
      if a = id then some e' else g.active.find a := fun a =>
    FinMap.find_replace (FinMap.mem_of_find he) a e'
  have hself : ({ g with calls := g.calls ++ [.tryPush e.channel ⟨tokenId, reason⟩ accepted] } :
      Engine ω).deliveredIds e.channel =
        (g.scheduler.request e.request).outputTokenIds.take e'.lastSeenTokens := by
    rw [deliveredIds_push_self, hseen]
    split_ifs
    · rw [List.take_add_one, htoken, hcursor]
      rfl
    · exact hcursor
  refine ⟨h.counted, ?_, ?_, ?_, ?_, ?_, ?_⟩
  · intro call hcall
    rcases List.mem_append.mp hcall with hcall | hcall
    · exact h.untouched call hcall
    · rw [List.mem_singleton.mp hcall]
      exact ⟨e.request, sub, hlt, hsub, hchannel⟩
  · intro a e'' he'' closer hmem
    rw [hfind] at he''
    split_ifs at he'' with ha
    · cases he''
      rw [hchannel'] at hmem
      exact h.unclosed id e he closer (close_mem_of_push hmem)
    · exact h.unclosed a e'' he'' closer (close_mem_of_push hmem)
  · intro a e'' he''
    rw [hfind] at he''
    split_ifs at he'' with ha
    · cases he''
      rw [hrequest, hchannel']
      refine ⟨?_, hself⟩
      rw [hseen]
      split_ifs
      · exact hunseen
      · exact hle
    · have hne : e''.channel ≠ e.channel := fun hc =>
        ha (hg.id_eq_of_channel hchannels he'' he hc)
      refine ⟨(h.cursor a e'' he'').1, ?_⟩
      exact (deliveredIds_push_of_ne hne _ _).trans (h.cursor a e'' he'').2
  · intro i sub' hi hsub'
    by_cases hc : sub'.channel = e.channel
    · have hi' : i = e.request := hchannels.index_eq hsub' hsub (hc.trans hchannel.symm)
      subst hi'
      rw [hc]
      exact hself ▸ List.take_prefix _ _
    · have hsame := deliveredIds_push_of_ne (g := g) hc ⟨tokenId, reason⟩ accepted
      exact hsame ▸ h.stream i sub' hi hsub'
  · intro i sub' hi hsub' hclosed
    have hold := close_mem_of_push hclosed
    have hc : sub'.channel ≠ e.channel := fun hc => h.unclosed id e he _ (hc ▸ hold)
    have hsame := deliveredIds_push_of_ne (g := g) hc ⟨tokenId, reason⟩ accepted
    exact hsame ▸ h.reaped i sub' hi hsub' hold
  · refine List.pairwise_append.mpr ⟨h.silent, List.pairwise_singleton _ _, ?_⟩
    intro earlier hearlier later hlater closer heq
    rw [List.mem_singleton.mp hlater] at heq
    exact h.unclosed id e he closer (heq ▸ hearlier)

theorem outside (h : Streams g) (hg : Ledger g) (hstep : Outside g g') : Streams g' := by
  obtain ⟨w, hscheduler⟩ := hstep.world
  obtain ⟨subs, haccepted, -⟩ := hstep.submissions
  refine h.of_eq hg.owned_le ?_ hstep.active hstep.calls (haccepted ▸ List.prefix_append _ _)
  rw [hscheduler]

/-- Closing an entry whose request a cancel has just made terminal. -/
theorem cancelled (h : Streams g) (hg : Ledger g) (hchannels : g.DistinctChannels)
    (he : g.active.find id = some e) {t : FifoScheduler ω}
    (ht : FifoScheduler.CancelledById g.scheduler id t) (closer : Closer) (hcloser : closer ≠ .reap)
    (handled : List RequestId) (pc : EnginePc) :
    Streams { ({ g with scheduler := t, handled := handled }.closeEntry id e closer) with
      pc := pc } := by
  have hclosed := h.closeEntry hg hchannels he closer (fun hreap => absurd hreap hcloser)
  have hentry : ∀ a e', (g.closeEntry id e closer).active.find a = some e' → e'.request < g.owned := by
    intro a e' he'
    simp only [Engine.closeEntry, FinMap.find_erase] at he'
    split_ifs at he'
    exact (hg.entry a e' he').1
  have hmoved := hclosed.evolved hentry ht.size (fun i _ => ht.evolved hg.partition i)
  refine hmoved.of_eq ?_ rfl rfl rfl (List.prefix_refl _)
  exact ht.size.le.trans hg.owned_le

variable [Clock ω] [InferenceBackend ω] [AlignedBackend ω]

theorem move (h : Streams g) (hg : Books g) (hsafe : AdmitSafe g) (hchannels : g.DistinctChannels)
    (hmove : Move g g') : Streams g' := by
  have hledger := hg.toLedger
  cases hmove with
  | idle => exact h
  | jump => exact h.of_eq hg.owned_le rfl rfl rfl (List.prefix_refl _)
  | drainSubmissions => exact h.of_eq hg.owned_le rfl rfl rfl (List.prefix_refl _)
  | @admission sub rest q w hpc hq =>
      have hnext := hg.next_accepted hpc
      have hadmitted := h.admitted hledger hchannels hq w hnext (hsafe sub rest hpc)
      refine hadmitted.of_eq ?_ rfl rfl rfl (List.prefix_refl _)
      exact (List.getElem?_eq_some_iff.mp hnext).1
  | drainCancels => exact h.of_eq hg.owned_le rfl rfl rfl (List.prefix_refl _)
  | cancelInactive hpc hcancel he =>
      rw [hg.cancel_inactive he] at hcancel
      cases hcancel
      exact h.of_eq hg.owned_le rfl rfl rfl (List.prefix_refl _)
  | cancelActive hpc hcancel he =>
      have ht := FifoScheduler.cancel_cancelled hg.partition hcancel
      exact h.cancelled hledger hchannels he ht .cancel (by decide) _ _
  | @tick done hpc htick =>
      obtain ⟨ht, -, hsize, hticked⟩ := (FifoScheduler.tick_evolves hg.partition).ok htick
      have hmoved := h.evolved (fun id e he => (hg.entry id e he).1) hsize
        (fun i hi => (hticked i hi).evolved)
      exact hmoved.of_eq (hsize.le.trans hg.owned_le) rfl rfl rfl (List.prefix_refl _)
  | @push id todo e tokenId steadyNow hpc he hunseen htoken =>
      obtain ⟨e', channels, pc, hrequest, hchannel, hseen, -, -, heq⟩ := pushEvent_eq g id e
        ⟨tokenId, finishReason (g.scheduler.request e.request) e.lastSeenTokens⟩ todo steadyNow
      rw [heq]
      exact h.pushed hledger hchannels he _ hunseen htoken _ hrequest hchannel hseen _ _
  | expel hpc hid hcancel he =>
      have ht := FifoScheduler.cancel_cancelled hg.partition hcancel
      exact h.cancelled hledger hchannels he ht .backpressure (by decide) _ _
  | reapTerminal => exact h.of_eq hg.owned_le rfl rfl rfl (List.prefix_refl _)
  | @reap id toReap e hpc hid he =>
      have hdelivered := hg.delivered
      rw [hpc] at hdelivered
      have hclosed := h.closeEntry hledger hchannels he .reap (fun _ => hdelivered id hid e he)
      exact hclosed.of_eq hg.owned_le rfl rfl rfl (List.prefix_refl _)

theorem step [Environment ω] (h : Streams g) (hg : Books g) (hsafe : AdmitSafe g)
    (hchannels : g.DistinctChannels) {a : EngineAction ω} (hstep : g.step a = .ok g') :
    Streams g' := by
  rcases step_cases hstep with houtside | ⟨choice, steadyNow, -, hmove⟩
  · exact h.outside hg.toLedger houtside
  · exact h.move hg hsafe hchannels hmove

end Streams

section Runs

variable [Clock ω] [InferenceBackend ω] [Environment ω]

/-- **Tokens arrive in order, without gaps, and once.** In every run with distinct ids and channels: a
channel has accepted exactly the first `last_seen_tokens` tokens of the request of its active entry,
and a prefix of the output of a request that has no entry any more; a channel is closed by
`reap_terminal` only when it has accepted the whole output of its request; and the engine makes no
call on a channel it has closed. -/
theorem tokens_streamed [AlignedBackend ω] (w : ω) (timeout : Duration)
    (channels : ChannelPtr → TokenChannel) (actions : List (EngineAction ω)) (g : Engine ω)
    (hrun : run step (new w timeout channels) actions = .ok g) (hids : g.DistinctIds)
    (hchannels : g.DistinctChannels) :
    (∀ id e, g.active.find id = some e → ∃ sub, g.accepted[e.request]? = some sub ∧
      sub.id = id ∧ sub.channel = e.channel ∧
        g.deliveredIds e.channel =
          (g.scheduler.request e.request).outputTokenIds.take e.lastSeenTokens ∧
        e.lastSeenTokens ≤ (g.scheduler.request e.request).outputTokenIds.length) ∧
    (∀ i sub, i < g.owned → g.accepted[i]? = some sub →
      g.deliveredIds sub.channel <+: (g.scheduler.request i).outputTokenIds) ∧
    (∀ i sub, i < g.owned → g.accepted[i]? = some sub → .close sub.channel .reap ∈ g.calls →
      (g.scheduler.state i).isTerminal = true ∧
        g.deliveredIds sub.channel = (g.scheduler.request i).outputTokenIds) ∧
    g.calls.Pairwise (fun earlier later => ∀ closer, earlier ≠ .close later.channel closer) := by
  have hend := run_distinct (fun u => u.DistinctChannels → Streams u)
    (fun u a u' hu hu' hframe hids' hstreams hstep hchannels' =>
      have hchannels := hchannels'.of_isPrefix hframe.accepted
      have hsafe := hu.admitSafe (hids'.of_isPrefix hframe.accepted)
      (hstreams hchannels).step hu hsafe hchannels hstep)
    (Books.new w timeout channels) (fun _ => Streams.new w timeout channels) hrun hids
  have hbooks := hend.1
  have hstreams := hend.2 hchannels
  refine ⟨?_, hstreams.stream, hstreams.reaped, hstreams.silent⟩
  intro id e he
  obtain ⟨hlt, hkey, sub, hsub, hchannel⟩ := hbooks.entry id e he
  obtain ⟨hle, hdelivered⟩ := hstreams.cursor id e he
  rw [hstreams.counted _ hlt] at hle
  exact ⟨sub, hsub, (hbooks.requestId _ sub hlt hsub).symm.trans hkey, hchannel, hdelivered, hle⟩

/-- Channels that hold one event each. -/
def narrowEngine : Engine MockBackend := new (.new ⟨0⟩ 1 5) 100 (fun _ => .new 1)

def twoTokens : Submission := { oneToken with id := "b", maxTokens := 2, channel := 1 }

/-- Two requests for several tokens, whose consumers read slowly but to the end. -/
def slowReaders : List (EngineAction MockBackend) :=
  [.start, .submit manyTokens, .push 0, .submit twoTokens, .push 0] ++ engineSteps 30 ++ [.pop 0] ++
    engineSteps 30 ++ [.pop 0, .pop 1] ++ engineSteps 40 ++ [.pop 0, .pop 1] ++ engineSteps 20

/-- Pushes are refused on both channels, and all tokens arrive nevertheless. -/
theorem tokens_streamed_slowReaders :
    ∃ g : Engine MockBackend, run step narrowEngine slowReaders = .ok g ∧
      .tryPush 0 ⟨3, .length⟩ false ∈ g.calls ∧ .tryPush 1 ⟨2, .length⟩ false ∈ g.calls ∧
      g.deliveredIds 0 = (g.scheduler.request 0).outputTokenIds ∧
      g.deliveredIds 1 = (g.scheduler.request 1).outputTokenIds ∧
      (g.deliveredIds 0, g.deliveredIds 1) = ([1, 2, 3], [1, 2]) ∧
      g.calls.Pairwise (fun earlier later => ∀ closer, earlier ≠ .close later.channel closer) := by
  obtain ⟨g, hrun, hview⟩ := exists_of_map_ok (x := run step narrowEngine slowReaders)
    (f := fun g => (g.accepted, g.owned, decide (.tryPush 0 ⟨3, .length⟩ false ∈ g.calls ∧
      .tryPush 1 ⟨2, .length⟩ false ∈ g.calls ∧ .close 0 .reap ∈ g.calls ∧ .close 1 .reap ∈ g.calls),
      g.deliveredIds 0, g.deliveredIds 1))
    (b := ([manyTokens, twoTokens], 2, true, [1, 2, 3], [1, 2])) (by decide +kernel)
  simp only [Prod.mk.injEq, decide_eq_true_eq] at hview
  obtain ⟨haccepted, howned, ⟨hrefused, hrefused', hreaped, hreaped'⟩, hfirst, hsecond⟩ := hview
  obtain ⟨-, -, hreap, hsilent⟩ := tokens_streamed (MockBackend.new ⟨0⟩ 1 5) 100 (fun _ => .new 1) _ g
    hrun (by rw [DistinctIds, haccepted]; decide) (by rw [DistinctChannels, haccepted]; decide)
  have hsub : g.accepted[0]? = some manyTokens := by
    rw [haccepted]
    rfl
  have hsub' : g.accepted[1]? = some twoTokens := by
    rw [haccepted]
    rfl
  refine ⟨g, hrun, hrefused, hrefused', ?_, ?_, by rw [hfirst, hsecond], hsilent⟩
  · exact (hreap 0 manyTokens (by rw [howned]; decide) hsub hreaped).2
  · exact (hreap 1 twoTokens (by rw [howned]; decide) hsub' hreaped').2

end Runs

end Engine

end Tokamak
