import Tokamak.EngineSafety
import Tokamak.Potential

/-! Progress of the engine thread. The steps it takes from one tick to the next are bounded by what is
there to be done: the tokens that are not yet sent, the submissions and cancels that are not yet
handled, and the entries that its loops go through. What clients do meanwhile adds one step each. So
waiting for the thread is bounded, whatever the interleaving: `stop` returns, and a submission is
answered. -/

open Outcome

namespace Tokamak

/-- The steps to the next tick, without those that are due to tokens, submissions and cancels. -/
def EnginePc.stepsToTick (entries : Nat) : EnginePc → Nat
  | .exited => 0
  | .loopTest => 6
  | .awake => 5
  | .drainSubmissions => 4
  | .admitting _ => 3
  | .drainCancels => 2
  | .cancelling _ => 1
  | .tick => 0
  | .pushTokens todo => 2 * todo.length + 2 * entries + 11
  | .pushing _ todo => 2 * todo.length + 2 * entries + 12
  | .checkBackpressure => 2 * entries + 10
  | .expelling toCancel => toCancel.length + entries + 9
  | .reapTerminal => entries + 8
  | .reaping toReap => toReap.length + 7

/-- The positions between the swap of the submissions and the tick. -/
def EnginePc.swapped : EnginePc → Bool
  | .admitting _ => true
  | .drainCancels => true
  | .cancelling _ => true
  | .tick => true
  | _ => false

theorem Request.Ticked.emitted_le_succ {q q' : Request} (h : Ticked q q') :
    q'.outputTokensEmitted ≤ q.outputTokensEmitted + 1 := by
  cases h with
  | frozen => exact Nat.le_succ _
  | advanced _ hadvanced =>
      cases hadvanced with
      | failed _ htokens => exact htokens.outputTokensEmitted.le.trans (Nat.le_succ _)
      | emitted _ _ _ _ _ hcount => exact hcount.le

/-- One more for each element at most. -/
theorem sum_map_le_add_length {α : Type} {f f' : α → Nat} {items : List α}
    (h : ∀ a ∈ items, f' a ≤ f a + 1) : (items.map f').sum ≤ (items.map f).sum + items.length := by
  induction items with
  | nil => exact le_rfl
  | cons a rest ih =>
      have hhead := h a List.mem_cons_self
      have htail := ih (fun b hb => h b (List.mem_cons_of_mem a hb))
      rw [List.map_cons, List.sum_cons, List.map_cons, List.sum_cons, List.length_cons]
      omega

variable {ω : Type}

namespace Engine

variable {g g' : Engine ω} {id : RequestId} {e : ActiveEntry}

/-- The entries point to requests of the scheduler. -/
def EntriesOwned (g : Engine ω) : Prop := ∀ id e, g.active.find id = some e → e.request < g.owned

/-- The tokens of an entry that its channel has not accepted yet. -/
def lag (g : Engine ω) (e : ActiveEntry) : Nat :=
  (g.scheduler.request e.request).outputTokensEmitted - e.lastSeenTokens

/-- The same by the entry's id. -/
def lagOf (g : Engine ω) (id : RequestId) : Nat := ((g.active.find id).map g.lag).getD 0

/-- The tokens that are not sent yet. -/
def unsent (g : Engine ω) : Nat := (g.active.keys.map g.lagOf).sum

/-- The submissions and cancels the engine thread has not handled yet. -/
def backlog (g : Engine ω) : Nat :=
  g.pc.admitBatch.length + g.pendingSubmissions.length +
    (g.pc.cancelBatch.length + g.pendingCancels.length)

/-- The steps to the next tick. -/
def debt (g : Engine ω) : Nat := g.unsent + g.backlog + g.pc.stepsToTick g.active.keys.length

/-- The entries there are and will be without further submissions. -/
def load (g : Engine ω) : Nat :=
  g.active.keys.length + (g.pc.admitBatch.length + g.pendingSubmissions.length)

theorem lagOf_of_find (h : g.active.find id = some e) : g.lagOf id = g.lag e := by
  unfold lagOf
  rw [h]
  rfl

/-! ### What is not sent yet -/

theorem unsent_eq_of_mem (hid : id ∈ g.active) :
    g.unsent = g.lagOf id + ((g.active.keys.erase id).map g.lagOf).sum :=
  (List.sum_map_erase g.lagOf (AList.mem_keys.mp hid)).symm

theorem unsent_congr (hactive : g'.active = g.active)
    (hemitted : ∀ p, (g'.scheduler.request p).outputTokensEmitted =
      (g.scheduler.request p).outputTokensEmitted) : g'.unsent = g.unsent := by
  unfold unsent lagOf
  rw [hactive]
  refine congrArg List.sum (List.map_congr_left (fun id _ => ?_))
  cases g.active.find id with
  | none => rfl
  | some e =>
      change g'.lag e = g.lag e
      unfold lag
      rw [hemitted]

/-- An entry that is closed takes its tokens with it. -/
theorem unsent_erase {a : RequestId} (hactive : g'.active = g.active.erase a)
    (hemitted : ∀ p, (g'.scheduler.request p).outputTokensEmitted =
      (g.scheduler.request p).outputTokensEmitted) : g'.unsent ≤ g.unsent := by
  have hsame : (g'.active.keys.map g'.lagOf).sum = (g'.active.keys.map g.lagOf).sum := by
    refine congrArg List.sum (List.map_congr_left (fun id hid => ?_))
    rw [hactive, AList.keys_erase, g.active.keys_nodup.mem_erase_iff] at hid
    unfold lagOf
    rw [hactive, FinMap.find_erase, if_neg hid.1]
    cases g.active.find id with
    | none => rfl
    | some e =>
        change g'.lag e = g.lag e
        unfold lag
        rw [hemitted]
  unfold unsent
  rw [hsame, hactive, AList.keys_erase]
  by_cases ha : a ∈ g.active.keys
  · rw [← List.sum_map_erase g.lagOf ha]
    exact Nat.le_add_left _ _
  · rw [List.erase_of_not_mem ha]

variable (g') in
/-- A new request has emitted nothing. -/
theorem unsent_admitted (hentries : EntriesOwned g) {sub : Submission} {q : Request} (hq : sub.Queued q) (w : ω)
    (hscheduler : g'.scheduler = g.scheduler.admitted q w)
    (hactive : g'.active = g.active.emplace sub.id ⟨g.owned, sub.channel, 0, none⟩) :
    g'.unsent = g.unsent ∧ g'.active.keys.length ≤ g.active.keys.length + 1 := by
  have hold : ∀ id e, g.active.find id = some e → g'.lag e = g.lag e := by
    intro id e he
    unfold lag
    rw [hscheduler, FifoScheduler.request_admitted_of_lt g.scheduler q w (hentries id e he)]
  have hlag : ∀ id, (g.active.find id).map g'.lag = (g.active.find id).map g.lag := by
    intro id
    cases he : g.active.find id with
    | none => rfl
    | some e => exact congrArg some (hold id e he)
  by_cases hmem : sub.id ∈ g.active
  · rw [FinMap.emplace_of_mem hmem] at hactive
    refine ⟨?_, by rw [hactive]; exact Nat.le_succ _⟩
    unfold unsent lagOf
    rw [hactive]
    exact congrArg List.sum (List.map_congr_left (fun id _ => by rw [hlag]))
  · rw [FinMap.emplace_of_notMem hmem] at hactive
    have hkeys : g'.active.keys = sub.id :: g.active.keys := by
      rw [hactive, AList.keys_insert, List.erase_of_not_mem (fun h => hmem (AList.mem_keys.mpr h))]
    refine ⟨?_, by rw [hkeys]; exact le_rfl⟩
    have hnew : g'.lagOf sub.id = 0 := by
      unfold lagOf
      rw [hactive, FinMap.find_insert, if_pos rfl]
      change (g'.scheduler.request g.owned).outputTokensEmitted - 0 = 0
      rw [hscheduler]
      change ((g.scheduler.admitted q w).request g.scheduler.requests.size).outputTokensEmitted - 0 = 0
      rw [FifoScheduler.request_admitted_self, hq.outputTokensEmitted]
    unfold unsent
    rw [hkeys, List.map_cons, List.sum_cons, hnew, Nat.zero_add]
    refine congrArg List.sum (List.map_congr_left (fun id hid => ?_))
    have hne : id ≠ sub.id := fun h => hmem (AList.mem_keys.mpr (h ▸ hid))
    unfold lagOf
    rw [hactive, FinMap.find_insert, if_neg hne, hlag]

variable (g') in
/-- A tick emits one token for each entry at most. -/
theorem unsent_ticked (hentries : EntriesOwned g) (hactive : g'.active = g.active)
    (hticked : ∀ i < g.owned, (g.scheduler.request i).Ticked (g'.scheduler.request i)) :
    g'.unsent ≤ g.unsent + g.active.keys.length := by
  unfold unsent
  rw [hactive]
  refine sum_map_le_add_length (fun id _ => ?_)
  unfold lagOf
  rw [hactive]
  cases he : g.active.find id with
  | none => exact Nat.zero_le _
  | some e =>
      have hle := (hticked e.request (hentries id e he)).emitted_le_succ
      change g'.lag e ≤ g.lag e + 1
      unfold lag
      omega

/-- A push moves the cursor of one entry, or leaves it where it is. -/
theorem unsent_replaced (he : g.active.find id = some e) {e' : ActiveEntry}
    (hactive : g'.active = g.active.replace id e') (hscheduler : g'.scheduler = g.scheduler) :
    g'.unsent + g.lag e = g.unsent + g.lag e' ∧ g'.active.keys = g.active.keys := by
  have hmem := FinMap.mem_of_find he
  have hkeys : g'.active.keys = g.active.keys := by rw [hactive, AList.keys_replace]
  have hlag : ∀ x, g'.lag x = g.lag x := by
    intro x
    unfold lag
    rw [hscheduler]
  have hself : g'.lagOf id = g.lag e' := by
    unfold lagOf
    rw [hactive, FinMap.find_replace hmem, if_pos rfl]
    exact hlag e'
  have hothers : ((g.active.keys.erase id).map g'.lagOf).sum =
      ((g.active.keys.erase id).map g.lagOf).sum := by
    refine congrArg List.sum (List.map_congr_left (fun a ha => ?_))
    have hne := (g.active.keys_nodup.mem_erase_iff.mp ha).1
    unfold lagOf
    rw [hactive, FinMap.find_replace hmem, if_neg hne]
    cases g.active.find a with
    | none => rfl
    | some x => exact hlag x
  refine ⟨?_, hkeys⟩
  rw [unsent_eq_of_mem hmem, unsent_eq_of_mem (g := g') (hactive ▸ AList.mem_replace.mpr hmem), hkeys,
    hself, hothers, lagOf_of_find he]
  omega

/-! ### What a step pays -/

/-- A step of the engine thread that is paid for, and what leads to a tick. -/
structure Paid (g g' : Engine ω) : Prop where
  load : g'.load ≤ g.load
  debt : g'.debt + 1 ≤ g.debt
  swapped : g'.pc.swapped = true →
    g.pc.swapped = true ∨ g.pc = .drainSubmissions ∧ g'.pendingSubmissions = []
  drains : g'.pc = .drainSubmissions → g.running = true

/-- A tick, or the step that skips it because there is no entry. -/
structure Charged (g g' : Engine ω) : Prop where
  pc : g.pc = .tick
  load : g'.load = g.load
  debt : g'.debt ≤ g.debt + (5 * g.load + 11)
  swapped : g'.pc.swapped = false
  drains : g'.pc ≠ .drainSubmissions

/-- Steps that leave the submissions alone and drop entries at most. -/
theorem paid_of (hunsent : g'.unsent ≤ g.unsent)
    (hkeys : g'.active.keys.length ≤ g.active.keys.length)
    (hsubmissions : g'.pendingSubmissions = g.pendingSubmissions)
    (hcancels : g'.pendingCancels = g.pendingCancels) (hadmission : g'.pc.admitBatch = g.pc.admitBatch)
    (hsteps : g'.pc.cancelBatch.length + g'.pc.stepsToTick g'.active.keys.length + 1 ≤
      g.pc.cancelBatch.length + g.pc.stepsToTick g.active.keys.length)
    (hswapped : g'.pc.swapped = true → g.pc.swapped = true)
    (hdrains : g'.pc = .drainSubmissions → g.running = true) : Paid g g' where
  load := by
    unfold Engine.load
    rw [hsubmissions, hadmission]
    omega
  debt := by
    unfold Engine.debt backlog
    rw [hsubmissions, hcancels, hadmission]
    omega
  swapped h := .inl (hswapped h)
  drains := hdrains

/-- Steps that only move the thread on. -/
theorem paid_jump {pc₀ : EnginePc} (hpc : g.pc = pc₀) (pc : EnginePc)
    (hadmission : pc.admitBatch = pc₀.admitBatch)
    (hsteps : pc.cancelBatch.length + pc.stepsToTick g.active.keys.length + 1 ≤
      pc₀.cancelBatch.length + pc₀.stepsToTick g.active.keys.length)
    (hswapped : pc.swapped = true → pc₀.swapped = true)
    (hdrains : pc = .drainSubmissions → g.running = true) : Paid g { g with pc := pc } := by
  subst hpc
  exact paid_of le_rfl le_rfl rfl rfl hadmission hsteps hswapped hdrains

/-- An entry is closed, of a request that may have been cancelled before. -/
theorem paid_close {t : FifoScheduler ω} (closer : Closer) (handled : List RequestId)
    (hemitted : ∀ p, (t.request p).outputTokensEmitted = (g.scheduler.request p).outputTokensEmitted)
    {pc : EnginePc} (hadmission : pc.admitBatch = g.pc.admitBatch)
    (hsteps : pc.cancelBatch.length + pc.stepsToTick (g.active.erase id).keys.length + 1 ≤
      g.pc.cancelBatch.length + g.pc.stepsToTick g.active.keys.length)
    (hswapped : pc.swapped = true → g.pc.swapped = true) (hdrains : pc ≠ .drainSubmissions) :
    Paid g { ({ g with scheduler := t, handled := handled }.closeEntry id e closer) with pc := pc } := by
  have hkeys : (g.active.erase id).keys.length ≤ g.active.keys.length := by
    rw [AList.keys_erase]
    exact List.length_erase_le
  exact paid_of (unsent_erase rfl hemitted) hkeys rfl rfl hadmission hsteps hswapped
    (fun h => absurd h hdrains)

theorem length_erase_pick {todo : List RequestId} {choice : Nat} (h : pick todo choice = some id) :
    (todo.erase id).length + 1 = todo.length := by
  have hmem := mem_of_pick h
  rw [List.length_erase_of_mem hmem]
  exact Nat.sub_add_cancel (List.length_pos_of_mem hmem)

/-- A push is paid for with the token it sends, or with the place of its entry in the loop. -/
theorem pushEvent_paid {todo : List RequestId} (hpc : g.pc = .pushing id todo)
    (he : g.active.find id = some e)
    (hunseen : e.lastSeenTokens < (g.scheduler.request e.request).outputTokensEmitted)
    (event : TokenEvent) (steadyNow : TimePoint) :
    Paid g (g.pushEvent id e event todo steadyNow) := by
  have hactive := pushEvent_active g id e event todo steadyNow
  have hnext := pushEvent_pc g id e event todo steadyNow
  have hscheduler := pushEvent_scheduler g id e event todo steadyNow
  have hsubmissions : (g.pushEvent id e event todo steadyNow).pendingSubmissions =
      g.pendingSubmissions := by
    unfold pushEvent
    simp only
    split_ifs <;> rfl
  have hcancels : (g.pushEvent id e event todo steadyNow).pendingCancels = g.pendingCancels := by
    unfold pushEvent
    simp only
    split_ifs <;> rfl
  rw [hpc] at hnext
  cases hrefuses : (g.channels e.channel).refuses with
  | true =>
      rw [hrefuses, if_pos rfl] at hactive hnext
      obtain ⟨hunsent, hkeys⟩ := unsent_replaced he hactive hscheduler
      have hlag : g.lag (e.blocked steadyNow) = g.lag e := rfl
      refine paid_of (by omega) (hkeys ▸ le_rfl) hsubmissions hcancels ?_ ?_ ?_ ?_
      · rw [hnext, hpc]
        rfl
      · rw [hnext, hpc, hkeys]
        exact le_rfl
      · rw [hnext]
        exact fun h => by cases h
      · rw [hnext]
        exact fun h => by cases h
  | false =>
      rw [hrefuses, if_neg Bool.false_ne_true] at hactive hnext
      obtain ⟨hunsent, hkeys⟩ := unsent_replaced he hactive hscheduler
      have hlag : g.lag e.sent + 1 = g.lag e := by
        change (g.scheduler.request e.request).outputTokensEmitted - (e.lastSeenTokens + 1) + 1 =
          (g.scheduler.request e.request).outputTokensEmitted - e.lastSeenTokens
        omega
      refine ⟨?_, ?_, ?_, ?_⟩
      · unfold load
        rw [hnext, hkeys, hsubmissions, hpc]
      · unfold debt backlog
        rw [hnext, hkeys, hsubmissions, hcancels, hpc]
        omega
      · rw [hnext]
        exact fun h => by cases h
      · rw [hnext]
        exact fun h => by cases h

/-- An admission is paid for with the submission it takes from the batch. -/
theorem admission_paid (hentries : EntriesOwned g) {sub : Submission} {rest : List Submission}
    (hpc : g.pc = .admitting (sub :: rest)) {q : Request} (hq : sub.Queued q) (w : ω) :
    Paid g { g with
      scheduler := g.scheduler.admitted q w
      active := g.active.emplace sub.id ⟨g.owned, sub.channel, 0, none⟩
      pc := .admitting rest } := by
  obtain ⟨hunsent, hkeys⟩ := unsent_admitted { g with
    scheduler := g.scheduler.admitted q w
    active := g.active.emplace sub.id ⟨g.owned, sub.channel, 0, none⟩
    pc := .admitting rest } hentries hq w rfl rfl
  refine ⟨?_, ?_, fun _ => .inl (by rw [hpc]; rfl), fun h => by cases h⟩
  · unfold load
    rw [hpc]
    simp only [EnginePc.admitBatch, List.length_cons] at hkeys ⊢
    omega
  · unfold debt backlog
    rw [hunsent, hpc]
    simp only [EnginePc.admitBatch, EnginePc.cancelBatch, EnginePc.stepsToTick, List.length_cons]
    omega

/-- Without an entry the tick is skipped. -/
theorem idle_charged (hpc : g.pc = .tick) : Charged g { g with pc := .loopTest } := by
  refine ⟨hpc, ?_, ?_, rfl, fun h => by cases h⟩
  · unfold load
    rw [hpc]
    rfl
  · change g.unsent + _ + _ ≤ g.unsent + _ + _ + _
    unfold backlog
    rw [hpc]
    simp only [EnginePc.admitBatch, EnginePc.cancelBatch, EnginePc.stepsToTick]
    omega

section Steps

variable [Clock ω] [InferenceBackend ω] [AlignedBackend ω]

/-- A tick makes as many tokens as there are entries, and they are dealt with one by one. -/
theorem tick_charged (hentries : EntriesOwned g) (hpart : g.scheduler.Partition) (hpc : g.pc = .tick)
    {done : FifoScheduler ω × TickReport} (hdone : g.scheduler.tick = .ok done) :
    Charged g { g with scheduler := done.1, pc := .pushTokens g.active.keys } := by
  obtain ⟨-, -, -, hticked⟩ := (FifoScheduler.tick_evolves hpart).ok hdone
  have hunsent := unsent_ticked { g with
    scheduler := done.1
    pc := .pushTokens g.active.keys } hentries rfl hticked
  refine ⟨hpc, ?_, ?_, rfl, fun h => by cases h⟩
  · unfold load
    rw [hpc]
    rfl
  · unfold debt load backlog
    rw [hpc]
    simp only [EnginePc.admitBatch, EnginePc.cancelBatch, EnginePc.stepsToTick]
    omega

/-- **What a step costs.** A step of the engine thread is paid for, or it is a tick, or it leaves the
loop. -/
theorem engineStep_paid (hentries : EntriesOwned g) (hpart : g.scheduler.Partition) {choice : Nat}
    {steadyNow : TimePoint} (h : g.engineStep choice steadyNow = .ok g') (halive : g.pc ≠ .exited) :
    (g'.pc = .exited ∧ g.running = false) ∨ Paid g g' ∨ Charged g g' := by
  unfold engineStep at h
  cases hpc : g.pc with
  | exited => exact absurd hpc halive
  | loopTest =>
      rw [hpc] at h
      simp only at h
      by_cases hrunning : g.running = true
      · rw [if_pos hrunning] at h
        cases h
        exact .inr (.inl (paid_jump hpc _ rfl le_rfl (fun h => by cases h) (fun _ => hrunning)))
      · rw [if_neg hrunning] at h
        cases h
        exact .inl ⟨rfl, Bool.eq_false_iff.mpr hrunning⟩
  | awake =>
      rw [hpc] at h
      simp only at h
      by_cases hrunning : g.running = true
      · rw [if_pos hrunning] at h
        cases h
        exact .inr (.inl (paid_jump hpc _ rfl le_rfl (fun h => by cases h) (fun _ => hrunning)))
      · rw [if_neg hrunning] at h
        cases h
        exact .inl ⟨rfl, Bool.eq_false_iff.mpr hrunning⟩
  | drainSubmissions =>
      rw [hpc] at h
      cases h
      refine .inr (.inl ⟨?_, ?_, fun _ => .inr ⟨hpc, rfl⟩, fun h => by cases h⟩)
      · simp [load, hpc, EnginePc.admitBatch]
      · change g.unsent + _ + _ + 1 ≤ g.unsent + _ + _
        simp [backlog, hpc, EnginePc.admitBatch, EnginePc.cancelBatch, EnginePc.stepsToTick]
  | admitting batch =>
      rw [hpc] at h
      cases batch with
      | nil =>
          cases h
          exact .inr (.inl (paid_jump hpc _ rfl le_rfl (fun _ => rfl) (fun h => by cases h)))
      | cons sub rest =>
          obtain ⟨q, w, hq, hadmission⟩ := admitSubmission_eq g sub
          simp only at h
          rw [hadmission] at h
          cases h
          exact .inr (.inl (admission_paid hentries hpc hq w))
  | drainCancels =>
      rw [hpc] at h
      cases h
      refine .inr (.inl ⟨?_, ?_, fun _ => .inl (by rw [hpc]; rfl), fun h => by cases h⟩)
      · simp [load, hpc, EnginePc.admitBatch]
      · change g.unsent + _ + _ + 1 ≤ g.unsent + _ + _
        simp [backlog, hpc, EnginePc.admitBatch, EnginePc.cancelBatch, EnginePc.stepsToTick]
  | cancelling batch =>
      rw [hpc] at h
      cases batch with
      | nil =>
          cases h
          exact .inr (.inl (paid_jump hpc _ rfl le_rfl (fun _ => rfl) (fun h => by cases h)))
      | cons id rest =>
          obtain ⟨u, hu, h⟩ := bind_eq_ok.mp h
          cases h
          obtain ⟨t, ht, hu⟩ := cancelRequest_ok hu
          have hemitted := (FifoScheduler.cancel_cancelled hpart ht).emitted
          rcases hu with ⟨-, rfl⟩ | ⟨e, -, rfl⟩
          · have hunsent : ({ g with
                scheduler := t
                handled := g.handled ++ [id]
                pc := .cancelling rest } : Engine ω).unsent = g.unsent := unsent_congr rfl hemitted
            refine .inr (.inl (paid_of hunsent.le le_rfl rfl rfl ?_ ?_ ?_ (fun h => by cases h)))
            · rw [hpc]
              rfl
            · rw [hpc]
              exact le_rfl
            · rw [hpc]
              exact fun _ => rfl
          · refine .inr (.inl (paid_close .cancel _ hemitted ?_ ?_ ?_ (fun h => by cases h)))
            · rw [hpc]
              rfl
            · rw [hpc]
              exact le_rfl
            · rw [hpc]
              exact fun _ => rfl
  | tick =>
      rw [hpc] at h
      simp only at h
      split_ifs at h
      · cases h
        exact .inr (.inr (idle_charged hpc))
      · obtain ⟨done, hdone, h⟩ := bind_eq_ok.mp h
        cases h
        exact .inr (.inr (tick_charged hentries hpart hpc hdone))
  | pushTokens todo =>
      rw [hpc] at h
      simp only at h
      split at h
      · rename_i hpick
        cases h
        rw [eq_nil_of_pick hpick] at hpc
        refine .inr (.inl (paid_jump hpc _ rfl ?_ (fun h => by cases h) (fun h => by cases h)))
        simp [EnginePc.stepsToTick, EnginePc.cancelBatch]
      · rename_i id hpick
        cases h
        have hlength := length_erase_pick hpick
        refine .inr (.inl (paid_jump hpc _ rfl ?_ (fun h => by cases h) (fun h => by cases h)))
        simp only [EnginePc.stepsToTick, EnginePc.cancelBatch]
        omega
  | pushing id todo =>
      rw [hpc] at h
      rcases pushToken_ok h with ⟨rfl, -⟩ | ⟨e, tokenId, he, hunseen, -, rfl⟩
      · exact .inr (.inl (paid_jump hpc _ rfl le_rfl (fun h => by cases h) (fun h => by cases h)))
      · exact .inr (.inl (pushEvent_paid hpc he hunseen _ steadyNow))
  | checkBackpressure =>
      rw [hpc] at h
      cases h
      have hle : (g.select (g.isOverdue steadyNow)).length ≤ g.active.keys.length :=
        List.length_filter_le _ _
      refine .inr (.inl (paid_jump hpc _ rfl ?_ (fun h => by cases h) (fun h => by cases h)))
      simp only [EnginePc.stepsToTick, EnginePc.cancelBatch]
      omega
  | expelling toCancel =>
      rw [hpc] at h
      simp only at h
      split at h
      · rename_i hpick
        cases h
        rw [eq_nil_of_pick hpick] at hpc
        refine .inr (.inl (paid_jump hpc _ rfl ?_ (fun h => by cases h) (fun h => by cases h)))
        simp [EnginePc.stepsToTick, EnginePc.cancelBatch]
      · rename_i id hpick
        obtain ⟨u, hu, h⟩ := bind_eq_ok.mp h
        obtain ⟨e, t, ht, he, rfl⟩ := expel_ok hu
        cases h
        have hlength := length_erase_pick hpick
        have hkeys : (g.active.erase id).keys.length ≤ g.active.keys.length := by
          rw [AList.keys_erase]
          exact List.length_erase_le
        refine .inr (.inl (paid_close .backpressure _
          (FifoScheduler.cancel_cancelled hpart ht).emitted ?_ ?_ (fun h => by cases h)
          (fun h => by cases h)))
        · rw [hpc]
          rfl
        · rw [hpc]
          simp only [EnginePc.stepsToTick, EnginePc.cancelBatch]
          omega
  | reapTerminal =>
      rw [hpc] at h
      cases h
      have hle : (g.select g.isDelivered).length ≤ g.active.keys.length := List.length_filter_le _ _
      refine .inr (.inl (paid_jump hpc _ rfl ?_ (fun h => by cases h) (fun h => by cases h)))
      simp only [EnginePc.stepsToTick, EnginePc.cancelBatch]
      omega
  | reaping toReap =>
      rw [hpc] at h
      simp only at h
      split at h
      · rename_i hpick
        cases h
        rw [eq_nil_of_pick hpick] at hpc
        refine .inr (.inl (paid_jump hpc _ rfl ?_ (fun h => by cases h) (fun h => by cases h)))
        simp [EnginePc.stepsToTick, EnginePc.cancelBatch]
      · rename_i id hpick
        obtain ⟨u, hu, h⟩ := bind_eq_ok.mp h
        obtain ⟨e, he, rfl⟩ := reap_ok hu
        cases h
        have hlength := length_erase_pick hpick
        refine .inr (.inl (paid_close .reap g.handled (fun _ => rfl) ?_ ?_ (fun h => by cases h)
          (fun h => by cases h)))
        · rw [hpc]
          rfl
        · rw [hpc]
          simp only [EnginePc.stepsToTick, EnginePc.cancelBatch]
          omega

end Steps

/-! ### What clients add -/

end Engine

/-- The actions of the engine thread. -/
def EngineAction.isEngine [Environment ω] : EngineAction ω → Bool
  | .engine _ _ => true
  | _ => false

def EngineAction.isPush [Environment ω] : EngineAction ω → Bool
  | .push _ => true
  | _ => false

def EngineAction.isCancel [Environment ω] : EngineAction ω → Bool
  | .cancel _ => true
  | _ => false

namespace Engine

section Clients

variable {g g' : Engine ω}

/-- What a step of a client adds to the work of the engine thread. -/
structure Added (g g' : Engine ω) (submissions cancels : Nat) : Prop where
  load : g'.load ≤ g.load + submissions
  debt : g'.debt ≤ g.debt + submissions + cancels
  pc : g'.pc = g.pc

theorem added_of {submissions cancels : Nat}
    (hscheduler : ∃ w, g'.scheduler = { g.scheduler with world := w })
    (hactive : g'.active = g.active) (hpc : g'.pc = g.pc)
    (hsubmissions : g'.pendingSubmissions.length = g.pendingSubmissions.length + submissions)
    (hcancels : g'.pendingCancels.length = g.pendingCancels.length + cancels) :
    Added g g' submissions cancels := by
  obtain ⟨w, hscheduler⟩ := hscheduler
  have hunsent : g'.unsent = g.unsent := by
    refine unsent_congr hactive (fun p => ?_)
    rw [hscheduler]
    rfl
  refine ⟨?_, ?_, hpc⟩
  · unfold Engine.load
    rw [hactive, hpc, hsubmissions]
    omega
  · unfold Engine.debt backlog
    rw [hunsent, hactive, hpc, hsubmissions, hcancels]
    omega

theorem added_nothing (hscheduler : ∃ w, g'.scheduler = { g.scheduler with world := w })
    (hactive : g'.active = g.active) (hpc : g'.pc = g.pc)
    (hsubmissions : g'.pendingSubmissions = g.pendingSubmissions)
    (hcancels : g'.pendingCancels = g.pendingCancels) : Added g g' 0 0 :=
  added_of hscheduler hactive hpc (congrArg List.length hsubmissions) (congrArg List.length hcancels)

variable [Clock ω] [InferenceBackend ω] [Environment ω]

/-- A client adds what it submits or cancels. A start is no client's. -/
theorem step_added {a : EngineAction ω} (h : g.step a = .ok g') (hengine : a.isEngine = false)
    (hstart : a = .start → g.running = true) :
    Added g g' a.isPush.toNat a.isCancel.toNat := by
  cases a with
  | engine choice steadyNow => cases hengine
  | start =>
      unfold step at h
      simp only at h
      rw [if_pos (hstart rfl)] at h
      cases h
      exact added_nothing ⟨_, rfl⟩ rfl rfl rfl rfl
  | stop =>
      unfold step at h
      simp only at h
      split_ifs at h
      · cases h
        exact added_nothing ⟨_, rfl⟩ rfl rfl rfl rfl
      · cases h
        exact added_nothing ⟨_, rfl⟩ rfl rfl rfl rfl
  | join =>
      unfold step at h
      simp only at h
      split_ifs at h
      · cases h
        exact added_nothing ⟨_, rfl⟩ rfl rfl rfl rfl
      · cases h
        exact added_nothing ⟨_, rfl⟩ rfl rfl rfl rfl
  | submit sub =>
      unfold step at h
      simp only at h
      split_ifs at h
      · cases h
        exact added_nothing ⟨_, rfl⟩ rfl rfl rfl rfl
      · cases h
        exact added_nothing ⟨_, rfl⟩ rfl rfl rfl rfl
  | push k =>
      unfold step at h
      simp only at h
      cases hsub : g.entering[k]? with
      | none =>
          rw [hsub] at h
          cases h
          exact ⟨Nat.le_add_right _ _, Nat.le_add_right _ _, rfl⟩
      | some sub =>
          rw [hsub] at h
          cases h
          change Added g _ 1 0
          exact added_of ⟨_, rfl⟩ rfl rfl List.length_append rfl
  | cancel id =>
      cases h
      change Added g _ 0 1
      exact added_of ⟨_, rfl⟩ rfl rfl rfl List.length_append
  | pop channel =>
      unfold step at h
      simp only at h
      split at h
      · cases h
        exact added_nothing ⟨_, rfl⟩ rfl rfl rfl rfl
      · cases h
        exact added_nothing ⟨_, rfl⟩ rfl rfl rfl rfl
  | close channel =>
      cases h
      exact added_nothing ⟨_, rfl⟩ rfl rfl rfl rfl
  | event e =>
      obtain ⟨w, -, h⟩ := bind_eq_ok.mp h
      cases h
      exact added_nothing ⟨w, rfl⟩ rfl rfl rfl rfl

end Clients

end Engine

end Tokamak
