import Tokamak.Monitor
import Tokamak.Refinement
import Tokamak.TokenChannelFifo

/-! The consumers of a token channel that wait. `try_push` notifies one of them when it has stored an
event, `close` notifies all, and `pop` tests again whenever it wakes up, for a reason or for none. A
channel is a monitor, so no wake-up is lost: a consumer sleeps only on an open channel, and only while
the events in the buffer are spoken for. And for all its waiting, a `pop` takes effect at one instant,
the test after which it returns. -/

open Outcome

namespace Tokamak

/-- The member functions of a channel that do not wait. -/
inductive ChannelOp where
  | tryPush (event : TokenEvent)
  | close
  deriving DecidableEq, Repr

abbrev ConsumerId := Nat

/-- A channel with the consumers inside its `pop`. -/
abbrev WaitingChannel := Monitor TokenChannel ConsumerId (Option TokenEvent)

abbrev ChannelStep := MonitorStep ChannelOp ConsumerId

namespace TokenChannel

/-- A critical section, and whom it notifies. -/
def operate : ChannelOp → TokenChannel → TokenChannel × Notify
  | .tryPush event, c => ((c.tryPush event).2, if (c.tryPush event).1 then .one else .none)
  | .close, c => (c.close, .all)

/-- A closed channel serves everybody, an open one as many as it has events. -/
theorem serves_iff {n : Nat} {c : TokenChannel} :
    Monitor.Serves pop n c ↔ c.closed = true ∨ n ≤ c.size := by
  induction n generalizing c with
  | zero => simp [Monitor.Serves]
  | succ n ih =>
      unfold Monitor.Serves
      cases hbuffer : c.buffer with
      | nil =>
          cases hclosed : c.closed with
          | true => simp [pop, hbuffer, hclosed, ih]
          | false => simp [pop, hbuffer, hclosed, size]
      | cons event rest => simp [pop, hbuffer, size, ih]

/-- One event, one notification. -/
theorem operate_disciplined : Monitor.Disciplined operate pop where
  none op c n hnotify hserves := by
    cases op with
    | tryPush event =>
        rw [serves_iff] at hserves ⊢
        unfold operate tryPush at hnotify hserves
        cases hrefuses : c.refuses with
        | true => simpa [hrefuses] using hserves
        | false => simp [hrefuses] at hnotify
    | close => cases hnotify
  one op c n hnotify hserves := by
    cases op with
    | tryPush event =>
        rw [serves_iff] at hserves ⊢
        unfold operate tryPush at hserves
        cases hrefuses : c.refuses with
        | true =>
            simp only [hrefuses, if_true] at hserves
            exact hserves.imp_right Nat.le_of_succ_le
        | false => simpa [hrefuses, size] using hserves
    | close => cases hnotify

end TokenChannel

namespace WaitingChannel

def start (capacity : Nat) : WaitingChannel := Monitor.start (.new capacity)

def step (m : WaitingChannel) (a : ChannelStep) : WaitingChannel :=
  Monitor.step TokenChannel.operate TokenChannel.pop m a

def play (m : WaitingChannel) (steps : List ChannelStep) : WaitingChannel :=
  Monitor.play TokenChannel.operate TokenChannel.pop m steps

variable {m : WaitingChannel}

/-- The events handed out, in the order in which they were. -/
def events (m : WaitingChannel) : List TokenEvent := m.returned.filterMap Prod.snd

theorem play_append (m : WaitingChannel) (steps later : List ChannelStep) :
    m.play (steps ++ later) = (m.play steps).play later := List.foldl_append

/-- What is known of the consumers at any time. -/
structure Sound (m : WaitingChannel) : Prop where
  accounted : Monitor.Accounted m
  noneForgotten : Monitor.NoneForgotten TokenChannel.pop m

theorem Sound.step (h : m.Sound) (a : ChannelStep) : (m.step a).Sound :=
  ⟨h.accounted.step a, h.noneForgotten.step TokenChannel.operate_disciplined a⟩

theorem sound_play (capacity : Nat) (steps : List ChannelStep) : ((start capacity).play steps).Sound :=
  Monitor.play_inv Sound (fun _ a hm => Sound.step hm a)
    ⟨Monitor.accounted_start _, Monitor.noneForgotten_start _⟩ steps

/-- Who sleeps does so on an open channel whose events are spoken for. -/
theorem Sound.asleep (h : m.Sound) (hsleeping : m.sleeping ≠ []) :
    m.data.closed = false ∧ m.data.size ≤ m.woken.length := by
  have hserves := h.noneForgotten hsleeping
  rw [TokenChannel.serves_iff, not_or, not_le] at hserves
  exact ⟨Bool.eq_false_iff.mpr hserves.1, Nat.le_of_lt_succ hserves.2⟩

/-- On a closed channel a test is the last one. -/
theorem resume_closed (hclosed : m.data.closed = true) {t : ConsumerId} (ht : t ∈ m.woken) :
    ∃ result, (m.step (.resume t)).returned = m.returned ++ [(t, result)] := by
  have hserves : Monitor.Serves TokenChannel.pop 1 m.data := TokenChannel.serves_iff.mpr (.inl hclosed)
  obtain ⟨result, c, hpop, -⟩ := hserves
  refine ⟨result, ?_⟩
  unfold step Monitor.step
  simp only
  rw [if_pos ht]
  rcases Monitor.attempt_cases ({ m with woken := m.woken.erase t } : WaitingChannel) t with
    ⟨result', c', hpop', hattempt⟩ | ⟨hnone, -⟩
  · rw [hattempt]
    rw [show TokenChannel.pop m.data = some (result', c') from hpop'] at hpop
    cases hpop
    rfl
  · rw [show TokenChannel.pop m.data = none from hnone] at hpop
    cases hpop

/-- **No wake-up is lost.** For every capacity and any number of producers and consumers, however their
steps, the choices of `notify_one` and spurious wake-ups are interleaved: every call of `pop` has
returned, sleeps or is awake, and is so once; a consumer sleeps only while the channel is open and holds
no more events than consumers are awake; once these have tested again, whoever still sleeps does so on
an empty open channel; and on a closed channel nobody sleeps and every next test returns. -/
theorem no_lost_wakeup (capacity : Nat) (steps : List ChannelStep) :
    ((start capacity).play steps).calls.Perm
        (((start capacity).play steps).returned.map Prod.fst ++
          (((start capacity).play steps).sleeping ++ ((start capacity).play steps).woken)) ∧
      (((start capacity).play steps).sleeping ++ ((start capacity).play steps).woken).Nodup ∧
      (((start capacity).play steps).sleeping ≠ [] →
        ((start capacity).play steps).data.closed = false ∧
          ((start capacity).play steps).data.size ≤ ((start capacity).play steps).woken.length) ∧
      (∀ order, ((start capacity).play steps).woken.Perm order →
        ((start capacity).play (steps ++ order.map .resume)).sleeping ≠ [] →
          ((start capacity).play (steps ++ order.map .resume)).data.closed = false ∧
            ((start capacity).play (steps ++ order.map .resume)).data.buffer = []) ∧
      (((start capacity).play steps).data.closed = true →
        ((start capacity).play steps).sleeping = [] ∧
          ∀ t ∈ ((start capacity).play steps).woken, ∃ result,
            (((start capacity).play steps).step (.resume t)).returned =
              ((start capacity).play steps).returned ++ [(t, result)]) := by
  have hsound := sound_play capacity steps
  refine ⟨hsound.accounted.calls, hsound.accounted.nodup, hsound.asleep, ?_, ?_⟩
  · intro order horder hsleeping
    obtain ⟨hopen, hsize⟩ := (sound_play capacity _).asleep hsleeping
    have hnobody : ((start capacity).play (steps ++ order.map .resume)).woken = [] := by
      rw [play_append]
      exact Monitor.woken_play_resume horder
    rw [hnobody] at hsize
    exact ⟨hopen, List.length_eq_zero_iff.mp (Nat.le_zero.mp hsize)⟩
  · intro hclosed
    refine ⟨?_, fun t ht => resume_closed hclosed ht⟩
    by_contra hsleeping
    rw [(hsound.asleep hsleeping).1] at hclosed
    cases hclosed

/-! ### A `pop` happens at one instant -/

/-- The turns of the channel that a step makes. -/
def turns (m : WaitingChannel) : ChannelStep → List ChannelTurn
  | .change (.tryPush event) _ => [.tryPush event]
  | .change .close _ => [.close]
  | .enter t => if t ∈ m.sleeping ++ m.woken then [] else [.pop]
  | .resume t => if t ∈ m.woken then [.pop] else []
  | .spurious _ => []

/-- The history a waiting channel stands for. -/
structure Stands (capacity : Nat) (m : WaitingChannel) (h : ChannelHistory) : Prop where
  channel : h.channel = m.data
  popped : h.popped = m.events
  fifo : h.Fifo capacity
  told : ∀ t, (t, none) ∈ m.returned → h.Drained h.popped

theorem stands_start (capacity : Nat) : Stands capacity (start capacity) (.start capacity) where
  channel := rfl
  popped := rfl
  fifo := ChannelHistory.fifo_start capacity
  told t ht := by cases ht

/-- What a thread is told by a test, the history says too. -/
theorem Stands.attempt {capacity : Nat} {h : ChannelHistory} (hs : Stands capacity m h)
    (t : ConsumerId) : Stands capacity (Monitor.attempt TokenChannel.pop m t) (h.turn .pop) := by
  have hfifo := hs.fifo.turn .pop
  have hdrained : h.Drained h.popped → (h.turn .pop).Drained (h.turn .pop).popped := by
    intro hend
    have hend' := hend.turn .pop
    exact ⟨hend'.1, hend'.2.1, hend'.2.2.1.trans hend'.2.2.2.symm, rfl⟩
  rcases Monitor.attempt_cases m t with ⟨result, c, hpop, hattempt⟩ | ⟨hpop, hattempt⟩
  · rw [hattempt]
    rw [← hs.channel] at hpop
    cases result with
    | some event =>
        have hturn : h.turn .pop = { h with channel := c, popped := h.popped ++ [event] } := by
          simp [ChannelHistory.turn, hpop]
        refine ⟨?_, ?_, hfifo, fun t' ht' => ?_⟩
        · rw [hturn]
        · rw [hturn]
          simp [events, hs.popped]
        · rcases List.mem_append.mp ht' with ht' | ht'
          · exact hdrained (hs.told t' ht')
          · simp at ht'
    | none =>
        have hturn : h.turn .pop = { h with channel := c } := by
          simp [ChannelHistory.turn, hpop]
        obtain ⟨hclosed, hempty⟩ := ChannelHistory.pop_none hpop
        have hend : h.Drained h.popped := by
          refine ⟨hclosed, hempty, ?_, rfl⟩
          rw [← hs.fifo.order, hempty, List.append_nil]
        refine ⟨?_, ?_, hfifo, fun t' _ => hdrained hend⟩
        · rw [hturn]
        · rw [hturn]
          simp [events, hs.popped]
  · rw [hattempt]
    rw [← hs.channel] at hpop
    have hturn : h.turn .pop = h := by
      simp [ChannelHistory.turn, hpop]
    rw [hturn]
    exact ⟨hs.channel, hs.popped, hs.fifo, hs.told⟩

/-- Waking somebody up is no turn of the channel. -/
theorem Stands.of_eq {capacity : Nat} {h : ChannelHistory} (hs : Stands capacity m h)
    {m' : WaitingChannel} (hdata : m'.data = m.data) (hreturned : m'.returned = m.returned) :
    Stands capacity m' h where
  channel := hs.channel.trans hdata.symm
  popped := by
    unfold events
    rw [hreturned]
    exact hs.popped
  fifo := hs.fifo
  told t ht := hs.told t (hreturned ▸ ht)

/-- A push or a close, and whoever it wakes up. -/
theorem Stands.change {capacity : Nat} {h : ChannelHistory} (hs : Stands capacity m h) (op : ChannelOp)
    (choice : Nat) (turn : ChannelTurn)
    (hchannel : (h.turn turn).channel = (TokenChannel.operate op h.channel).1)
    (hpopped : (h.turn turn).popped = h.popped) :
    Stands capacity (m.step (.change op choice)) (h.turn turn) := by
  have hdata : Stands capacity ({ m with data := (TokenChannel.operate op m.data).1 } : WaitingChannel)
      (h.turn turn) := by
    refine ⟨?_, hpopped.trans hs.popped, hs.fifo.turn turn, fun t ht => ?_⟩
    · rw [hchannel, hs.channel]
    · rw [hpopped]
      exact (hs.told t ht).turn turn
  exact hdata.of_eq (Monitor.wake_data _ _ _) (Monitor.wake_returned _ _ _)

theorem step_stands (capacity : Nat) : Simulates
    (fun m a => (.ok (step m a) : Except Empty WaitingChannel))
    (fun h t => (.ok (ChannelHistory.turn h t) : Except Empty ChannelHistory)) turns
    (Stands capacity) := by
  rintro m h a m' hs hstep
  cases hstep
  refine ⟨(m.turns a).foldl ChannelHistory.turn h, run_total _ _ _, ?_⟩
  cases a with
  | change op choice =>
      cases op with
      | tryPush event => exact hs.change (.tryPush event) choice (.tryPush event) rfl rfl
      | close => exact hs.change .close choice .close rfl rfl
  | enter t =>
      unfold turns step Monitor.step
      simp only
      split_ifs with ht
      · exact hs
      · have hentered : Stands capacity ({ m with calls := m.calls ++ [t] } : WaitingChannel) h :=
          hs.of_eq rfl rfl
        exact hentered.attempt t
  | resume t =>
      unfold turns step Monitor.step
      simp only
      split_ifs with ht
      · have hresumed : Stands capacity ({ m with woken := m.woken.erase t } : WaitingChannel) h :=
          hs.of_eq rfl rfl
        exact hresumed.attempt t
      · exact hs
  | spurious t =>
      unfold turns step Monitor.step
      simp only
      split_ifs with ht
      · exact hs.of_eq rfl rfl
      · exact hs

/-- The turns of the channel that a run makes. -/
def turnsOf (m : WaitingChannel) (steps : List ChannelStep) : List ChannelTurn :=
  history (fun m a => (.ok (step m a) : Except Empty WaitingChannel)) turns m steps

/-- **A waiting `pop` is an atomic one.** However the consumers sleep, wake up and overtake each other,
what they are handed is what they would be handed by a channel whose `pop` happens at one instant, the
test after which it returns; so the events handed out and those in the buffer are together the accepted
ones, in order, the buffer keeps within its capacity, and who is told that the stream has ended is told
so after the last event. -/
theorem waiting_pop_atomic (capacity : Nat) (steps : List ChannelStep) :
    ((ChannelHistory.start capacity).play ((start capacity).turnsOf steps)).channel =
        ((start capacity).play steps).data ∧
      ((ChannelHistory.start capacity).play ((start capacity).turnsOf steps)).popped =
        ((start capacity).play steps).events ∧
      ((start capacity).play steps).events ++ ((start capacity).play steps).data.buffer =
        ((ChannelHistory.start capacity).play ((start capacity).turnsOf steps)).accepted ∧
      ((start capacity).play steps).data.size ≤ capacity ∧
      (∀ t, (t, none) ∈ ((start capacity).play steps).returned →
        ((start capacity).play steps).data.closed = true ∧
          ((start capacity).play steps).events =
            ((ChannelHistory.start capacity).play ((start capacity).turnsOf steps)).accepted) := by
  obtain ⟨h, hturns, hs⟩ := (step_stands capacity).run (stands_start capacity)
    (run_total step (start capacity) steps)
  rw [run_total] at hturns
  cases hturns
  change Stands capacity ((start capacity).play steps)
    ((ChannelHistory.start capacity).play ((start capacity).turnsOf steps)) at hs
  refine ⟨hs.channel, hs.popped, ?_, ?_, fun t ht => ?_⟩
  · rw [← hs.fifo.order, hs.popped, hs.channel]
  · exact hs.channel ▸ hs.fifo.bounded
  · obtain ⟨hclosed, -, haccepted, -⟩ := hs.told t ht
    exact ⟨hs.channel ▸ hclosed, hs.popped.symm.trans haccepted.symm⟩

end WaitingChannel

end Tokamak
