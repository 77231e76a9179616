import Tokamak.TokenChannel

/-! Histories of a token channel. Producers, consumers and whoever closes the channel take turns in
any order; a member function is one turn, because it holds the mutex for its whole body. A `pop` that
finds nothing to return goes back to waiting and changes nothing: its next test of the condition is
another turn. The history keeps what was accepted and what was handed out. -/

namespace Tokamak

/-- One critical section of the channel's mutex. -/
inductive ChannelTurn where
  | tryPush (event : TokenEvent)
  | pop
  | close
  deriving DecidableEq, Repr

structure ChannelHistory where
  channel : TokenChannel
  /-- The events whose `try_push` returned true. -/
  accepted : List TokenEvent
  /-- The events that `pop` returned. -/
  popped : List TokenEvent
  deriving DecidableEq, Repr

namespace ChannelHistory

def start (capacity : Nat) : ChannelHistory := ⟨.new capacity, [], []⟩

def turn (h : ChannelHistory) : ChannelTurn → ChannelHistory
  | .tryPush event =>
      let answer := h.channel.tryPush event
      { h with
        channel := answer.2
        accepted := if answer.1 then h.accepted ++ [event] else h.accepted }
  | .pop =>
      match h.channel.pop with
      | some (some event, c) => { h with channel := c, popped := h.popped ++ [event] }
      | some (none, c) => { h with channel := c }
      | none => h
  | .close => { h with channel := h.channel.close }

def play (h : ChannelHistory) (turns : List ChannelTurn) : ChannelHistory := turns.foldl turn h

theorem play_append (h : ChannelHistory) (turns later : List ChannelTurn) :
    h.play (turns ++ later) = (h.play turns).play later := List.foldl_append

/-- What every turn preserves holds after any number of them. -/
theorem play_inv {inv : ChannelHistory → Prop} (hturn : ∀ h t, inv h → inv (h.turn t))
    {h : ChannelHistory} (hh : inv h) (turns : List ChannelTurn) : inv (h.play turns) := by
  induction turns generalizing h with
  | nil => exact hh
  | cons t rest ih => exact ih (hturn h t hh)

/-- The two outcomes of a `try_push`. -/
theorem tryPush_cases (h : ChannelHistory) (event : TokenEvent) :
    (h.channel.refuses = true ∧ h.turn (.tryPush event) = h) ∨
    (h.channel.refuses = false ∧ h.turn (.tryPush event) =
      { channel := { h.channel with buffer := h.channel.buffer ++ [event] }
        accepted := h.accepted ++ [event]
        popped := h.popped }) := by
  cases hrefuses : h.channel.refuses with
  | true =>
      refine .inl ⟨rfl, ?_⟩
      simp [turn, TokenChannel.tryPush, hrefuses]
  | false =>
      refine .inr ⟨rfl, ?_⟩
      simp [turn, TokenChannel.tryPush, hrefuses]

/-- A `pop` hands out the oldest event, if there is one. -/
theorem pop_cases (h : ChannelHistory) :
    (h.channel.buffer = [] ∧ h.turn .pop = h) ∨
    ∃ event rest, h.channel.buffer = event :: rest ∧ h.turn .pop =
      { channel := { h.channel with buffer := rest }
        accepted := h.accepted
        popped := h.popped ++ [event] } := by
  cases hbuffer : h.channel.buffer with
  | nil =>
      refine .inl ⟨rfl, ?_⟩
      cases hclosed : h.channel.closed with
      | true => simp [turn, TokenChannel.pop, hbuffer, hclosed]
      | false => simp [turn, TokenChannel.pop, hbuffer, hclosed]
  | cons event rest =>
      refine .inr ⟨event, rest, rfl, ?_⟩
      simp [turn, TokenChannel.pop, hbuffer]

/-- Nothing is lost or reordered, and the buffer stays within its capacity. -/
structure Fifo (capacity : Nat) (h : ChannelHistory) : Prop where
  order : h.popped ++ h.channel.buffer = h.accepted
  bounded : h.channel.size ≤ capacity
  capacity_eq : h.channel.capacity = capacity

theorem fifo_start (capacity : Nat) : (start capacity).Fifo capacity :=
  ⟨rfl, Nat.zero_le _, rfl⟩

theorem Fifo.turn {capacity : Nat} {h : ChannelHistory} (hh : h.Fifo capacity) (t : ChannelTurn) :
    (h.turn t).Fifo capacity := by
  cases t with
  | tryPush event =>
      rcases tryPush_cases h event with ⟨-, hturn⟩ | ⟨hrefuses, hturn⟩
      · rw [hturn]
        exact hh
      · have hroom : h.channel.size < h.channel.capacity := by
          simp only [TokenChannel.refuses, Bool.or_eq_false_iff, decide_eq_false_iff_not,
            not_le] at hrefuses
          exact hrefuses.2
        rw [hturn]
        refine ⟨?_, ?_, hh.capacity_eq⟩
        · rw [← hh.order, List.append_assoc]
        · change (h.channel.buffer ++ [event]).length ≤ capacity
          rw [List.length_append, List.length_singleton]
          exact hh.capacity_eq ▸ hroom
  | pop =>
      rcases pop_cases h with ⟨-, hturn⟩ | ⟨event, rest, hbuffer, hturn⟩
      · rw [hturn]
        exact hh
      · have hsize : rest.length + 1 ≤ capacity := by
          have hbounded := hh.bounded
          rw [TokenChannel.size, hbuffer, List.length_cons] at hbounded
          exact hbounded
        rw [hturn]
        refine ⟨?_, Nat.le_of_succ_le hsize, hh.capacity_eq⟩
        change (h.popped ++ [event]) ++ rest = h.accepted
        rw [List.append_assoc, List.singleton_append, ← hbuffer]
        exact hh.order
  | close => exact ⟨hh.order, hh.bounded, hh.capacity_eq⟩

theorem closed_turn (h : ChannelHistory) (t : ChannelTurn) :
    (h.turn t).channel.closed = true ↔ h.channel.closed = true ∨ t = .close := by
  cases t with
  | tryPush event =>
      rcases tryPush_cases h event with ⟨-, hturn⟩ | ⟨-, hturn⟩
      · simp [hturn]
      · simp [hturn]
  | pop =>
      rcases pop_cases h with ⟨-, hturn⟩ | ⟨event, rest, -, hturn⟩
      · simp [hturn]
      · simp [hturn]
  | close => simp [turn]

/-- The channel is closed exactly when somebody closed it. -/
theorem closed_play (h : ChannelHistory) (turns : List ChannelTurn) :
    (h.play turns).channel.closed = true ↔ h.channel.closed = true ∨ .close ∈ turns := by
  induction turns generalizing h with
  | nil => simp [play]
  | cons t rest ih =>
      change ((h.turn t).play rest).channel.closed = true ↔ _
      rw [ih, closed_turn, List.mem_cons, or_assoc]
      simp only [eq_comm (a := t)]

/-- The end of the stream: closed and drained. -/
def Drained (events : List TokenEvent) (h : ChannelHistory) : Prop :=
  h.channel.closed = true ∧ h.channel.buffer = [] ∧ h.accepted = events ∧ h.popped = events

/-- The end of the stream is final. -/
theorem Drained.turn {events : List TokenEvent} {h : ChannelHistory} (hh : h.Drained events)
    (t : ChannelTurn) : (h.turn t).Drained events := by
  obtain ⟨hclosed, hbuffer, haccepted, hpopped⟩ := hh
  cases t with
  | tryPush event =>
      rcases tryPush_cases h event with ⟨-, hturn⟩ | ⟨hrefuses, -⟩
      · rw [hturn]
        exact ⟨hclosed, hbuffer, haccepted, hpopped⟩
      · rw [TokenChannel.refuses, hclosed] at hrefuses
        cases hrefuses
  | pop =>
      rcases pop_cases h with ⟨-, hturn⟩ | ⟨event, rest, hfull, -⟩
      · rw [hturn]
        exact ⟨hclosed, hbuffer, haccepted, hpopped⟩
      · rw [hbuffer] at hfull
        cases hfull
  | close => exact ⟨rfl, hbuffer, haccepted, hpopped⟩

theorem Drained.play {events : List TokenEvent} {h : ChannelHistory} (hh : h.Drained events)
    (turns : List ChannelTurn) : (h.play turns).Drained events := by
  have hinv : ∀ u t, Drained events u → Drained events (u.turn t) := fun u t hu => hu.turn t
  exact play_inv hinv hh turns

/-- A `pop` returns no event only from a channel that is closed and empty. -/
theorem pop_none {c c' : TokenChannel} (h : c.pop = some (none, c')) :
    c.closed = true ∧ c.buffer = [] := by
  unfold TokenChannel.pop at h
  split at h
  · cases h
  · split_ifs at h with hclosed
    exact ⟨hclosed, by assumption⟩

/-- **A bounded, closable FIFO.** After any turns of any threads: the events handed out and those in
the buffer are together the accepted ones, in order; the buffer is within its capacity; once somebody
has closed the channel every push is refused; and a `pop` that returns no event finds the channel
closed and everything handed out, and then nothing is accepted or handed out ever after, so the events
popped up to there are all there will ever be. -/
theorem channel_fifo (capacity : Nat) (turns : List ChannelTurn) :
    ((start capacity).play turns).popped ++ ((start capacity).play turns).channel.buffer =
        ((start capacity).play turns).accepted ∧
      ((start capacity).play turns).channel.size ≤ capacity ∧
      (.close ∈ turns → ∀ event,
        (((start capacity).play turns).channel.tryPush event).1 = false) ∧
      (∀ c, ((start capacity).play turns).channel.pop = some (none, c) →
        .close ∈ turns ∧
        ((start capacity).play turns).popped = ((start capacity).play turns).accepted ∧
        ∀ later, ((start capacity).play (turns ++ later)).accepted =
            ((start capacity).play turns).popped ∧
          ((start capacity).play (turns ++ later)).popped =
            ((start capacity).play turns).popped) := by
  have hfifo := play_inv (fun h t hh => hh.turn t) (fifo_start capacity) turns
  have hclosed := closed_play (start capacity) turns
  refine ⟨hfifo.order, hfifo.bounded, ?_, ?_⟩
  · intro hclose event
    rw [TokenChannel.tryPush_fst, TokenChannel.refuses, hclosed.mpr (.inr hclose)]
    rfl
  · intro c hpop
    obtain ⟨hshut, hempty⟩ := pop_none hpop
    have hall : ((start capacity).play turns).popped = ((start capacity).play turns).accepted := by
      rw [← hfifo.order, hempty, List.append_nil]
    refine ⟨?_, hall, fun later => ?_⟩
    · rcases hclosed.mp hshut with h | h
      · cases h
      · exact h
    · have hend : ((start capacity).play turns).Drained ((start capacity).play turns).popped :=
        ⟨hshut, hempty, hall.symm, rfl⟩
      rw [play_append]
      exact (hend.play later).2.2

end ChannelHistory

end Tokamak
