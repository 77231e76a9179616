import Tokamak.Common

/-! The bounded queue between the engine thread and a consumer. Every member function holds the
channel's mutex for its whole body, so each is one atomic step. -/

namespace Tokamak

/-- `kStop` is the backend's EOS, `kLength` the exhausted budget. -/
inductive FinishReason where
  | none
  | stop
  | length
  deriving DecidableEq, Repr

structure TokenEvent where
  tokenId : UInt32
  finishReason : FinishReason := .none
  deriving DecidableEq, Repr

structure TokenChannel where
  buffer : List TokenEvent
  closed : Bool
  capacity : Nat
  deriving DecidableEq, Repr

namespace TokenChannel

def new (capacity : Nat) : TokenChannel := ⟨[], false, capacity⟩

def size (c : TokenChannel) : Nat := c.buffer.length

def isClosed (c : TokenChannel) : Bool := c.closed

/-- A push is refused when the channel is closed or full. -/
def refuses (c : TokenChannel) : Bool := c.closed || decide (c.capacity ≤ c.size)

def tryPush (c : TokenChannel) (event : TokenEvent) : Bool × TokenChannel :=
  if c.refuses then (false, c) else (true, { c with buffer := c.buffer ++ [event] })

/-- No result while the caller has to wait; a result without an event at the end of the stream. -/
def pop (c : TokenChannel) : Option (Option TokenEvent × TokenChannel) :=
  match c.buffer with
  | event :: rest => some (some event, { c with buffer := rest })
  | [] => if c.closed then some (none, c) else none

def close (c : TokenChannel) : TokenChannel := { c with closed := true }

@[simp] theorem closed_close (c : TokenChannel) : c.close.closed = true := rfl

theorem tryPush_fst (c : TokenChannel) (event : TokenEvent) : (c.tryPush event).1 = !c.refuses := by
  unfold tryPush
  cases c.refuses <;> rfl

@[simp] theorem closed_tryPush (c : TokenChannel) (event : TokenEvent) :
    (c.tryPush event).2.closed = c.closed := by
  unfold tryPush
  split_ifs <;> rfl

theorem closed_pop {c c' : TokenChannel} {event : Option TokenEvent}
    (h : c.pop = some (event, c')) : c'.closed = c.closed := by
  unfold pop at h
  split at h
  · cases h
    rfl
  · split_ifs at h
    cases h
    rfl

/-- A consumer that pops until `nullopt`: the events it gets, or nothing if it has to wait or has made
`n` pops. -/
def consume : Nat → TokenChannel → Option (List TokenEvent)
  | 0, _ => none
  | n + 1, c =>
      match c.pop with
      | none => none
      | some (none, _) => some []
      | some (some event, rest) => (consume n rest).map (event :: ·)

/-- No consumer of a closed channel waits: it gets what the buffer holds and comes to an end. -/
theorem consume_closed {c : TokenChannel} (h : c.closed = true) :
    c.consume (c.size + 1) = some c.buffer := by
  obtain ⟨buffer, closed, capacity⟩ := c
  cases h
  change consume (buffer.length + 1) ⟨buffer, true, capacity⟩ = some buffer
  induction buffer with
  | nil => rfl
  | cons event rest ih =>
      rw [List.length_cons, consume]
      simp only [pop]
      rw [ih]
      rfl

end TokenChannel

end Tokamak
