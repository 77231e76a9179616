import Tokamak.Loop
import Tokamak.MockBackend
import Tokamak.Scheduler

/-! The simulation driver: a workload is replayed against a scheduler over a mock backend on a fake
clock that starts at zero. Arrival times and deadlines are fractional milliseconds, taken as exact
rationals; a cast to a duration truncates them toward zero to whole nanoseconds. The main loop may
run for ever, so it is given a number of tests. The trace writer is added to the loop elsewhere. -/

open Outcome

namespace Tokamak

structure WorkloadRequest where
  id : RequestId
  arrivalMs : ℚ
  promptTokenIds : List UInt32
  maxTokens : Nat
  deadlineMs : ℚ
  deriving DecidableEq, Repr

/-- What `load_workload` returns: records in ascending order of arrival. -/
structure Workload where
  records : List WorkloadRequest
  sorted : records.Pairwise (fun a b => a.arrivalMs ≤ b.arrivalMs)

/-- `duration_cast<Duration>(duration<double, std::milli>(ms))`, but for the rounding of the product. -/
def durationCast (ms : ℚ) : Duration := (ms * 1000000).num.tdiv (ms * 1000000).den

/-- `duration<double, std::milli>(t - TimePoint{}).count()`. -/
def elapsedMs (t : TimePoint) : ℚ := (t : ℚ) / 1000000

structure RequestSummary where
  id : RequestId
  finalState : RequestState
  deadlineAt : TimePoint
  admittedAt : Option TimePoint
  waitingPrefillAt : Option TimePoint
  prefillingAt : Option TimePoint
  waitingDecodeAt : Option TimePoint
  decodingAt : Option TimePoint
  firstTokenAt : Option TimePoint
  completedAt : Option TimePoint
  outputTokensEmitted : Nat
  maxOutputTokens : Nat
  deriving DecidableEq, Repr

structure SimulationResult where
  tickReports : List TickReport
  requests : List RequestSummary
  deriving DecidableEq, Repr

def Request.summary (q : Request) : RequestSummary :=
  { id := q.id
    finalState := q.state
    deadlineAt := q.deadlineAt
    admittedAt := q.lifecycle.admittedAt
    waitingPrefillAt := q.lifecycle.enteredAtState .waitingPrefill
    prefillingAt := q.lifecycle.enteredAtState .prefilling
    waitingDecodeAt := q.lifecycle.enteredAtState .waitingDecode
    decodingAt := q.lifecycle.enteredAtState .decoding
    firstTokenAt := q.lifecycle.firstTokenAt
    completedAt := q.lifecycle.completedAt
    outputTokensEmitted := q.outputTokensEmitted
    maxOutputTokens := q.maxOutputTokens }

/-- The local variables of `run_simulation`. -/
structure Simulation where
  scheduler : FifoScheduler MockBackend
  /-- `workload` from `next_to_submit` on. -/
  remaining : List WorkloadRequest
  submitted : List RequestPtr
  reports : List TickReport

namespace Simulation

/-- `MockBackend(clock, 1ms, 5ms)` on a clock at zero. -/
def start (workload : Workload) : Simulation :=
  ⟨.new (.new ⟨0⟩ 1000000 5000000), workload.records, [], []⟩

def now (s : Simulation) : TimePoint := s.scheduler.world.clock.now

/-- There is runnable work. -/
def busy (s : Simulation) : Bool :=
  decide (0 < s.scheduler.waitingCount) || decide (0 < s.scheduler.decodingCount)

/-- The test of the main loop. -/
def continues (s : Simulation) : Bool := !s.remaining.isEmpty || s.busy

/-- The body of the submission loop. -/
def submitRecord (s : Simulation) (record : WorkloadRequest) (rest : List WorkloadRequest) :
    Except Panic Simulation := do
  let made := Request.construct record.id s.scheduler.world (durationCast record.deadlineMs)
    record.maxTokens record.promptTokenIds 0
  let done ← { s.scheduler with world := made.2 }.submit made.1
  .ok { s with
    scheduler := done.1
    remaining := rest
    submitted := s.submitted ++ [done.2] }

/-- Submits records as long as the next one has arrived. -/
def submitArrived (elapsed : ℚ) (s : Simulation) : List WorkloadRequest → Except Panic Simulation
  | [] => .ok s
  | record :: rest =>
      if record.arrivalMs ≤ elapsed then do
        let s ← s.submitRecord record rest
        submitArrived elapsed s rest
      else .ok s

/-- Idle: the clock jumps to the next arrival. -/
def jump (s : Simulation) (next : WorkloadRequest) : Except Panic Simulation := do
  let w ← callBackend (s.scheduler.world.advance (durationCast next.arrivalMs - s.now))
  .ok { s with scheduler := { s.scheduler with world := w } }

/-- The body of the main loop. -/
def pass (s : Simulation) : Except Panic Simulation := do
  let s ← s.submitArrived (elapsedMs s.now) s.remaining
  if s.busy then
    let done ← s.scheduler.tick
    .ok { s with scheduler := done.1, reports := s.reports ++ [done.2] }
  else
    match s.remaining with
    | [] => .ok s
    | next :: _ => s.jump next

/-- The snapshot after the loop. -/
def result (s : Simulation) : SimulationResult :=
  ⟨s.reports, s.submitted.map fun r => (s.scheduler.request r).summary⟩

end Simulation

/-- `run_simulation`, given up after `fuel` tests of its main loop. -/
def runSimulation (fuel : Nat) (workload : Workload) : Option (Except Panic SimulationResult) :=
  (whileLoop Simulation.continues Simulation.pass fuel (.start workload)).map
    (fun out => out.map Simulation.result)

namespace Workload

/-- The main loop of `run_simulation` ends, by returning or by aborting. -/
def Ends (workload : Workload) : Prop := ∃ fuel, (runSimulation fuel workload).isSome = true

/-- `run_simulation` returns. -/
def Returns (workload : Workload) (result : SimulationResult) : Prop :=
  ∃ fuel, runSimulation fuel workload = some (.ok result)

/-- The state at the top of the main loop, in some pass. -/
def Visits (workload : Workload) (s : Simulation) : Prop :=
  Outcome.Visits Simulation.continues Simulation.pass (.start workload) s

theorem ends_iff {workload : Workload} :
    workload.Ends ↔ Outcome.Ends Simulation.continues Simulation.pass (.start workload) := by
  simp [Ends, Outcome.Ends, runSimulation]

/-- A simulation that is seen to return returns what was seen. -/
theorem exists_returns {β : Type} {workload : Workload} {fuel : Nat} {view : SimulationResult → β}
    {b : β} (h : (runSimulation fuel workload).map (fun out => out.map view) = some (.ok b)) :
    ∃ result, workload.Returns result ∧ view result = b := by
  obtain ⟨out, hout, hview⟩ := Option.map_eq_some_iff.mp h
  obtain ⟨result, rfl, hresult⟩ := exists_of_map_ok hview
  exact ⟨result, ⟨fuel, hout⟩, hresult⟩

theorem Returns.state {workload : Workload} {result : SimulationResult}
    (h : workload.Returns result) : ∃ s, s.result = result ∧
      Outcome.Returns Simulation.continues Simulation.pass (.start workload) s := by
  obtain ⟨fuel, hfuel⟩ := h
  obtain ⟨out, hout, hresult⟩ := Option.map_eq_some_iff.mp hfuel
  obtain ⟨s, rfl, hs⟩ := exists_of_map_ok hresult
  exact ⟨s, hs, fuel, hout⟩

end Workload

end Tokamak
