import Tokamak.Json
import Tokamak.Lines
import Tokamak.Refinement
import Tokamak.SimulationCost

/-! The trace: one JSON object a line, one line a tick. The simulation writes its trace as it goes, and is
the same with it and without. From the trace the ticks can be read back. The texts are those of a `dump()`
of which no more is known than is documented. -/

open Outcome

namespace Tokamak

structure TraceEvent where
  iteration : Nat
  timestampNs : Int
  policy : String
  runnablePrefill : Nat
  runnableDecode : Nat
  selectedSequences : Nat
  prefillTokens : Nat
  decodeTokens : Nat
  deriving DecidableEq, Repr

def makeTraceEvent (report : TickReport) (iteration : Nat) (policy : String) (simStart : TimePoint) :
    TraceEvent :=
  { iteration := iteration
    timestampNs := report.timestamp - simStart
    policy := policy
    runnablePrefill := report.prefillAttempted
    runnableDecode := report.decodeAttempted
    selectedSequences := report.decodeAttempted
    prefillTokens := report.prefillTokens
    decodeTokens := report.decodeTokens }

namespace TraceEvent

/-- `to_json`. -/
def toJson (event : TraceEvent) : JsonObject where
  members := [
    ("decode_tokens", .integer event.decodeTokens),
    ("iteration", .integer event.iteration),
    ("policy", .string event.policy),
    ("prefill_tokens", .integer event.prefillTokens),
    ("runnable_decode", .integer event.runnableDecode),
    ("runnable_prefill", .integer event.runnablePrefill),
    ("selected_sequences", .integer event.selectedSequences),
    ("timestamp_ns", .integer event.timestampNs)]
  ascending := show ["decode_tokens", "iteration", "policy", "prefill_tokens", "runnable_decode",
    "runnable_prefill", "selected_sequences", "timestamp_ns"].Pairwise (· < ·) by decide

/-- `TraceWriter::write`, to a stream that has received `out`. It writes nothing if `dump()` throws. -/
def write (dump : JsonDump) (out : List Char) (event : TraceEvent) :
    Except JsonException (List Char) := do
  let text ← dump event.toJson
  .ok (out ++ (text ++ ['\n']))

theorem toJson_injective : Function.Injective toJson := by
  intro a b h
  have hmembers : a.toJson.members = b.toJson.members := by rw [h]
  cases a
  cases b
  simp only [toJson, List.cons.injEq, Prod.mk.injEq, JsonValue.integer.injEq, JsonValue.string.injEq,
    Nat.cast_inj, true_and, and_true] at hmembers
  obtain ⟨hdecodeTokens, hiteration, hpolicy, hprefillTokens, hdecode, hprefill, hselected, htime⟩ :=
    hmembers
  subst hdecodeTokens hiteration hpolicy hprefillTokens hdecode hprefill hselected htime
  rfl

/-- The policy is the only string of an event that is not fixed. -/
theorem isAscii_toJson (event : TraceEvent) : event.toJson.isAscii = Json.isAscii event.policy := by
  have hkey : ∀ key ∈ ["decode_tokens", "iteration", "policy", "prefill_tokens", "runnable_decode",
      "runnable_prefill", "selected_sequences", "timestamp_ns"], Json.isAscii key = true := by decide
  simp [JsonObject.isAscii, toJson, hkey]

variable {dump : JsonDump} {events : List TraceEvent} {texts : List (List Char)} {out text : List Char}

theorem write_eq_ok {event : TraceEvent} : event.write dump out = .ok text ↔
    ∃ line, dump event.toJson = .ok line ∧ text = out ++ (line ++ ['\n']) := by
  unfold write
  rw [bind_eq_ok]
  constructor
  · rintro ⟨line, hline, h⟩
    exact ⟨line, hline, (Except.ok.inj h).symm⟩
  · rintro ⟨line, hline, rfl⟩
    exact ⟨line, hline, rfl⟩

theorem write_eq_error {event : TraceEvent} {e : JsonException} :
    event.write dump out = .error e ↔ dump event.toJson = .error e := by
  unfold write
  cases dump event.toJson with
  | ok line =>
      constructor
      · intro h
        cases h
      · intro h
        cases h
  | error e' => rfl

/-- What a stream has received once some events are written to it. -/
theorem run_write_ok : run (write dump) out events = .ok text ↔ ∃ texts : List (List Char),
    events.map (fun event => dump event.toJson) = texts.map Except.ok ∧
      text = out ++ Lines.unlines '\n' texts := by
  induction events generalizing out with
  | nil =>
      rw [run_nil]
      constructor
      · intro h
        cases h
        exact ⟨[], rfl, (List.append_nil text).symm⟩
      · rintro ⟨texts, htexts, rfl⟩
        rw [List.map_eq_nil_iff.mp htexts.symm]
        exact congrArg Except.ok (List.append_nil _).symm
  | cons event rest ih =>
      rw [run_cons, bind_eq_ok]
      constructor
      · rintro ⟨u, hu, hrest⟩
        obtain ⟨line, hline, rfl⟩ := write_eq_ok.mp hu
        obtain ⟨texts, htexts, rfl⟩ := ih.mp hrest
        refine ⟨line :: texts, by rw [List.map_cons, List.map_cons, hline, htexts], ?_⟩
        rw [Lines.unlines_cons]
        simp
      · rintro ⟨texts, htexts, rfl⟩
        cases texts with
        | nil => cases htexts
        | cons line texts =>
            obtain ⟨hline, hrest⟩ := List.cons.inj htexts
            refine ⟨_, write_eq_ok.mpr ⟨line, hline, rfl⟩, ih.mpr ⟨texts, hrest, ?_⟩⟩
            rw [Lines.unlines_cons]
            simp

/-- The lines of a trace are read back as they were written. -/
theorem lines_unlines (hdump : dump.Documented)
    (htexts : events.map (fun event => dump event.toJson) = texts.map Except.ok) :
    Lines.lines '\n' (Lines.unlines '\n' texts) = texts := by
  refine Lines.lines_unlines (fun line hline => ?_)
  have hmem : Except.ok line ∈ events.map fun event => dump event.toJson := by
    rw [htexts]
    exact List.mem_map_of_mem hline
  obtain ⟨event, -, hevent⟩ := List.mem_map.mp hmem
  exact hdump.oneLine event.toJson line hevent

/-- Different events have different lines. -/
theorem eq_of_texts (hdump : dump.Documented) {events' : List TraceEvent}
    (htexts : events.map (fun event => dump event.toJson) = texts.map Except.ok)
    (htexts' : events'.map (fun event => dump event.toJson) = texts.map Except.ok) :
    events' = events := by
  induction texts generalizing events events' with
  | nil => rw [List.map_eq_nil_iff.mp htexts, List.map_eq_nil_iff.mp htexts']
  | cons line texts ih =>
      cases events with
      | nil => cases htexts
      | cons event rest =>
          cases events' with
          | nil => cases htexts'
          | cons event' rest' =>
              obtain ⟨hline, hrest⟩ := List.cons.inj htexts
              obtain ⟨hline', hrest'⟩ := List.cons.inj htexts'
              rw [toJson_injective (hdump.injective _ _ line hline' hline), ih hrest hrest']

/-- **A trace can be read back.** Events that are written to a stream one after the other come out as one
line each, in their order and whatever their policies are, and no other sequence of events leaves the
stream the same. Writing them fails at the first event whose `dump()` throws, behind the lines of the
events before it, and never at a policy in ASCII. -/
theorem trace_read_back (dump : JsonDump) (hdump : dump.Documented) (events : List TraceEvent)
    (out : List Char) :
    (∀ text, run (write dump) out events = .ok text → ∃ texts : List (List Char),
      events.map (fun event => dump event.toJson) = texts.map Except.ok ∧
      text = out ++ Lines.unlines '\n' texts ∧
      Lines.lines '\n' (Lines.unlines '\n' texts) = texts ∧
      ∀ events', run (write dump) out events' = .ok text → events' = events) ∧
    ∀ e, run (write dump) out events = .error e → ∃ front event back text,
      events = front ++ event :: back ∧ run (write dump) out front = .ok text ∧
        dump event.toJson = .error e ∧ Json.isAscii event.policy = false := by
  constructor
  · intro text h
    obtain ⟨texts, htexts, rfl⟩ := run_write_ok.mp h
    refine ⟨texts, htexts, rfl, lines_unlines hdump htexts, fun events' h' => ?_⟩
    obtain ⟨texts', htexts', hsame⟩ := run_write_ok.mp h'
    have hlines : texts' = texts := by
      rw [← lines_unlines hdump htexts, List.append_cancel_left hsame, lines_unlines hdump htexts']
    exact eq_of_texts hdump htexts (hlines ▸ htexts')
  · intro e h
    obtain ⟨front, event, back, text, hsplit, hfront, hevent⟩ := run_eq_error.mp h
    have hthrown : dump event.toJson = .error e := write_eq_error.mp hevent
    refine ⟨front, event, back, text, hsplit, hfront, hthrown, Bool.eq_false_iff.mpr ?_⟩
    intro hpolicy
    obtain ⟨line, hline⟩ := hdump.ascii event.toJson ((isAscii_toJson event).trans hpolicy)
    rw [hthrown] at hline
    cases hline

/-- A quote and a line end in the policies. -/
def oddPolicies : List TraceEvent :=
  [⟨0, 0, "fi\"fo", 1, 1, 1, 2, 1⟩, ⟨1, 5, "fi\nfo", 1, 1, 1, 2, 1⟩]

theorem trace_read_back_oddPolicies :
    ∃ text, run (write Json.asciiDump) [] oddPolicies = .ok text ∧
      (Lines.lines '\n' text).length = 2 ∧
      ∀ events', run (write Json.asciiDump) [] events' = .ok text → events' = oddPolicies := by
  obtain ⟨text, hrun, -⟩ := exists_of_map_ok (x := run (write Json.asciiDump) [] oddPolicies)
    (f := fun _ => ()) (b := ()) (by decide +kernel)
  obtain ⟨texts, htexts, rfl, hlines, hunique⟩ :=
    (trace_read_back Json.asciiDump Json.documented_asciiDump oddPolicies []).1 text hrun
  refine ⟨_, hrun, ?_, hunique⟩
  have hlength := congrArg List.length htexts
  rw [List.length_map, List.length_map] at hlength
  rw [List.nil_append, hlines, ← hlength]
  rfl

end TraceEvent

/-! ### A simulation with a trace -/

/-- The local variables of `run_simulation` with a trace writer, and what its stream has received. -/
structure TracedSimulation where
  simulation : Simulation
  iteration : Nat
  trace : Option (List Char)

namespace TracedSimulation

def start (workload : Workload) (trace : Option (List Char)) : TracedSimulation :=
  ⟨.start workload, 0, trace⟩

def continues (s : TracedSimulation) : Bool := s.simulation.continues

/-- `trace_writer->write`, if there is a trace writer. What `dump()` throws is caught nowhere. -/
def writeTrace (dump : JsonDump) (event : TraceEvent) :
    Option (List Char) → Except Panic (Option (List Char))
  | none => .ok none
  | some out =>
      match event.write dump out with
      | .ok out => .ok (some out)
      | .error _ => .error .uncaughtDump

/-- The body of the main loop. -/
def pass (dump : JsonDump) (simStart : TimePoint) (s : TracedSimulation) :
    Except Panic TracedSimulation := do
  let m ← s.simulation.submitArrived (elapsedMs s.simulation.now) s.simulation.remaining
  if m.busy then
    let done ← m.scheduler.tick
    let trace ← writeTrace dump (makeTraceEvent done.2 s.iteration "fifo" simStart) s.trace
    .ok {
      simulation := { m with scheduler := done.1, reports := m.reports ++ [done.2] }
      iteration := s.iteration + 1
      trace := trace }
  else
    match m.remaining with
    | [] => .ok { s with simulation := m }
    | next :: _ => do
        let m ← m.jump next
        .ok { s with simulation := m }

end TracedSimulation

/-- `run_simulation` with a trace writer, or without, given up after `fuel` tests of its main loop. -/
def runTraced (dump : JsonDump) (fuel : Nat) (workload : Workload) (trace : Option (List Char)) :
    Option (Except Panic (SimulationResult × Option (List Char))) :=
  let simStart := (Simulation.start workload).now
  (whileLoop TracedSimulation.continues (TracedSimulation.pass dump simStart) fuel
    (.start workload trace)).map (fun out => out.map fun s => (s.simulation.result, s.trace))

/-- The events of the ticks of a simulation. -/
def traceEvents (reports : List TickReport) : List TraceEvent :=
  reports.mapIdx fun iteration report => makeTraceEvent report iteration "fifo" 0

/-- The lines of the events that can be dumped. -/
def traceText (dump : JsonDump) (reports : List TickReport) : List Char :=
  Lines.unlines '\n' ((traceEvents reports).filterMap fun event => (dump event.toJson).toOption)

section Events

variable {dump : JsonDump}

/-- The policy of the simulation is ASCII. -/
theorem dump_makeTraceEvent (hdump : dump.Documented) (report : TickReport) (iteration : Nat) :
    ∃ text, dump (makeTraceEvent report iteration "fifo" 0).toJson = .ok text := by
  have hfifo : Json.isAscii "fifo" = true := by decide
  exact hdump.ascii _ ((TraceEvent.isAscii_toJson _).trans hfifo)

/-- The events of a simulation can be dumped, all of them. -/
theorem dump_traceEvents (hdump : dump.Documented) (reports : List TickReport) :
    ∃ texts : List (List Char),
      (traceEvents reports).map (fun event => dump event.toJson) = texts.map Except.ok ∧
        traceText dump reports = Lines.unlines '\n' texts := by
  have hall : ∀ event ∈ traceEvents reports, ∃ text, dump event.toJson = .ok text := by
    intro event hevent
    obtain ⟨iteration, hlt, rfl⟩ := List.mem_mapIdx.mp hevent
    exact dump_makeTraceEvent hdump _ iteration
  refine ⟨_, ?_, rfl⟩
  generalize traceEvents reports = events at hall
  induction events with
  | nil => rfl
  | cons event rest ih =>
      obtain ⟨text, htext⟩ := hall event List.mem_cons_self
      rw [List.filterMap_cons_some (b := text) (by rw [htext]; rfl), List.map_cons, List.map_cons, htext,
        ih (fun other hother => hall other (List.mem_cons_of_mem event hother))]

theorem traceText_concat {report : TickReport} {reports : List TickReport} {text : List Char}
    (htext : dump (makeTraceEvent report reports.length "fifo" 0).toJson = .ok text) :
    traceText dump (reports ++ [report]) = traceText dump reports ++ (text ++ ['\n']) := by
  unfold traceText traceEvents
  rw [List.mapIdx_concat, List.filterMap_append, Lines.unlines_append,
    List.filterMap_cons_some (b := text) (by rw [htext]; rfl), Lines.unlines_cons]
  rfl

theorem iteration_traceEvents (reports : List TickReport) :
    (traceEvents reports).map (fun event => event.iteration) = List.range reports.length := by
  unfold traceEvents
  rw [List.mapIdx_eq_zipIdx_map, List.map_map]
  change reports.zipIdx.map Prod.snd = _
  rw [List.zipIdx_map_snd, List.range_eq_range']

theorem timestampNs_traceEvents (reports : List TickReport) :
    (traceEvents reports).map (fun event => event.timestampNs) =
      reports.map fun report => report.timestamp := by
  unfold traceEvents
  rw [List.mapIdx_eq_zipIdx_map, List.map_map]
  change reports.zipIdx.map (fun entry => entry.1.timestamp - 0) = _
  simp only [Int.sub_zero]
  change reports.zipIdx.map ((fun report => report.timestamp) ∘ Prod.fst) = _
  rw [← List.map_map, List.zipIdx_map_fst]

end Events

/-- A state of the simulation, with the trace of its ticks so far. -/
def Simulation.traced (dump : JsonDump) (trace : Option (List Char)) (s : Simulation) :
    TracedSimulation :=
  ⟨s, s.reports.length, trace.map fun out => out ++ traceText dump s.reports⟩

namespace TracedSimulation

variable {dump : JsonDump} {trace : Option (List Char)} {workload : Workload}

theorem start_eq (dump : JsonDump) :
    start workload trace = (Simulation.start workload).traced dump trace := by
  cases trace with
  | none => rfl
  | some out =>
      unfold start Simulation.traced
      rw [Option.map_some]
      exact congrArg _ (congrArg some (List.append_nil out).symm)

/-- Nothing is thrown. -/
theorem writeTrace_eq (hdump : dump.Documented) (report : TickReport) (reports : List TickReport) :
    writeTrace dump (makeTraceEvent report reports.length "fifo" 0)
        (trace.map fun out => out ++ traceText dump reports) =
      .ok (trace.map fun out => out ++ traceText dump (reports ++ [report])) := by
  cases trace with
  | none => rfl
  | some out =>
      obtain ⟨text, htext⟩ := dump_makeTraceEvent hdump report reports.length
      have hwrite : (makeTraceEvent report reports.length "fifo" 0).write dump
          (out ++ traceText dump reports) = .ok (out ++ traceText dump (reports ++ [report])) := by
        refine TraceEvent.write_eq_ok.mpr ⟨text, htext, ?_⟩
        rw [traceText_concat htext, List.append_assoc]
      unfold writeTrace
      simp only [Option.map_some]
      rw [hwrite]

/-- A pass with the trace writer is a pass without it. -/
theorem pass_traced (hdump : dump.Documented) (s : Simulation) :
    s.pass.map (Simulation.traced dump trace) = pass dump 0 (s.traced dump trace) := by
  obtain ⟨batch, m, hm, hqueued, -⟩ :=
    Simulation.submitArrived_queued (fun _ => True) (fun _ _ _ _ _ => trivial) (s := s) trivial
  have hreports := hqueued.reports
  unfold Simulation.pass pass Simulation.traced
  rw [hm, ok_bind, ok_bind]
  by_cases hbusy : m.busy = true
  · rw [if_pos hbusy, if_pos hbusy]
    cases htick : m.scheduler.tick with
    | error e => rfl
    | ok done =>
        rw [ok_bind, ok_bind, writeTrace_eq hdump, ok_bind]
        simp only [Except.map, hreports, List.length_append, List.length_singleton]
  · rw [if_neg hbusy, if_neg hbusy]
    cases hremaining : m.remaining with
    | nil =>
        simp only [Except.map, hreports]
    | cons next rest =>
        change (m.jump next).map (Simulation.traced dump trace) = (m.jump next >>= fun m' => .ok _)
        cases hjump : m.jump next with
        | error e => rfl
        | ok m' =>
            have hkept : m'.reports = s.reports := by
              rw [(Simulation.jump_ok hjump).2]
              exact hreports
            simp only [Except.map, ok_bind, Simulation.traced, hkept]

end TracedSimulation

/-- The trace is what the ticks of the simulation without a trace writer give. -/
theorem runTraced_eq {dump : JsonDump} (hdump : dump.Documented) (fuel : Nat) (workload : Workload)
    (trace : Option (List Char)) :
    runTraced dump fuel workload trace = (runSimulation fuel workload).map
      (fun out => out.map fun result =>
        (result, trace.map fun text => text ++ traceText dump result.tickReports)) := by
  unfold runTraced runSimulation
  have hloop : (whileLoop Simulation.continues Simulation.pass fuel (.start workload)).map
      (fun out => out.map (Simulation.traced dump trace)) =
      whileLoop TracedSimulation.continues (TracedSimulation.pass dump 0) fuel
        (.start workload trace) := by
    rw [TracedSimulation.start_eq dump]
    have htest : ∀ u : Simulation, True →
        TracedSimulation.continues (u.traced dump trace) = u.continues := fun _ _ => rfl
    exact whileLoop_map (Simulation.traced dump trace) (fun _ => True) trivial htest
      (fun u _ _ => TracedSimulation.pass_traced hdump u) (fun _ _ _ _ _ => trivial) fuel
  change (whileLoop _ (TracedSimulation.pass dump 0) fuel _).map _ = _
  rw [← hloop, Option.map_map, Option.map_map]
  congr 1
  funext out
  cases out with
  | error e => rfl
  | ok s => rfl

/-- **The trace changes nothing and holds every tick.** The simulation with a trace writer does what it
does without: it returns the same result, aborts with the same message or does not end. Whenever it is at
the top of its main loop, so also when it aborts or is killed later, the stream has received one event for
each tick so far and nothing else, line by line, counted from zero and with timestamps that increase
strictly. -/
theorem trace_holds_every_tick (dump : JsonDump) (hdump : dump.Documented) (workload : Workload) :
    (∀ fuel trace, runTraced dump fuel workload trace = (runSimulation fuel workload).map
      (fun out => out.map fun result =>
        (result, trace.map fun text => text ++ traceText dump result.tickReports))) ∧
    ∀ out s, Visits TracedSimulation.continues (TracedSimulation.pass dump 0)
        (.start workload (some out)) s →
      workload.Visits s.simulation ∧ ∃ (events : List TraceEvent) (texts : List (List Char)),
        events = s.simulation.reports.mapIdx (fun iteration report =>
          makeTraceEvent report iteration "fifo" 0) ∧
        events.map (fun event => dump event.toJson) = texts.map Except.ok ∧
        s.trace = some (out ++ Lines.unlines '\n' texts) ∧
        Lines.lines '\n' (Lines.unlines '\n' texts) = texts ∧
        events.map (fun event => event.iteration) = List.range s.simulation.reports.length ∧
        (events.map fun event => event.timestampNs).Pairwise (· < ·) := by
  constructor
  · intro fuel trace
    exact runTraced_eq hdump fuel workload trace
  · intro out s hs
    let kept : TracedSimulation → Prop :=
      fun s => ∃ u, workload.Visits u ∧ u.traced dump (some out) = s
    obtain ⟨u, hu, rfl⟩ : kept s := by
      refine hs.inv ⟨_, .start, (TracedSimulation.start_eq dump).symm⟩ ?_
      rintro t t' ⟨u, hu, rfl⟩ hcontinues hpass
      rw [← TracedSimulation.pass_traced hdump] at hpass
      obtain ⟨u', hu', hview⟩ := exists_of_map_ok hpass
      exact ⟨u', hu.pass hcontinues hu', hview⟩
    obtain ⟨texts, htexts, htrace⟩ := dump_traceEvents hdump u.reports
    refine ⟨hu, traceEvents u.reports, texts, rfl, htexts, ?_, TraceEvent.lines_unlines hdump htexts,
      ?_, ?_⟩
    · exact congrArg (fun text => some (out ++ text)) htrace
    · exact iteration_traceEvents u.reports
    · rw [timestampNs_traceEvents]
      exact hu.timed.increasing

/-- The second record arrives during the first tick. -/
theorem trace_holds_every_tick_overlapping :
    (runTraced Json.asciiDump 3 overlapping (some [])).map (fun out => out.map fun done => done.2) =
      some (.ok (some (Lines.unlines '\n' [
        "\x7b\"decode_tokens\":1,\"iteration\":0,\"policy\":\"fifo\",\"prefill_tokens\":2,\"runnable_decode\":1,\"runnable_prefill\":1,\"selected_sequences\":1,\"timestamp_ns\":7000000\x7d".toList,
        "\x7b\"decode_tokens\":2,\"iteration\":1,\"policy\":\"fifo\",\"prefill_tokens\":1,\"runnable_decode\":2,\"runnable_prefill\":1,\"selected_sequences\":2,\"timestamp_ns\":13000000\x7d".toList]))) := by
  rw [(trace_holds_every_tick Json.asciiDump Json.documented_asciiDump overlapping).1]
  decide +kernel

end Tokamak
