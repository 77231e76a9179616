import Tokamak.AnalysisLatency
import Tokamak.SimulationBreakdown
import Tokamak.Telemetry
import Tokamak.WorkloadFile

/-! The program: it replays a workload file and prints what has come of it, and writes the trace on demand.
The trace file is opened, and so emptied, before the workload is loaded. Of what is printed to the standard
output the data are modelled, not their texts; of an abort its cause, not what it prints or leaves on disk.
A file that is opened can be read and written without errors. -/

open Outcome

namespace Tokamak

/-- The files on disk. Two paths may name the same file. -/
structure Disk where
  file : String → Nat
  content : Nat → Option (List Char)
  readable : Nat → Bool
  writable : Nat → Bool

namespace Disk

/-- What an `ifstream` gets. -/
def files (disk : Disk) : Files := fun path =>
  if disk.readable (disk.file path) then disk.content (disk.file path) else none

def write (disk : Disk) (path : String) (text : List Char) : Disk :=
  { disk with content := Function.update disk.content (disk.file path) (some text) }

/-- `trace_file.open`, if there is to be a trace, or what is printed if it fails. -/
def openTrace (disk : Disk) : Option String → Except String Disk
  | none => .ok disk
  | some path =>
      if disk.writable (disk.file path) then .ok (disk.write path [])
      else .error ("error: could not open trace output file: " ++ path ++ "\n")

/-- The trace has been written, if there is one. -/
def traced (disk : Disk) (text : List Char) : Option String → Disk
  | none => disk
  | some path => disk.write path text

end Disk

structure Options where
  workloadPath : String
  traceOutPath : Option String
  deriving DecidableEq, Repr

/-- The loop over the arguments behind the first one. -/
def parseFlags (traceOutPath : Option String) : List String → Option (Option String)
  | [] => some traceOutPath
  | [_] => none
  | arg :: path :: rest => if arg = "--trace-out" then parseFlags (some path) rest else none

/-- What `main` makes of its arguments, the program name apart; `none` if it prints its usage. -/
def parseArgs : List String → Option Options
  | [] => none
  | workloadPath :: flags =>
      (parseFlags none flags).map fun traceOutPath => ⟨workloadPath, traceOutPath⟩

/-- What `print_usage` prints to the standard error stream. -/
def usage (programName : String) : String :=
  "usage: " ++ programName ++ " <workload.jsonl> [--trace-out <path>]\n"

/-- What is printed to the standard output. -/
structure Printed where
  breakdown : List (RequestId × RequestState × List (Option ℚ))
  iterations : List TickReport
  latency : LatencyStats
  throughput : ThroughputStats
  violations : List InvariantViolation

/-- What `main` prints after the simulation. -/
def printed (result : SimulationResult) : Option Printed := do
  let latency ← computeLatencyStats result.requests
  let simWallTime := Workload.lastTimestamp result.tickReports
  some {
    breakdown := result.requests.map fun r => (r.id, r.finalState, r.times)
    iterations := result.tickReports
    latency := latency
    throughput := computeThroughputStats result.requests simWallTime
    violations := checkInvariants result.requests }

/-- What has aborted the process. -/
inductive MainFailure where
  | load (failure : LoadFailure)
  | simulation (p : Panic)
  deriving DecidableEq, Repr

inductive MainOutcome where
  /-- `errors` is what `main` has printed to the standard error stream. -/
  | returned (exitCode : Nat) (output : Option Printed) (errors : String) (disk : Disk)
  | aborted (failure : MainFailure)
  /-- A value is read that is not there. -/
  | undefined

variable {J : Type} (json : JsonLibrary J) (dump : JsonDump) (order : ArrivalSort)

/-- `main`, once the trace file is open. -/
def runLoaded (fuel : Nat) (options : Options) (disk : Disk) : Option MainOutcome :=
  match loadWorkload json order disk.files options.workloadPath with
  | .error failure => some (.aborted (.load failure))
  | .ok workload =>
      match runTraced dump fuel workload (options.traceOutPath.map fun _ => []) with
      | none => none
      | some (.error p) => some (.aborted (.simulation p))
      | some (.ok done) =>
          match printed done.1 with
          | none => some .undefined
          | some output =>
              some (.returned (if output.violations = [] then 0 else 1) (some output) ""
                (disk.traced (done.2.getD []) options.traceOutPath))

/-- `main`, given up after `fuel` tests of the main loop of the simulation. -/
def runMain (fuel : Nat) (programName : String) (args : List String) (disk : Disk) :
    Option MainOutcome :=
  match parseArgs args with
  | none => some (.returned 1 none (usage programName) disk)
  | some options =>
      match disk.openTrace options.traceOutPath with
      | .error message => some (.returned 1 none message disk)
      | .ok opened => runLoaded json dump order fuel options opened

theorem Workload.Returns.checkInvariants_eq_nil {workload : Workload} {result : SimulationResult}
    (h : workload.Returns result) : checkInvariants result.requests = [] := by
  obtain ⟨s, rfl, hreturns⟩ := h.state
  obtain ⟨hvisits, hexit⟩ := hreturns.visits
  have hs : s.Sound workload := Workload.Visits.sound hvisits
  obtain ⟨hsize, hterminal⟩ := hs.final hexit
  refine Tokamak.checkInvariants_eq_nil.mpr (fun r hr => ?_)
  rw [hs.summaries] at hr
  obtain ⟨i, hi, rfl⟩ := List.mem_map.mp hr
  have hlt := List.mem_range.mp hi
  have hrecord := List.getElem?_eq_getElem (hsize ▸ hlt)
  exact Simulation.violations_of_serves (hs.serves i _ hlt hrecord) (hs.punctual.milestones i hlt)
    (hterminal i hlt)

/-- Whatever has come of the simulation can be printed. -/
theorem printed_total (result : SimulationResult) : ∃ output, printed result = some output ∧
    output.violations = checkInvariants result.requests := by
  obtain ⟨latency, hlatency, -⟩ := computeLatencyStats_total result.requests
  unfold printed
  rw [hlatency]
  exact ⟨_, rfl, rfl⟩

variable {json dump order}

/-- Once the workload is loaded, the program ends as the simulation does. -/
theorem runLoaded_eq (hdump : dump.Documented) {fuel : Nat} {options : Options} {disk : Disk}
    {workload : Workload}
    (hload : loadWorkload json order disk.files options.workloadPath = .ok workload) :
    runLoaded json dump order fuel options disk = (runSimulation fuel workload).map fun out =>
      match out with
      | .error p => .aborted (.simulation p)
      | .ok result => .returned 0 (printed result) ""
          (disk.traced (traceText dump result.tickReports) options.traceOutPath) := by
  unfold runLoaded
  rw [hload]
  simp only
  rw [runTraced_eq hdump]
  cases hout : runSimulation fuel workload with
  | none => rfl
  | some out =>
      cases out with
      | error e => rfl
      | ok result =>
          have hreturns : workload.Returns result := ⟨fuel, hout⟩
          obtain ⟨output, houtput, hviolations⟩ := printed_total result
          rw [hreturns.checkInvariants_eq_nil] at hviolations
          simp only [Option.map_some, Except.map, houtput, hviolations, if_true]
          cases options.traceOutPath with
          | none => rfl
          | some path => rfl

theorem runLoaded_of_error {fuel : Nat} {options : Options} {disk : Disk} {failure : LoadFailure}
    (hload : loadWorkload json order disk.files options.workloadPath = .error failure) :
    runLoaded json dump order fuel options disk = some (.aborted (.load failure)) := by
  unfold runLoaded
  rw [hload]

theorem runMain_of_opened {fuel : Nat} {programName : String} {args : List String}
    {disk opened : Disk} {options : Options} (hargs : parseArgs args = some options)
    (hopen : disk.openTrace options.traceOutPath = .ok opened) :
    runMain json dump order fuel programName args disk =
      runLoaded json dump order fuel options opened := by
  unfold runMain
  rw [hargs]
  simp only
  rw [hopen]

theorem Disk.openTrace_eq_error {disk : Disk} {traceOutPath : Option String} {message : String}
    (h : disk.openTrace traceOutPath = .error message) : ∃ path, traceOutPath = some path ∧
      disk.writable (disk.file path) = false ∧
        message = "error: could not open trace output file: " ++ path ++ "\n" := by
  cases traceOutPath with
  | none => cases h
  | some path =>
      unfold Disk.openTrace at h
      simp only at h
      split_ifs at h with hwritable
      exact ⟨path, rfl, Bool.eq_false_iff.mpr hwritable, (Except.error.inj h).symm⟩

/-- How the program can end, with the arguments, the disk, the workload and the simulation it had. -/
inductive EndsMain (json : JsonLibrary J) (dump : JsonDump) (order : ArrivalSort) (fuel : Nat)
    (programName : String) (args : List String) (disk : Disk) : MainOutcome → Prop
  | usage (hargs : parseArgs args = none) :
      EndsMain json dump order fuel programName args disk (.returned 1 none (usage programName) disk)
  | cannotOpen {options : Options} {message : String} (hargs : parseArgs args = some options)
      (hopen : disk.openTrace options.traceOutPath = .error message) :
      EndsMain json dump order fuel programName args disk (.returned 1 none message disk)
  | loadFails {options : Options} {opened : Disk} {failure : LoadFailure}
      (hargs : parseArgs args = some options)
      (hopen : disk.openTrace options.traceOutPath = .ok opened)
      (hload : loadWorkload json order opened.files options.workloadPath = .error failure) :
      EndsMain json dump order fuel programName args disk (.aborted (.load failure))
  | simulationAborts {options : Options} {opened : Disk} {workload : Workload} {p : Panic}
      (hargs : parseArgs args = some options)
      (hopen : disk.openTrace options.traceOutPath = .ok opened)
      (hload : loadWorkload json order opened.files options.workloadPath = .ok workload)
      (hsimulation : runSimulation fuel workload = some (.error p)) :
      EndsMain json dump order fuel programName args disk (.aborted (.simulation p))
  | returns {options : Options} {opened : Disk} {workload : Workload} {result : SimulationResult}
      {output : Printed} (hargs : parseArgs args = some options)
      (hopen : disk.openTrace options.traceOutPath = .ok opened)
      (hload : loadWorkload json order opened.files options.workloadPath = .ok workload)
      (hsimulation : runSimulation fuel workload = some (.ok result))
      (hprinted : printed result = some output) (hchecked : output.violations = []) :
      EndsMain json dump order fuel programName args disk (.returned 0 (some output) ""
        (opened.traced (traceText dump result.tickReports) options.traceOutPath))

theorem runMain_ends (hdump : dump.Documented) {fuel : Nat} {programName : String}
    {args : List String} {disk : Disk} {outcome : MainOutcome}
    (h : runMain json dump order fuel programName args disk = some outcome) :
    EndsMain json dump order fuel programName args disk outcome := by
  cases hargs : parseArgs args with
  | none =>
      unfold runMain at h
      rw [hargs] at h
      cases h
      exact .usage hargs
  | some options =>
      cases hopen : disk.openTrace options.traceOutPath with
      | error message =>
          unfold runMain at h
          rw [hargs] at h
          simp only at h
          rw [hopen] at h
          cases h
          exact .cannotOpen hargs hopen
      | ok opened =>
          rw [runMain_of_opened hargs hopen] at h
          cases hload : loadWorkload json order opened.files options.workloadPath with
          | error failure =>
              rw [runLoaded_of_error hload] at h
              cases h
              exact .loadFails hargs hopen hload
          | ok workload =>
              rw [runLoaded_eq hdump hload] at h
              obtain ⟨out, hout, h⟩ := Option.map_eq_some_iff.mp h
              cases out with
              | error p =>
                  cases h
                  exact .simulationAborts hargs hopen hload hout
              | ok result =>
                  have hreturns : workload.Returns result := ⟨fuel, hout⟩
                  obtain ⟨shown, hshown, hviolations⟩ := printed_total result
                  rw [hreturns.checkInvariants_eq_nil] at hviolations
                  simp only [hshown] at h
                  cases h
                  exact .returns hargs hopen hload hout hshown hviolations

/-- **The exit code tells what has come of the run.** The program returns one only if its arguments are not
understood or the trace file cannot be opened; it has then said so to the standard error stream, printed
nothing to the standard output and touched no file. It returns zero if and only if the workload is loaded,
after the trace file was emptied, and the simulation of it returns; then it has printed that result, with
the invariant check passed, and the trace file holds one line for each tick. It aborts only if the workload
cannot be loaded or the simulation aborts. The check never fails, and nothing is printed that is not
there. -/
theorem main_outcome (json : JsonLibrary J) (dump : JsonDump) (hdump : dump.Documented)
    (order : ArrivalSort) (programName : String) (args : List String) (disk : Disk) :
    (∀ fuel code output errors disk',
      runMain json dump order fuel programName args disk = some (.returned code output errors disk') →
      (code = 1 ∧ output = none ∧ disk' = disk ∧
        ((parseArgs args = none ∧ errors = usage programName) ∨ ∃ options path,
          parseArgs args = some options ∧ options.traceOutPath = some path ∧
            disk.writable (disk.file path) = false ∧
            errors = "error: could not open trace output file: " ++ path ++ "\n")) ∨
      (code = 0 ∧ errors = "" ∧ ∃ options opened workload result shown texts,
        parseArgs args = some options ∧ disk.openTrace options.traceOutPath = .ok opened ∧
        loadWorkload json order opened.files options.workloadPath = .ok workload ∧
        workload.Returns result ∧ printed result = some shown ∧ shown.violations = [] ∧
        output = some shown ∧
        (traceEvents result.tickReports).map (fun event => dump event.toJson) = texts.map Except.ok ∧
        disk' = opened.traced (Lines.unlines '\n' texts) options.traceOutPath)) ∧
    (∀ options opened workload result, parseArgs args = some options →
      disk.openTrace options.traceOutPath = .ok opened →
      loadWorkload json order opened.files options.workloadPath = .ok workload →
      workload.Returns result → ∃ fuel output disk',
        runMain json dump order fuel programName args disk = some (.returned 0 output "" disk')) ∧
    (∀ fuel failure, runMain json dump order fuel programName args disk = some (.aborted failure) →
      ∃ options opened, parseArgs args = some options ∧
        disk.openTrace options.traceOutPath = .ok opened ∧
        ((∃ e, loadWorkload json order opened.files options.workloadPath = .error e ∧
            failure = .load e) ∨
          ∃ workload p, loadWorkload json order opened.files options.workloadPath = .ok workload ∧
            runSimulation fuel workload = some (.error p) ∧ failure = .simulation p)) ∧
    ∀ fuel, runMain json dump order fuel programName args disk ≠ some .undefined := by
  refine ⟨?_, ?_, ?_, ?_⟩
  · intro fuel code output errors disk' h
    cases runMain_ends hdump h with
    | usage hargs => exact .inl ⟨rfl, rfl, rfl, .inl ⟨hargs, rfl⟩⟩
    | @cannotOpen options _ hargs hopen =>
        obtain ⟨path, hpath, hwritable, hmessage⟩ := Disk.openTrace_eq_error hopen
        exact .inl ⟨rfl, rfl, rfl, .inr ⟨options, path, hargs, hpath, hwritable, hmessage⟩⟩
    | @returns options opened workload result shown hargs hopen hload hsimulation hprinted hchecked =>
        obtain ⟨texts, htexts, htrace⟩ := dump_traceEvents hdump result.tickReports
        exact .inr ⟨rfl, rfl, options, opened, workload, result, shown, texts, hargs, hopen, hload,
          ⟨fuel, hsimulation⟩, hprinted, hchecked, rfl, htexts, by rw [htrace]⟩
  · intro options opened workload result hargs hopen hload hreturns
    obtain ⟨fuel, hfuel⟩ := hreturns
    refine ⟨fuel, printed result,
      opened.traced (traceText dump result.tickReports) options.traceOutPath, ?_⟩
    rw [runMain_of_opened hargs hopen, runLoaded_eq hdump hload, hfuel]
    rfl
  · intro fuel failure h
    cases runMain_ends hdump h with
    | @loadFails options opened e hargs hopen hload =>
        exact ⟨options, opened, hargs, hopen, .inl ⟨e, hload, rfl⟩⟩
    | @simulationAborts options opened workload p hargs hopen hload hsimulation =>
        exact ⟨options, opened, hargs, hopen, .inr ⟨workload, p, hload, hsimulation, rfl⟩⟩
  · intro fuel h
    cases runMain_ends hdump h

/-- The two records in one file, and another file for the trace. -/
def twoFiles : Disk :=
  ⟨fun path => if path = "w.jsonl" then 0 else 1, fun file =>
    if file = 0 then some (Lines.unlines '\n' [recordText, tiedText]) else none, fun _ => true,
    fun _ => true⟩

/-- The two records take two ticks. -/
theorem main_outcome_twoFiles :
    ∃ fuel shown disk', runMain recordJson Json.asciiDump mergeSortArrivals fuel "tokamak"
        ["w.jsonl", "--trace-out", "t.jsonl"] twoFiles = some (.returned 0 (some shown) "" disk') ∧
      shown.violations = [] ∧
      (disk'.content 1).map (fun text => (Lines.lines '\n' text).length) = some 2 := by
  obtain ⟨hcode, hzero, -, -⟩ := main_outcome recordJson Json.asciiDump Json.documented_asciiDump
    mergeSortArrivals "tokamak" ["w.jsonl", "--trace-out", "t.jsonl"] twoFiles
  have hargs : parseArgs ["w.jsonl", "--trace-out", "t.jsonl"] = some ⟨"w.jsonl", some "t.jsonl"⟩ := by
    decide +kernel
  have hfile : (twoFiles.write "t.jsonl" []).files "w.jsonl" =
      some (Lines.unlines '\n' [recordText, tiedText]) := rfl
  have hload : loadWorkload recordJson mergeSortArrivals (twoFiles.write "t.jsonl" []).files "w.jsonl" =
      .ok Workload.together := by
    refine (loadWorkload_eq_ok hfile).mpr
      ⟨Workload.together.records, ?_, (List.mergeSort_of_pairwise (by decide)).symm⟩
    rw [recordLines_unlines (by decide +kernel)]
    decide +kernel
  obtain ⟨result, hresult, hticks⟩ := Workload.exists_returns (show
    (runSimulation 3 Workload.together).map (fun out => out.map fun result =>
      result.tickReports.length) = some (.ok 2) by decide +kernel)
  obtain ⟨fuel, output, disk', hmain⟩ := hzero _ _ Workload.together result hargs rfl hload hresult
  rcases hcode fuel 0 output "" disk' hmain with ⟨hone, -⟩ | ⟨-, -, options, opened, workload, result',
    shown, texts, hargs', hopen', hload', hreturns, -, hchecked, rfl, htexts, rfl⟩
  · cases hone
  · rw [hargs] at hargs'
    cases hargs'
    cases hopen'
    rw [hload] at hload'
    cases hload'
    have hsame : result' = result := (hreturns.unique hresult).symm
    have hlength := congrArg List.length htexts
    rw [List.length_map, List.length_map, traceEvents, List.length_mapIdx, hsame, hticks] at hlength
    refine ⟨fuel, shown, _, hmain, hchecked, ?_⟩
    change some (Lines.lines '\n' (Lines.unlines '\n' texts)).length = some 2
    rw [TraceEvent.lines_unlines Json.documented_asciiDump htexts, hlength]

/-- **A trace that is written over the workload destroys it.** If the trace file is the workload file,
under whatever two names, and can be opened both for writing and for reading, it is emptied before it is
read: the program reports on no request, passes its check, returns zero, and leaves an empty file
behind. -/
theorem trace_over_workload (json : JsonLibrary J) (dump : JsonDump) (order : ArrivalSort)
    (programName : String) (args : List String) (disk : Disk)
    (options : Options) (path : String) (hargs : parseArgs args = some options)
    (htrace : options.traceOutPath = some path)
    (hsame : disk.file path = disk.file options.workloadPath)
    (hwritable : disk.writable (disk.file path) = true)
    (hreadable : disk.readable (disk.file path) = true) (fuel : Nat) :
    runMain json dump order (fuel + 1) programName args disk =
      some (.returned 0 (printed ⟨[], []⟩) "" (disk.write path [])) := by
  have hopen : disk.openTrace options.traceOutPath = .ok (disk.write path []) := by
    rw [htrace, Disk.openTrace, if_pos hwritable]
  have hempty : (disk.write path []).files options.workloadPath = some [] := by
    unfold Disk.files Disk.write
    simp only
    rw [← hsame, if_pos hreadable, Function.update_self]
  obtain ⟨workload, hload, hrecords⟩ : ∃ workload : Workload,
      loadWorkload json order (disk.write path []).files options.workloadPath = .ok workload ∧
        workload.records = order.sort [] :=
    ⟨⟨order.sort [], order.ascending []⟩, (loadWorkload_eq_ok hempty).mpr ⟨[], rfl, rfl⟩, rfl⟩
  have hnone : workload.records = [] := by
    rw [hrecords]
    exact List.perm_nil.mp (order.perm [])
  -- the loop is not entered, so that no `dump()` is called
  have hreturns : runTraced dump (fuel + 1) workload (some []) = some (.ok (⟨[], []⟩, some [])) := by
    unfold runTraced
    have hexit : TracedSimulation.continues (.start workload (some [])) = false := by
      unfold TracedSimulation.continues TracedSimulation.start Simulation.continues Simulation.start
      rw [hnone]
      rfl
    simp only
    rw [whileLoop, if_neg (by rw [hexit]; exact Bool.false_ne_true)]
    rfl
  have hdisk : (disk.write path []).traced [] (some path) = disk.write path [] := by
    unfold Disk.traced Disk.write
    simp only
    rw [Function.update_idem]
  obtain ⟨output, houtput, hviolations⟩ := printed_total ⟨[], []⟩
  rw [runMain_of_opened hargs hopen]
  unfold runLoaded
  rw [hload, htrace]
  simp only [Option.map_some]
  rw [hreturns]
  simp only [houtput, Option.getD_some]
  rw [hdisk, hviolations]
  rfl

/-- One file under two names. -/
def twoNames : Disk :=
  ⟨fun _ => 0, fun _ => some (Lines.unlines '\n' [recordText]), fun _ => true, fun _ => true⟩

theorem trace_over_workload_twoNames :
    runMain recordJson Json.asciiDump mergeSortArrivals 1 "tokamak"
        ["w.jsonl", "--trace-out", "./w.jsonl"] twoNames =
      some (.returned 0 (printed ⟨[], []⟩) "" (twoNames.write "./w.jsonl" [])) :=
  trace_over_workload recordJson Json.asciiDump mergeSortArrivals "tokamak" _ twoNames
    ⟨"w.jsonl", some "./w.jsonl"⟩ "./w.jsonl" (by decide +kernel) rfl rfl rfl rfl 0

end Tokamak
