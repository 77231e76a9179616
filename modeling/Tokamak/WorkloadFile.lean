import Tokamak.Json
import Tokamak.Lines
import Tokamak.Refinement
import Tokamak.SimulationTies

/-! Workload files: one JSON object a line. The JSON library is a parameter, and so is `std::sort`, of
which no more is known than that it returns its records in ascending order of arrival. A file is read
line by line up to the first one that is wrong, and that line is named. -/

open Outcome

namespace Tokamak

/-- The files that can be opened, by their paths. -/
abbrev Files := String → Option (List Char)

/-- The JSON library, as far as `load_workload` uses it: `parse`, `at` and `get` at four types. -/
structure JsonLibrary (J : Type) where
  parse : List Char → Except JsonException J
  member : J → String → Except JsonException J
  getString : J → Except JsonException String
  getDouble : J → Except JsonException ℚ
  getTokenIds : J → Except JsonException (List UInt32)
  getSize : J → Except JsonException Nat

/-- `std::sort` by arrival: some permutation of the records, in ascending order. -/
structure ArrivalSort where
  sort : List WorkloadRequest → List WorkloadRequest
  perm : ∀ records, (sort records).Perm records
  ascending : ∀ records, (sort records).Pairwise (fun a b => a.arrivalMs ≤ b.arrivalMs)

/-- How `load_workload` ends the process. -/
inductive LoadFailure where
  | panic (message : String)
  /-- `parse` has thrown something else than a `parse_error`, which nobody catches. -/
  | terminate
  deriving DecidableEq, Repr

/-- What can be wrong with a line. -/
inductive LineFault where
  | malformedJson
  | badField
  | uncaught
  deriving DecidableEq, Repr

def LineFault.failure (path : String) (lineNumber : Nat) : LineFault → LoadFailure
  | .malformedJson => .panic ("load_workload: malformed JSON on line " ++ toString lineNumber ++
      " of " ++ path)
  | .badField => .panic ("load_workload: missing/wrong-typed field on line " ++ toString lineNumber ++
      " of " ++ path)
  | .uncaught => .terminate

namespace JsonLibrary

variable {J : Type} (json : JsonLibrary J)

/-- The second `try` block. -/
def readFields (obj : J) : Except JsonException WorkloadRequest := do
  let id ← json.getString (← json.member obj "id")
  let arrivalMs ← json.getDouble (← json.member obj "arrival_ms")
  let promptTokenIds ← json.getTokenIds (← json.member obj "prompt_token_ids")
  let maxTokens ← json.getSize (← json.member obj "max_tokens")
  let deadlineMs ← json.getDouble (← json.member obj "deadline_ms")
  .ok ⟨id, arrivalMs, promptTokenIds, maxTokens, deadlineMs⟩

/-- What a line that is not empty holds. -/
def readLine (line : List Char) : Except LineFault WorkloadRequest :=
  match json.parse line with
  | .error .parseError => .error .malformedJson
  | .error .other => .error .uncaught
  | .ok obj =>
      match json.readFields obj with
      | .error _ => .error .badField
      | .ok req => .ok req

end JsonLibrary

/-- The local variables of `load_workload`. -/
structure Loading where
  requests : List WorkloadRequest
  lineNumber : Nat
  deriving DecidableEq, Repr

variable {J : Type} (json : JsonLibrary J) (order : ArrivalSort) (files : Files) (path : String)

/-- The loop body of `load_workload`. -/
def Loading.loadLine (s : Loading) (line : List Char) : Except LoadFailure Loading :=
  if line = [] then .ok { s with lineNumber := s.lineNumber + 1 }
  else
    match json.readLine line with
    | .error fault => .error (fault.failure path (s.lineNumber + 1))
    | .ok req => .ok ⟨s.requests ++ [req], s.lineNumber + 1⟩

def loadWorkload : Except LoadFailure Workload :=
  match files path with
  | none => .error (.panic ("load_workload: could not open file: " ++ path))
  | some content => do
      let s ← run (Loading.loadLine json path) ⟨[], 0⟩ (Lines.lines '\n' content)
      .ok ⟨order.sort s.requests, order.ascending s.requests⟩

/-- The lines that hold something. -/
def recordLines (content : List Char) : List (List Char) :=
  (Lines.lines '\n' content).filter (fun line => line ≠ [])

theorem recordLines_unlines {texts : List (List Char)} (h : ∀ line ∈ texts, '\n' ∉ line) :
    recordLines (Lines.unlines '\n' texts) = texts.filter fun line => line ≠ [] := by
  unfold recordLines
  rw [Lines.lines_unlines h]

namespace Loading

variable {json path} {s t : Loading} {line : List Char} {texts : List (List Char)}

theorem loadLine_nil : s.loadLine json path [] = .ok ⟨s.requests, s.lineNumber + 1⟩ := rfl

theorem loadLine_of_ok {req : WorkloadRequest} (hline : line ≠ []) (hread : json.readLine line = .ok req) :
    s.loadLine json path line = .ok ⟨s.requests ++ [req], s.lineNumber + 1⟩ := by
  unfold loadLine
  rw [if_neg hline, hread]

theorem loadLine_of_error {fault : LineFault} (hline : line ≠ [])
    (hread : json.readLine line = .error fault) :
    s.loadLine json path line = .error (fault.failure path (s.lineNumber + 1)) := by
  unfold loadLine
  rw [if_neg hline, hread]

/-- The loop gets through when every line that is not empty holds a record. -/
theorem run_loadLine_ok : run (loadLine json path) s texts = .ok t ↔
    ∃ records : List WorkloadRequest,
      (texts.filter fun line => line ≠ []).map json.readLine = records.map Except.ok ∧
        t = ⟨s.requests ++ records, s.lineNumber + texts.length⟩ := by
  induction texts generalizing s with
  | nil =>
      rw [run_nil]
      constructor
      · intro h
        cases h
        exact ⟨[], rfl, by rw [List.append_nil, List.length_nil, Nat.add_zero]⟩
      · rintro ⟨records, hrecords, rfl⟩
        rw [List.map_eq_nil_iff.mp hrecords.symm, List.append_nil, List.length_nil, Nat.add_zero]
  | cons line rest ih =>
      have hlength : s.lineNumber + (line :: rest).length = s.lineNumber + 1 + rest.length := by
        rw [List.length_cons]
        omega
      rw [run_cons, hlength]
      by_cases hline : line = []
      · subst hline
        rw [loadLine_nil, ok_bind, ih, List.filter_cons_of_neg (by simp)]
      · rw [List.filter_cons_of_pos (by simp [hline]), List.map_cons]
        cases hread : json.readLine line with
        | error fault =>
            rw [loadLine_of_error hline hread, error_bind]
            constructor
            · intro h
              cases h
            · rintro ⟨records, hrecords, -⟩
              cases records with
              | nil => cases hrecords
              | cons req records => cases (List.cons.inj hrecords).1
        | ok req =>
            rw [loadLine_of_ok hline hread, ok_bind, ih]
            constructor
            · rintro ⟨records, hrecords, rfl⟩
              refine ⟨req :: records, by rw [List.map_cons, hrecords], ?_⟩
              rw [List.append_assoc]
              rfl
            · rintro ⟨records, hrecords, rfl⟩
              cases records with
              | nil => cases hrecords
              | cons first records =>
                  obtain ⟨hfirst, hrest⟩ := List.cons.inj hrecords
                  cases hfirst
                  refine ⟨records, hrest, ?_⟩
                  rw [List.append_assoc]
                  rfl

theorem loadLine_eq_error {failure : LoadFailure} :
    s.loadLine json path line = .error failure ↔ line ≠ [] ∧ ∃ fault,
      json.readLine line = .error fault ∧ failure = fault.failure path (s.lineNumber + 1) := by
  by_cases hline : line = []
  · subst hline
    rw [loadLine_nil]
    constructor
    · intro h
      cases h
    · intro h
      exact absurd rfl h.1
  · cases hread : json.readLine line with
    | error fault =>
        rw [loadLine_of_error hline hread]
        constructor
        · intro h
          exact ⟨hline, fault, rfl, (Except.error.inj h).symm⟩
        · rintro ⟨-, fault', hfault, rfl⟩
          cases hfault
          rfl
    | ok req =>
        rw [loadLine_of_ok hline hread]
        constructor
        · intro h
          cases h
        · rintro ⟨-, fault, hfault, -⟩
          cases hfault

end Loading

/-- A line that does not stop the loop. -/
def Passes (line : List Char) : Prop := line = [] ∨ ∃ req, json.readLine line = .ok req

variable {json}

theorem passes_iff {texts : List (List Char)} : (∀ line ∈ texts, Passes json line) ↔
    ∃ records : List WorkloadRequest,
      (texts.filter fun line => line ≠ []).map json.readLine = records.map Except.ok := by
  induction texts with
  | nil => exact ⟨fun _ => ⟨[], rfl⟩, fun _ line hline => by cases hline⟩
  | cons line rest ih =>
      rw [List.forall_mem_cons, ih]
      by_cases hline : line = []
      · rw [List.filter_cons_of_neg (by simp [hline])]
        exact ⟨fun h => h.2, fun h => ⟨.inl hline, h⟩⟩
      · rw [List.filter_cons_of_pos (by simp [hline]), List.map_cons]
        constructor
        · rintro ⟨hpasses, records, hrecords⟩
          obtain ⟨req, hreq⟩ := hpasses.resolve_left hline
          exact ⟨req :: records, by rw [List.map_cons, hrecords, hreq]⟩
        · rintro ⟨records, hrecords⟩
          cases records with
          | nil => cases hrecords
          | cons req records =>
              obtain ⟨hreq, hrest⟩ := List.cons.inj hrecords
              exact ⟨.inr ⟨req, hreq⟩, records, hrest⟩

variable {order files path}

theorem loadWorkload_eq_ok {content : List Char} (hopen : files path = some content)
    {workload : Workload} : loadWorkload json order files path = .ok workload ↔
      ∃ records : List WorkloadRequest,
        (recordLines content).map json.readLine = records.map Except.ok ∧
          workload.records = order.sort records := by
  unfold loadWorkload
  rw [hopen]
  simp only [bind_eq_ok, Loading.run_loadLine_ok, List.nil_append]
  constructor
  · rintro ⟨s, ⟨records, hrecords, rfl⟩, h⟩
    cases h
    exact ⟨records, hrecords, rfl⟩
  · rintro ⟨records, hrecords, hsorted⟩
    refine ⟨_, ⟨records, hrecords, rfl⟩, ?_⟩
    cases workload
    cases hsorted
    rfl

/-- **A workload file is read to its end or to its first bad line.** The workload that is loaded consists
of the records of all lines that are not empty, in ascending order of arrival. The process is ended
exactly if one of these lines is not a record; then the first such line is named, by its number in the
file, empty lines included, and by what is wrong with it. -/
theorem load_workload_outcome (json : JsonLibrary J) (order : ArrivalSort) (files : Files) (path : String)
    (content : List Char) (hopen : files path = some content) :
    (∀ workload, loadWorkload json order files path = .ok workload ↔
      ∃ records : List WorkloadRequest, (recordLines content).map json.readLine = records.map Except.ok ∧
        workload.records = order.sort records) ∧
    ∀ failure, loadWorkload json order files path = .error failure ↔
      ∃ front line back fault, Lines.lines '\n' content = front ++ line :: back ∧
        (∀ earlier ∈ front, Passes json earlier) ∧ line ≠ [] ∧ json.readLine line = .error fault ∧
          failure = fault.failure path (front.length + 1) := by
  refine ⟨fun workload => loadWorkload_eq_ok hopen, fun failure => ?_⟩
  unfold loadWorkload
  rw [hopen]
  simp only [bind_eq_error]
  constructor
  · rintro (hrun | ⟨s, -, h⟩)
    · obtain ⟨front, line, back, s, hsplit, hfront, hline⟩ := run_eq_error.mp hrun
      obtain ⟨records, hrecords, rfl⟩ := Loading.run_loadLine_ok.mp hfront
      obtain ⟨hne, fault, hfault, hfailure⟩ := Loading.loadLine_eq_error.mp hline
      refine ⟨front, line, back, fault, hsplit, passes_iff.mpr ⟨records, hrecords⟩, hne, hfault, ?_⟩
      rw [hfailure, Nat.zero_add]
    · cases h
  · rintro ⟨front, line, back, fault, hsplit, hfront, hne, hfault, rfl⟩
    obtain ⟨records, hrecords⟩ := passes_iff.mp hfront
    refine .inl (run_eq_error.mpr ⟨front, line, back, _, hsplit,
      Loading.run_loadLine_ok.mpr ⟨records, hrecords, rfl⟩, ?_⟩)
    exact Loading.loadLine_eq_error.mpr ⟨hne, fault, hfault, by rw [Nat.zero_add]⟩

/-- The JSON library on the lines of a table. A value is the object on a line, or a member of it. -/
def tableJson (table : List (List Char × WorkloadRequest)) :
    JsonLibrary (WorkloadRequest × Option String) where
  parse line :=
    match table.lookup line with
    | some record => .ok (record, none)
    | none => .error .parseError
  member
    | (record, none), key => .ok (record, some key)
    | (_, some _), _ => .error .other
  getString
    | (record, some "id") => .ok record.id
    | _ => .error .other
  getDouble
    | (record, some "arrival_ms") => .ok record.arrivalMs
    | (record, some "deadline_ms") => .ok record.deadlineMs
    | _ => .error .other
  getTokenIds
    | (record, some "prompt_token_ids") => .ok record.promptTokenIds
    | _ => .error .other
  getSize
    | (record, some "max_tokens") => .ok record.maxTokens
    | _ => .error .other

/-- `{"id":"a","arrival_ms":0,"prompt_token_ids":[7,8],"max_tokens":2,"deadline_ms":100}` -/
def recordText : List Char :=
  "\x7b\"id\":\"a\",\"arrival_ms\":0,\"prompt_token_ids\":[7,8],\"max_tokens\":2,\"deadline_ms\":100\x7d".toList

/-- `{"id":"b","arrival_ms":0,"prompt_token_ids":[7],"max_tokens":1,"deadline_ms":100}` -/
def tiedText : List Char :=
  "\x7b\"id\":\"b\",\"arrival_ms\":0,\"prompt_token_ids\":[7],\"max_tokens\":1,\"deadline_ms\":100\x7d".toList

def recordJson : JsonLibrary (WorkloadRequest × Option String) :=
  tableJson [(recordText, ⟨"a", 0, [7, 8], 2, 100⟩), (tiedText, ⟨"b", 0, [7], 1, 100⟩)]

/-- A record, an empty line and a line that is cut short. -/
def cutShort : Files := fun path =>
  if path = "w.jsonl" then some (Lines.unlines '\n' [recordText, [], recordText.take 20]) else none

def arrivesBefore (a b : WorkloadRequest) : Bool := decide (a.arrivalMs ≤ b.arrivalMs)

def mergeSortArrivals : ArrivalSort where
  sort records := records.mergeSort arrivesBefore
  perm records := List.mergeSort_perm records _
  ascending records := by
    have htrans : ∀ a b c, arrivesBefore a b = true → arrivesBefore b c = true →
        arrivesBefore a c = true := by
      intro a b c hab hbc
      exact decide_eq_true ((of_decide_eq_true hab).trans (of_decide_eq_true hbc))
    have htotal : ∀ a b, (arrivesBefore a b || arrivesBefore b a) = true := by
      intro a b
      rcases le_total a.arrivalMs b.arrivalMs with hab | hba
      · exact Bool.or_eq_true_iff.mpr (.inl (decide_eq_true hab))
      · exact Bool.or_eq_true_iff.mpr (.inr (decide_eq_true hba))
    exact (List.pairwise_mergeSort htrans htotal records).imp (fun hab => of_decide_eq_true hab)

theorem load_workload_outcome_cutShort :
    loadWorkload recordJson mergeSortArrivals cutShort "w.jsonl" =
      .error (.panic "load_workload: malformed JSON on line 3 of w.jsonl") := by
  refine ((load_workload_outcome recordJson mergeSortArrivals cutShort "w.jsonl" _ rfl).2 _).mpr
    ⟨[recordText, []], recordText.take 20, [], .malformedJson, ?_, ?_, ?_, ?_, ?_⟩
  · exact Lines.lines_unlines (by decide +kernel)
  · intro line hline
    rcases List.mem_cons.mp hline with rfl | hline
    · exact .inr ⟨⟨"a", 0, [7, 8], 2, 100⟩, by decide +kernel⟩
    · exact .inl (List.mem_singleton.mp hline)
  · decide +kernel
  · decide +kernel
  · decide +kernel

/-! ### The order of the lines -/

/-- What is read line by line may be read in another order. -/
theorem map_readLine_perm {texts texts' : List (List Char)} (hperm : texts'.Perm texts)
    {records : List WorkloadRequest} (h : texts.map json.readLine = records.map Except.ok) :
    ∃ records' : List WorkloadRequest, records'.Perm records ∧
      texts'.map json.readLine = records'.map Except.ok := by
  have hread : ∀ {texts : List (List Char)} {records : List WorkloadRequest},
      texts.map json.readLine = records.map Except.ok ↔
        List.Forall₂ (fun line req => json.readLine line = .ok req) texts records := by
    intro texts records
    rw [← List.forall₂_eq_eq_eq, List.forall₂_map_left_iff, List.forall₂_map_right_iff]
  obtain ⟨records', hrecords', hperm'⟩ := List.perm_comp_forall₂ hperm (hread.mp h)
  exact ⟨records', hperm', hread.mpr hrecords'⟩

/-- **The order of the lines does not matter.** Two files with the same lines that are not empty, in
whatever order, read with whatever `std::sort`: if the first one can be loaded and its ids are distinct,
so can the second, the simulation returns on the one exactly if it returns on the other, the tick reports
are the same, and so are the summaries, up to their order. -/
theorem line_order_irrelevant (json : JsonLibrary J) (order order' : ArrivalSort) (files : Files)
    (path path' : String) (content content' : List Char) (hopen : files path = some content)
    (hopen' : files path' = some content')
    (hlines : (recordLines content).Perm (recordLines content')) (workload : Workload)
    (hload : loadWorkload json order files path = .ok workload)
    (hids : (workload.records.map fun record => record.id).Nodup) :
    ∃ workload', loadWorkload json order' files path' = .ok workload' ∧
      ((∃ result, workload.Returns result) ↔ ∃ result, workload'.Returns result) ∧
      ∀ result result', workload.Returns result → workload'.Returns result' →
        result'.tickReports = result.tickReports ∧ result.requests.Perm result'.requests := by
  obtain ⟨records, hrecords, hsorted⟩ := (loadWorkload_eq_ok hopen).mp hload
  obtain ⟨records', hperm', hrecords'⟩ := map_readLine_perm hlines.symm hrecords
  obtain ⟨workload', hload', hsorted'⟩ : ∃ workload' : Workload,
      loadWorkload json order' files path' = .ok workload' ∧
        workload'.records = order'.sort records' :=
    ⟨⟨order'.sort records', order'.ascending records'⟩,
      (loadWorkload_eq_ok hopen').mpr ⟨records', hrecords', rfl⟩, rfl⟩
  have hperm : workload.records.Perm workload'.records := by
    rw [hsorted, hsorted']
    exact (order.perm records).trans (hperm'.symm.trans (order'.perm records').symm)
  have hids' : (workload'.records.map fun record => record.id).Nodup :=
    (hperm.map _).nodup_iff.mp hids
  refine ⟨workload', hload', ⟨?_, ?_⟩, ?_⟩
  · rintro ⟨result, h⟩
    obtain ⟨result', h', -⟩ := Workload.returns_of_perm hperm hids h
    exact ⟨result', h'⟩
  · rintro ⟨result, h⟩
    obtain ⟨result', h', -⟩ := Workload.returns_of_perm hperm.symm hids' h
    exact ⟨result', h'⟩
  · intro result result' h h'
    obtain ⟨other, hother, hreports, hrequests⟩ := Workload.returns_of_perm hperm hids h
    have heq := hother.unique h'
    subst heq
    exact ⟨hreports, hrequests⟩

/-- Two records with one arrival, in either order, and with empty lines in the second file. -/
def twoLayouts : Files := fun path =>
  if path = "w.jsonl" then some (Lines.unlines '\n' [recordText, tiedText])
  else some (Lines.unlines '\n' [[], tiedText, [], recordText])

/-- The records are loaded in different orders, and their simulations report the same. -/
theorem line_order_irrelevant_twoLayouts :
    loadWorkload recordJson mergeSortArrivals twoLayouts "w.jsonl" = .ok Workload.together ∧
    loadWorkload recordJson mergeSortArrivals twoLayouts "v.jsonl" = .ok Workload.swapped ∧
    ∃ result result', Workload.together.Returns result ∧ Workload.swapped.Returns result' ∧
      result'.tickReports = result.tickReports ∧ result.requests.Perm result'.requests := by
  have hlayout : recordLines (Lines.unlines '\n' [recordText, tiedText]) = [recordText, tiedText] :=
    (recordLines_unlines (by decide +kernel)).trans (by decide +kernel)
  have hlayout' : recordLines (Lines.unlines '\n' [[], tiedText, [], recordText]) =
      [tiedText, recordText] :=
    (recordLines_unlines (by decide +kernel)).trans (by decide +kernel)
  have hload : loadWorkload recordJson mergeSortArrivals twoLayouts "w.jsonl" = .ok Workload.together :=
    (loadWorkload_eq_ok rfl).mpr ⟨Workload.together.records, by rw [hlayout]; decide +kernel,
      (List.mergeSort_of_pairwise (by decide)).symm⟩
  have hload' : loadWorkload recordJson mergeSortArrivals twoLayouts "v.jsonl" = .ok Workload.swapped :=
    (loadWorkload_eq_ok rfl).mpr ⟨Workload.swapped.records, by rw [hlayout']; decide +kernel,
      (List.mergeSort_of_pairwise (by decide)).symm⟩
  have hlines : (recordLines (Lines.unlines '\n' [recordText, tiedText])).Perm
      (recordLines (Lines.unlines '\n' [[], tiedText, [], recordText])) := by
    rw [hlayout, hlayout']
    exact List.Perm.swap tiedText recordText []
  obtain ⟨workload', hloaded, hreturns, hsame⟩ := line_order_irrelevant recordJson mergeSortArrivals
    mergeSortArrivals twoLayouts "w.jsonl" "v.jsonl" _ _ rfl rfl hlines Workload.together hload (by decide)
  rw [hload'] at hloaded
  cases hloaded
  obtain ⟨result, hresult, -⟩ := Workload.exists_returns (show
    (runSimulation 3 Workload.together).map (fun out => out.map fun result =>
      result.requests.length) = some (.ok 2) by decide +kernel)
  obtain ⟨result', hresult'⟩ := hreturns.mp ⟨result, hresult⟩
  obtain ⟨hreports, hrequests⟩ := hsame result result' hresult hresult'
  exact ⟨hload, hload', result, result', hresult, hresult', hreports, hrequests⟩

end Tokamak
