import Tokamak.Simulation

/-! The checks and the throughput figures computed from the summaries of a run. Doubles are taken as
exact rationals. -/

namespace Tokamak

structure InvariantViolation where
  requestId : RequestId
  description : String
  deriving DecidableEq, Repr

structure ThroughputStats where
  throughputTokensPerSec : ℚ
  goodputTokensPerSec : ℚ
  sloAttainmentRate : ℚ
  deriving DecidableEq, Repr

namespace RequestSummary

/-- Both sides are present and the second one comes first. -/
def outOfOrder (earlier later : Option TimePoint) : Bool :=
  match earlier, later with
  | some a, some b => decide (b < a)
  | _, _ => false

/-- The loop body of `check_invariants`. -/
def violations (r : RequestSummary) : List InvariantViolation :=
  (if r.finalState.isTerminal then []
    else [⟨r.id, "request did not reach a terminal state (final state: " ++ r.finalState.toString ++
      ")"⟩]) ++
  (if r.maxOutputTokens < r.outputTokensEmitted then
      [⟨r.id, "output_tokens_emitted (" ++ toString r.outputTokensEmitted ++
        ") exceeded max_output_tokens (" ++ toString r.maxOutputTokens ++ ")"⟩]
    else []) ++
  (if outOfOrder r.admittedAt r.firstTokenAt then
      [⟨r.id, "first_token_at occurred before admitted_at"⟩] else []) ++
  (if outOfOrder r.firstTokenAt r.completedAt then
      [⟨r.id, "completed_at occurred before first_token_at"⟩] else []) ++
  (if outOfOrder r.admittedAt r.completedAt then
      [⟨r.id, "completed_at occurred before admitted_at"⟩] else [])

/-- `completed_at.has_value() && *completed_at <= deadline_at`. -/
def metDeadline (r : RequestSummary) : Bool :=
  match r.completedAt with
  | some t => decide (t ≤ r.deadlineAt)
  | none => false

theorem outOfOrder_eq_false {earlier later : Option TimePoint} :
    outOfOrder earlier later = false ↔
      ∀ a b, earlier = some a → later = some b → a ≤ b := by
  cases earlier with
  | none => simp [outOfOrder]
  | some a =>
      cases later with
      | none => simp [outOfOrder]
      | some b => simp [outOfOrder]

/-- A summary is reported on exactly when it breaks one of the rules. -/
theorem violations_eq_nil {r : RequestSummary} :
    r.violations = [] ↔ r.finalState.isTerminal = true ∧
      r.outputTokensEmitted ≤ r.maxOutputTokens ∧
      (∀ a b, r.admittedAt = some a → r.firstTokenAt = some b → a ≤ b) ∧
      (∀ a b, r.firstTokenAt = some a → r.completedAt = some b → a ≤ b) ∧
      (∀ a b, r.admittedAt = some a → r.completedAt = some b → a ≤ b) := by
  unfold violations
  rw [← outOfOrder_eq_false, ← outOfOrder_eq_false, ← outOfOrder_eq_false]
  simp only [List.append_eq_nil_iff, ite_eq_left_iff, ite_eq_right_iff, List.cons_ne_nil, imp_false,
    not_lt, Bool.not_eq_true, Bool.not_eq_false, and_assoc]

end RequestSummary

def checkInvariants (requests : List RequestSummary) : List InvariantViolation :=
  requests.flatMap RequestSummary.violations

theorem checkInvariants_eq_nil {requests : List RequestSummary} :
    checkInvariants requests = [] ↔ ∀ r ∈ requests, r.violations = [] :=
  List.flatMap_eq_nil_iff

/-- `attaining_count` of `compute_throughput_stats`: the terminal requests that met their deadline. -/
def attainingCount (requests : List RequestSummary) : Nat :=
  requests.countP (fun r => r.finalState.isTerminal && r.metDeadline)

def computeThroughputStats (requests : List RequestSummary) (simWallTime : Duration) :
    ThroughputStats :=
  let wallTimeSec : ℚ := simWallTime / 1000000000
  let totalTokens := (requests.map (fun r => r.outputTokensEmitted)).sum
  let terminalCount := requests.countP (fun r => r.finalState.isTerminal)
  let goodTokens := ((requests.filter (fun r => r.finalState.isTerminal && r.metDeadline)).map
    (fun r => r.outputTokensEmitted)).sum
  { throughputTokensPerSec := if 0 < wallTimeSec then totalTokens / wallTimeSec else 0
    goodputTokensPerSec := if 0 < wallTimeSec then goodTokens / wallTimeSec else 0
    sloAttainmentRate := if 0 < terminalCount then attainingCount requests / terminalCount else 0 }

end Tokamak
