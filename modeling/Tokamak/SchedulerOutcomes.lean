import Tokamak.SchedulerEvolution

/-! The outcomes of decode calls, kept as a history beside the run. A request is asked for in the decode
call of a tick if it is in the decoding queue by then, and the answer is delivered to it in the same
tick. The token counter, the token list and the state of a request are functions of what was delivered
to it: it is completed by the outcome that was flagged finished or used up its budget, which is then
the last one. -/

open Outcome

namespace Tokamak

/-- The tokens of the successful outcomes. -/
def tokensOf (outcomes : List (Except BackendError DecodedToken)) : List DecodedToken :=
  outcomes.filterMap Except.toOption

@[simp] theorem tokensOf_nil : tokensOf [] = [] := rfl

@[simp] theorem tokensOf_append (front back : List (Except BackendError DecodedToken)) :
    tokensOf (front ++ back) = tokensOf front ++ tokensOf back := List.filterMap_append

@[simp] theorem tokensOf_ok (token : DecodedToken) : tokensOf [.ok token] = [token] := rfl

@[simp] theorem tokensOf_error (e : BackendError) : tokensOf [.error e] = [] := rfl

namespace Request

/-- The last outcome that was delivered was the last token: it was flagged finished, or it brought the
request to its budget. -/
def Finishes (delivered : List (Except BackendError DecodedToken)) (q : Request) : Prop :=
  ∃ token, delivered.getLast? = some (.ok token) ∧
    (token.finished = true ∨ q.outputTokensEmitted = q.maxOutputTokens)

/-- How a request stands to the outcomes that were delivered to it. -/
structure Reflects (delivered : List (Except BackendError DecodedToken)) (q : Request) : Prop where
  tokens : q.outputTokenIds = (tokensOf delivered).map fun token => token.tokenId
  count : q.outputTokensEmitted = (tokensOf delivered).length
  budget : q.state = .decoding → q.outputTokensEmitted < q.maxOutputTokens
  unfinished : q.state.isTerminal = false →
    ∀ token, .ok token ∈ delivered → token.finished = false
  completed : q.state = .completed ↔ Finishes delivered q

section Steps

variable {delivered : List (Except BackendError DecodedToken)} {q q' : Request}

/-- A live request that ends without an outcome ends unfinished. -/
theorem Reflects.ended (h : Reflects delivered q) (hlive : q.state.isTerminal = false)
    (hterms : q.SameTerms q') (htokens : q.SameTokens q')
    (hstate : q'.state = .failed ∨ q'.state = .cancelled) : Reflects delivered q' := by
  have hended : q'.state ≠ .decoding ∧ q'.state.isTerminal = true ∧ q'.state ≠ .completed := by
    rcases hstate with h | h
    · rw [h]
      decide
    · rw [h]
      decide
  obtain ⟨hdecoding, hterminal, hopen⟩ := hended
  refine ⟨?_, ?_, fun hd => absurd hd hdecoding, fun hl => ?_, fun hc => absurd hc hopen, ?_⟩
  · rw [htokens.outputTokenIds]
    exact h.tokens
  · rw [htokens.outputTokensEmitted]
    exact h.count
  · rw [hterminal] at hl
    cases hl
  · rintro ⟨token, hlast, hfinish⟩
    rw [htokens.outputTokensEmitted, hterms.maxOutputTokens] at hfinish
    have hcompleted := h.completed.mpr ⟨token, hlast, hfinish⟩
    rw [hcompleted] at hlive
    cases hlive

/-- An outcome is delivered to a live request. -/
theorem Reflects.answered (h : Reflects delivered q) (hlive : q.state.isTerminal = false)
    {outcome : Except BackendError DecodedToken} (hanswered : q.Answered outcome q') :
    Reflects (delivered ++ [outcome]) q' := by
  cases hanswered with
  | failed e hterms htokens hstate =>
      have hopen : ¬Finishes (delivered ++ [.error e]) q' := by
        rintro ⟨token, hlast, -⟩
        rw [List.getLast?_concat] at hlast
        cases hlast
      refine ⟨?_, ?_, fun hd => ?_, fun hl => ?_, fun hc => ?_, fun hf => absurd hf hopen⟩
      · rw [htokens.outputTokenIds, tokensOf_append, tokensOf_error, List.append_nil]
        exact h.tokens
      · rw [htokens.outputTokensEmitted, tokensOf_append, tokensOf_error, List.append_nil]
        exact h.count
      · rw [hstate] at hd
        cases hd
      · rw [hstate] at hl
        cases hl
      · rw [hstate] at hc
        cases hc
  | emitted token hterms hbudget htokens hcount hstate =>
      -- the outcome decides between the two states
      have hfinishes : Finishes (delivered ++ [.ok token]) q' ↔
          (token.finished = true ∨ q.maxOutputTokens ≤ q.outputTokensEmitted + 1) := by
        unfold Finishes
        rw [List.getLast?_concat, hcount, hterms.maxOutputTokens]
        constructor
        · rintro ⟨last, hlast, hfinish⟩
          cases hlast
          exact hfinish.imp_right (fun heq => heq.ge)
        · intro hfinish
          exact ⟨token, rfl, hfinish.imp_right (fun hle => le_antisymm hbudget hle)⟩
      refine ⟨?_, ?_, fun hd => ?_, fun hl => ?_, ?_⟩
      · rw [htokens, h.tokens, tokensOf_append, tokensOf_ok, List.map_append, List.map_singleton]
      · rw [hcount, h.count, tokensOf_append, tokensOf_ok, List.length_append, List.length_singleton]
      · rw [hstate] at hd
        split_ifs at hd with hfinish
        rw [hcount, hterms.maxOutputTokens]
        exact not_le.mp (fun hle => hfinish (.inr hle))
      · rw [hstate] at hl
        split_ifs at hl with hfinish
        · cases hl
        · intro other hmem
          rcases List.mem_append.mp hmem with hold | hnew
          · exact h.unfinished hlive other hold
          · cases List.mem_singleton.mp hnew
            exact Bool.eq_false_iff.mpr (fun hflag => hfinish (.inl hflag))
      · rw [hfinishes, hstate]
        split_ifs with hfinish
        · exact iff_of_true rfl hfinish
        · exact iff_of_false (by decide) hfinish

end Steps

end Request

namespace FifoScheduler

variable {ω : Type} [Clock ω] [InferenceBackend ω] {s : FifoScheduler ω} {r : RequestPtr}

/-! ### What a tick delivers -/

/-- The answers to the decode call of the tick that starts now. -/
def tickAnswers (s : FifoScheduler ω) :
    Except Panic (List (RequestPtr × Except BackendError DecodedToken)) := do
  let expire ← s.expireDeadlines
  let prefill ← expire.1.prefillPhase
  prefill.1.decodeAnswers

/-- The outcomes that an operation delivers to a request. -/
def delivers [Environment ω] (s : FifoScheduler ω) (op : SchedulerOp ω) (r : RequestPtr) :
    List (Except BackendError DecodedToken) :=
  match op with
  | .tick =>
      match s.tickAnswers with
      | .ok answers => answersFor r answers
      | .error _ => []
  | _ => []

/-- The outcomes that a run delivers to a request, in their order. -/
def delivered [Environment ω] (s : FifoScheduler ω) (ops : List (SchedulerOp ω)) (r : RequestPtr) :
    List (Except BackendError DecodedToken) :=
  history apply (fun u op => u.delivers op r) s ops

variable [AlignedBackend ω]

/-- A tick delivers one outcome to each request of its decode batch, and none to the others. -/
theorem tick_delivers (hs : s.Partition) :
    Ensures s.tick (fun _ => True) (fun done => ∃ answers, s.tickAnswers = .ok answers ∧
      (∀ p, s.requests.size ≤ p → answersFor p answers = []) ∧ ∀ p < s.requests.size,
        (answersFor p answers = [] ∧ done.1.request p = s.request p) ∨
        (s.request p).state.isTerminal = false ∧
          ((answersFor p answers = [] ∧ (s.request p).SameTerms (done.1.request p) ∧
            (s.request p).SameTokens (done.1.request p) ∧ (done.1.request p).state = .failed) ∨
          ∃ outcome, answersFor p answers = [outcome] ∧
            (s.request p).Answered outcome (done.1.request p))) := by
  refine tick_ensures
    (fun a => s.expireDeadlines = .ok a ∧ a.1.Partition ∧ a.1.requests.size = s.requests.size ∧
      ∀ p, Culled (s.request p) (a.1.request p))
    (fun _ b => b.1.Partition ∧ b.1.waiting = [] ∧ b.1.requests.size = s.requests.size ∧
      s.tickAnswers = b.1.decodeAnswers ∧ ∃ a : FifoScheduler ω,
        (∀ p, Culled (s.request p) (a.request p)) ∧ ∀ p, Prefilled (a.request p) (b.1.request p))
    (((expireDeadlines_culls hs).and_ok (fun a ha => ha)).imp (fun a h => ⟨h.2, h.1⟩)) ?_ ?_
  · rintro a ⟨ha, hpart, hsize, hculled⟩
    refine ((prefillPhase_prefills hpart).and_ok (fun b hb => hb)).imp ?_
    rintro b ⟨⟨hpart', hempty, hsize', hprefilled⟩, hb⟩
    refine ⟨hpart', hempty, hsize'.trans hsize, ?_, a.1, hculled, hprefilled⟩
    unfold tickAnswers
    rw [ha, ok_bind, hb, ok_bind]
  · rintro - b ⟨hpart, hempty, hsize, htick, a, hculled, hprefilled⟩
    refine (decodePhase_answers hpart).imp ?_
    rintro c ⟨-, -, -, hsame, answers, hanswers, hnone, hdone⟩
    refine ⟨answers, htick.trans hanswers, fun p hp => hnone p ?_, fun p hp => ?_⟩
    · exact fun hmem => not_lt.mpr hp (hsize ▸ hpart.decoding_lt p hmem)
    · rcases before_decode hpart hempty hsize hculled hprefilled p hp with
        ⟨hmem, hlive, hterms, htokens⟩ | ⟨hout, -, heq⟩ | ⟨hout, hlive, hterms, htokens, hfailed⟩
      · obtain ⟨outcome, houtcome, hanswered⟩ := hdone p hmem
        exact .inr ⟨hlive, .inr ⟨outcome, houtcome, hanswered.of_same hterms htokens⟩⟩
      · exact .inl ⟨hnone p hout, (hsame p hout).trans heq⟩
      · have hlast : c.1.request p = b.1.request p := hsame p hout
        rw [← hlast] at hterms htokens hfailed
        exact .inr ⟨hlive, .inl ⟨hnone p hout, hterms, htokens, hfailed⟩⟩

/-! ### Every operation -/

/-- The request `r` reflects the outcomes `past`; before it is submitted there are none. -/
structure Recorded {ω : Type} (r : RequestPtr) (past : List (Except BackendError DecodedToken))
    (s : FifoScheduler ω) : Prop where
  partition : s.Partition
  reflects : r < s.requests.size → (s.request r).Reflects past
  unborn : s.requests.size ≤ r → past = []

namespace Recorded

variable {past : List (Except BackendError DecodedToken)}

theorem new {ω : Type} (w : ω) (r : RequestPtr) : Recorded r [] (new w) :=
  ⟨partition_new w, fun hr => absurd hr (Nat.not_lt_zero r), fun _ => rfl⟩

/-- A fresh request reflects that nothing was delivered to it. -/
theorem admitted {ω : Type} {s : FifoScheduler ω} (h : Recorded r past s) {q : Request} {w w' : ω}
    (htokens : q.outputTokenIds = []) (hcount : q.outputTokensEmitted = 0)
    (hstate : q.state = .waitingPrefill) :
    Recorded r past (({ s with world := w } : FifoScheduler ω).admitted q w') := by
  refine ⟨(h.partition.world w).admitted hstate w', fun hr => ?_,
    fun hr => h.unborn (Nat.le_of_succ_le hr)⟩
  by_cases hold : r < s.requests.size
  · have hsame : (({ s with world := w } : FifoScheduler ω).admitted q w').request r = s.request r :=
      request_admitted_of_lt _ q w' hold
    rw [hsame]
    exact h.reflects hold
  · have hnew : r = s.requests.size := le_antisymm (Nat.lt_succ_iff.mp hr) (not_lt.mp hold)
    have hself : (({ s with world := w } : FifoScheduler ω).admitted q w').request r = q := by
      rw [hnew]
      exact request_admitted_self _ q w'
    rw [hself, h.unborn (not_lt.mp hold)]
    refine ⟨htokens, hcount, fun hd => ?_, fun _ token hmem => absurd hmem List.not_mem_nil, ?_⟩
    · rw [hstate] at hd
      cases hd
    · rw [hstate]
      refine iff_of_false (by decide) ?_
      rintro ⟨token, hlast, -⟩
      cases hlast

/-- An operation that delivers nothing changes the request at most by ending it. -/
theorem undelivered {ω : Type} {s t : FifoScheduler ω} (h : Recorded r past s) (ht : t.Partition)
    (hsize : t.requests.size = s.requests.size)
    (hstep : t.request r = s.request r ∨ (s.request r).state.isTerminal = false ∧
      (s.request r).SameTerms (t.request r) ∧ (s.request r).SameTokens (t.request r) ∧
      ((t.request r).state = .failed ∨ (t.request r).state = .cancelled)) : Recorded r past t := by
  refine ⟨ht, fun hr => ?_, fun hr => h.unborn (hsize ▸ hr)⟩
  have hreflects := h.reflects (hsize ▸ hr)
  rcases hstep with heq | ⟨hlive, hterms, htokens, hstate⟩
  · rw [heq]
    exact hreflects
  · exact hreflects.ended hlive hterms htokens hstate

variable [Environment ω]

theorem apply (h : Recorded r past s) (op : SchedulerOp ω) :
    Ensures (s.apply op) (fun _ => True) (Recorded r (past ++ s.delivers op r)) := by
  cases op with
  | submit id deadlineFromNow maxOutputTokens promptTokenIds priority =>
      have hnone : s.delivers (.submit id deadlineFromNow maxOutputTokens promptTokenIds priority) r =
        [] := rfl
      rw [apply_submit, hnone, List.append_nil]
      exact h.admitted rfl rfl rfl
  | cancel id =>
      have hnone : s.delivers (.cancel id) r = [] := rfl
      rw [hnone, List.append_nil]
      refine ensures_iff.mpr ⟨fun t ht => ?_, fun _ _ => trivial⟩
      have hcancel := cancel_cancelled h.partition ht
      refine h.undelivered hcancel.partition hcancel.size ?_
      rcases hcancel.request r with heq | ⟨hlive, -, τ, heq⟩
      · exact .inl heq
      · rw [heq]
        exact .inr ⟨((h.partition.live_iff r).mp hlive).2, Request.sameTerms_enter _ _ _,
          Request.sameTokens_enter _ _ _, .inr rfl⟩
  | tick =>
      refine ((tick_evolves h.partition).and (tick_delivers h.partition)).bind ?_
      rintro done ⟨⟨hpart, -, hsize, -⟩, answers, hanswers, hnone, hdone⟩
      have hdelivers : s.delivers .tick r = answersFor r answers := by
        unfold delivers
        rw [hanswers]
      rw [hdelivers]
      by_cases hr : r < s.requests.size
      · rcases hdone r hr with ⟨hempty, heq⟩ | ⟨hlive, hended | ⟨outcome, houtcome, hanswered⟩⟩
        · rw [hempty, List.append_nil]
          exact h.undelivered hpart hsize (.inl heq)
        · obtain ⟨hempty, hterms, htokens, hfailed⟩ := hended
          rw [hempty, List.append_nil]
          exact h.undelivered hpart hsize (.inr ⟨hlive, hterms, htokens, .inl hfailed⟩)
        · rw [houtcome]
          exact ⟨hpart, fun _ => (h.reflects hr).answered hlive hanswered,
            fun hge => absurd hr (not_lt.mpr (hsize ▸ hge))⟩
      · rw [hnone r (not_lt.mp hr), List.append_nil]
        exact ⟨hpart, fun hlt => absurd (hsize ▸ hlt) hr, fun _ => h.unborn (not_lt.mp hr)⟩
  | event e =>
      have hnone : s.delivers (.event e) r = [] := rfl
      rw [hnone, List.append_nil]
      refine ensures_iff.mpr ⟨fun t ht => ?_, fun _ _ => trivial⟩
      obtain ⟨w, -, hw⟩ := bind_eq_ok.mp ht
      cases hw
      exact h.undelivered (h.partition.world w) rfl (.inl rfl)

end Recorded

/-! ### Runs -/

/-- **Completion is exact.** In every run, over any backend that answers its batches in full, with any ids
and outcomes, and for every request: the tokens it has emitted, as list and as counter, are those of the
successful outcomes delivered to it; while it decodes it has budget left and no outcome was flagged
finished; it is completed if and only if the last outcome was, or brought it to its budget; and once it
is terminal nothing about it ever changes. -/
theorem completion_exact [Environment ω] (w : ω) (ops : List (SchedulerOp ω)) (s : FifoScheduler ω)
    (hrun : run FifoScheduler.apply (new w) ops = .ok s) (r : RequestPtr) (hr : r < s.requests.size) :
    (s.request r).outputTokensEmitted = (s.request r).outputTokenIds.length ∧
      (s.request r).outputTokensEmitted = (tokensOf ((new w).delivered ops r)).length ∧
      (s.request r).outputTokenIds =
        (tokensOf ((new w).delivered ops r)).map (fun token => token.tokenId) ∧
      (r ∈ s.decoding → (s.request r).outputTokensEmitted < (s.request r).maxOutputTokens ∧
        ∀ token, .ok token ∈ (new w).delivered ops r → token.finished = false) ∧
      (s.state r = .completed ↔ ∃ token, ((new w).delivered ops r).getLast? = some (.ok token) ∧
        (token.finished = true ∨
          (s.request r).outputTokensEmitted = (s.request r).maxOutputTokens)) ∧
      ((s.state r).isTerminal = true → ∀ later t, run FifoScheduler.apply s later = .ok t →
        t.request r = s.request r) := by
  have hrecorded : Recorded r ([] ++ (new w).delivered ops r) s :=
    (run_history (Recorded r) (fun past u op hu => hu.apply op) [] (new w) (.new w r) ops).ok hrun
  rw [List.nil_append] at hrecorded
  have hreflects := hrecorded.reflects hr
  have hs := hrecorded.partition
  refine ⟨?_, hreflects.count, hreflects.tokens, fun hmem => ?_, hreflects.completed,
    fun hterminal later t hlater => run_frozen hs hr hterminal hlater⟩
  · rw [hreflects.tokens, List.length_map]
    exact hreflects.count
  · have hstate := hs.decoding_state r hmem
    refine ⟨hreflects.budget hstate, hreflects.unfinished ?_⟩
    rw [show (s.request r).state = .decoding from hstate]
    rfl

/-- One request ends by its budget, the other one by an injected error. -/
def mixedOutcomes : List (SchedulerOp MockBackend) :=
  [.submit "a" 100 2 [7] 0, .submit "b" 100 3 [7] 0, .tick, .cancel "c", .tick,
    .event (.failNextDecode ⟨.unavailable, "down"⟩), .tick]

theorem completion_exact_mixed :
    ∃ s, run FifoScheduler.apply (new (MockBackend.new ⟨0⟩ 1 5)) mixedOutcomes = .ok s ∧
      (s.state 0, s.state 1) = (.completed, .failed) ∧
      (tokensOf ((new (MockBackend.new ⟨0⟩ 1 5)).delivered mixedOutcomes 1)).length = 2 ∧
      ∃ token, ((new (MockBackend.new ⟨0⟩ 1 5)).delivered mixedOutcomes 0).getLast? =
        some (.ok token) := by
  obtain ⟨s, hrun, hview⟩ := exists_of_map_ok
    (x := run FifoScheduler.apply (new (MockBackend.new ⟨0⟩ 1 5)) mixedOutcomes)
    (f := fun s => (s.requests.size, s.state 0, s.state 1, (s.request 1).outputTokensEmitted))
    (b := (2, .completed, .failed, 2)) (by decide +kernel)
  obtain ⟨hsize, hview⟩ := Prod.mk.inj hview
  obtain ⟨hcompleted, hview⟩ := Prod.mk.inj hview
  obtain ⟨hfailed, hcount⟩ := Prod.mk.inj hview
  have hsize : s.requests.size = 2 := hsize
  have hfirst := completion_exact _ mixedOutcomes s hrun 0 (by rw [hsize]; decide)
  have hsecond := completion_exact _ mixedOutcomes s hrun 1 (by rw [hsize]; decide)
  obtain ⟨token, hlast, -⟩ := hfirst.2.2.2.2.1.mp hcompleted
  exact ⟨s, hrun, by rw [hcompleted, hfailed], hsecond.2.1.symm.trans hcount, token, hlast⟩

end FifoScheduler

end Tokamak
