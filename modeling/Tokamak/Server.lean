import Tokamak.Refinement

/-! The HTTP server: one coroutine that accepts connections, one for each connection, all of them run by a
pool of threads on an `io_context`, which is a parameter here. What the network does, and which coroutine
goes on next, is up to the events of a run; a run is possible if all of its events are. A call to `start`
or `stop` takes several events. One thread at a time calls them. -/

open Outcome

namespace Tokamak

inductive Verb where
  | get
  | other (name : String)
  deriving DecidableEq, Repr

structure HttpRequest where
  method : Verb
  target : String
  version : Nat
  /-- What `keep_alive()` says. -/
  keepAlive : Bool
  deriving DecidableEq, Repr

inductive HttpStatus where
  | ok
  | serviceUnavailable
  | notFound
  deriving DecidableEq, Repr

structure HttpResponse where
  status : HttpStatus
  version : Nat
  body : String
  contentType : Option String := none
  keepAlive : Option Bool := none
  deriving DecidableEq, Repr

/-- `Server::route`, when `ready_` is as given. -/
def route (ready : Bool) (req : HttpRequest) : HttpResponse :=
  if req.method = .get ∧ req.target = "/healthz" then
    { status := .ok, version := req.version, body := "\x7b\"status\":\"ok\"\x7d" }
  else if req.method = .get ∧ req.target = "/readyz" then
    if ready then { status := .ok, version := req.version, body := "\x7b\"status\":\"ready\"\x7d" }
    else
      { status := .serviceUnavailable
        version := req.version
        body := "\x7b\"status\":\"not_ready\"\x7d" }
  else { status := .notFound, version := req.version, body := "\x7b\"error\":\"not_found\"\x7d" }

/-- The response `handle_connection` writes, without what `prepare_payload` adds to it. -/
def reply (ready : Bool) (req : HttpRequest) : HttpResponse :=
  { route ready req with
    contentType := some "application/json"
    keepAlive := some req.keepAlive }

/-- Where `handle_connection` is. -/
inductive Stage where
  /-- In `async_read`. -/
  | reading
  /-- In `async_write`; `keepAlive` is that of the request. -/
  | writing (response : HttpResponse) (keepAlive : Bool)
  /-- Behind the loop. -/
  | closed
  deriving DecidableEq, Repr

structure Connection where
  stage : Stage
  /-- The responses that have been written. -/
  sent : List HttpResponse
  deriving DecidableEq, Repr

/-- `handle_connection` goes on after `async_read`. -/
def Connection.afterRead (ready : Bool) (sent : List HttpResponse) : Option HttpRequest → Connection
  | none => ⟨.closed, sent⟩
  | some req => ⟨.writing (reply ready req) req.keepAlive, sent⟩

/-- `handle_connection` goes on after `async_write`. -/
def Connection.afterWrite (response : HttpResponse) (keepAlive : Bool) (sent : List HttpResponse) :
    Bool → Connection
  | false => ⟨.closed, sent⟩
  | true => ⟨if keepAlive then .reading else .closed, sent ++ [response]⟩

/-- Where `listener` is. -/
inductive Listener where
  | spawned
  /-- In `async_accept`. -/
  | accepting
  | ended
  deriving DecidableEq, Repr

/-- An `io_context`, as far as the server depends on it: after `stop` its `run` returns at once, whatever
is spawned on it. The server never calls `restart`. -/
class IoContext (C : Type) where
  fresh : C
  spawn : C → C
  stop : C → C
  /-- `run` runs handlers. -/
  runs : C → Bool
  runs_fresh : runs fresh = true
  runs_stop : ∀ c, runs (stop c) = false
  runs_spawn : ∀ c, runs (spawn c) = runs c

structure Server (C : Type) where
  /-- `config_.num_threads`. -/
  numThreads : Nat
  ioc : C
  /-- The size of `threads_`. -/
  threads : Nat
  running : Bool
  ready : Bool
  boundPort : UInt16
  /-- The threads a call to `start` has still to make. -/
  toSpawn : Nat
  /-- A call to `stop` has not returned yet. -/
  stopping : Bool
  listeners : List Listener
  connections : List Connection

inductive ServerEvent where
  /-- `start` is called; it returns, or goes on to make its threads. -/
  | start
  | spawnThread
  /-- `stop` is called; it returns, or goes on to stop the `io_context` and to join the threads. -/
  | stop
  | joined
  | setReady (ready : Bool)
  /-- A listener has opened, bound and started its acceptor, or one of that has failed. -/
  | listens (i : Nat) (bound : Option UInt16)
  | accepted (i : Nat) (success : Bool)
  | read (c : Nat) (request : Option HttpRequest)
  | written (c : Nat) (success : Bool)
  deriving DecidableEq, Repr

/-- An event that cannot happen. -/
structure NotPossible where
  deriving DecidableEq, Repr

namespace Server

variable {C : Type} [IoContext C]

def new (numThreads : Nat) : Server C :=
  { numThreads := numThreads
    ioc := IoContext.fresh
    threads := 0
    running := false
    ready := true
    boundPort := 0
    toSpawn := 0
    stopping := false
    listeners := []
    connections := [] }

/-- No call to `start` or `stop` is going on. -/
def idle (s : Server C) : Bool := s.toSpawn == 0 && !s.stopping

/-- Some thread runs the coroutines. -/
def serves (s : Server C) : Bool := decide (0 < s.threads) && IoContext.runs s.ioc

/-- The test of the loop of `listener`. -/
def acceptsMore (s : Server C) : Listener := if s.running then .accepting else .ended

/-- `start` has spawned the listener. -/
def started (s : Server C) : Server C :=
  { s with
    running := true
    ioc := IoContext.spawn s.ioc
    listeners := s.listeners ++ [.spawned]
    toSpawn := s.numThreads }

def step (s : Server C) : ServerEvent → Except NotPossible (Server C)
  | .start =>
      if s.idle = false then .error ⟨⟩
      else if s.running then .ok s
      else .ok s.started
  | .spawnThread =>
      if s.toSpawn = 0 then .error ⟨⟩
      else .ok { s with threads := s.threads + 1, toSpawn := s.toSpawn - 1 }
  | .stop =>
      if s.idle = false then .error ⟨⟩
      else if s.running then .ok { s with running := false, stopping := true }
      else .ok s
  | .joined =>
      if s.stopping then
        .ok { s with ioc := IoContext.stop s.ioc, threads := 0, stopping := false }
      else .error ⟨⟩
  | .setReady ready => .ok { s with ready := ready }
  | .listens i bound =>
      if s.serves ∧ s.listeners[i]? = some .spawned then
        match bound with
        | none => .ok { s with listeners := s.listeners.set i .ended }
        | some port => .ok { s with boundPort := port, listeners := s.listeners.set i s.acceptsMore }
      else .error ⟨⟩
  | .accepted i success =>
      if s.serves ∧ s.listeners[i]? = some .accepting then
        if success then
          .ok { s with
            ioc := IoContext.spawn s.ioc
            connections := s.connections ++ [⟨.reading, []⟩]
            listeners := s.listeners.set i s.acceptsMore }
        else .ok { s with listeners := s.listeners.set i .ended }
      else .error ⟨⟩
  | .read c request =>
      match s.connections[c]? with
      | some ⟨.reading, sent⟩ =>
          if s.serves then
            .ok { s with connections := s.connections.set c (.afterRead s.ready sent request) }
          else .error ⟨⟩
      | _ => .error ⟨⟩
  | .written c success =>
      match s.connections[c]? with
      | some ⟨.writing response keepAlive, sent⟩ =>
          if s.serves then
            .ok { s with
              connections := s.connections.set c (.afterWrite response keepAlive sent success) }
          else .error ⟨⟩
      | _ => .error ⟨⟩

/-- The request an event reads from connection `c`, and whether the server is ready then. -/
def asks (c : Nat) (s : Server C) : ServerEvent → List (HttpRequest × Bool)
  | .read c' (some req) => if c' = c then [(req, s.ready)] else []
  | _ => []

/-- What an event makes of one connection. -/
inductive Changes (s : Server C) (c : Nat) : ServerEvent → Option Connection → Prop
  | same {e : ServerEvent} (h : s.asks c e = []) : Changes s c e s.connections[c]?
  | opened {e : ServerEvent} (h : s.asks c e = []) (hnone : s.connections[c]? = none) :
      Changes s c e (some ⟨.reading, []⟩)
  | read {request : Option HttpRequest} {sent : List HttpResponse}
      (hconn : s.connections[c]? = some ⟨.reading, sent⟩) :
      Changes s c (.read c request) (some (.afterRead s.ready sent request))
  | written {success : Bool} {response : HttpResponse} {keepAlive : Bool} {sent : List HttpResponse}
      (hconn : s.connections[c]? = some ⟨.writing response keepAlive, sent⟩) :
      Changes s c (.written c success) (some (.afterWrite response keepAlive sent success))

variable {s s' : Server C} {e : ServerEvent}

omit [IoContext C] in
theorem asks_read_of_ne {c c' : Nat} (h : c' ≠ c) (request : Option HttpRequest) :
    s.asks c (.read c' request) = [] := by
  cases request with
  | none => rfl
  | some req => exact if_neg h

omit [IoContext C] in
theorem getElem?_set_connection {c' : Nat} {conn x : Connection} (hx : s.connections[c']? = some x)
    (c : Nat) :
    (s.connections.set c' conn)[c]? = if c' = c then some conn else s.connections[c]? := by
  obtain ⟨hlt, -⟩ := List.getElem?_eq_some_iff.mp hx
  rw [List.getElem?_set]
  split_ifs <;> rfl

theorem step_changes (h : s.step e = .ok s') (c : Nat) : s.Changes c e s'.connections[c]? := by
  cases e with
  | start =>
      simp only [step] at h
      split_ifs at h <;> cases h <;> exact .same rfl
  | spawnThread =>
      simp only [step] at h
      split_ifs at h
      cases h
      exact .same rfl
  | stop =>
      simp only [step] at h
      split_ifs at h <;> cases h <;> exact .same rfl
  | joined =>
      simp only [step] at h
      split_ifs at h
      cases h
      exact .same rfl
  | setReady ready =>
      cases h
      exact .same rfl
  | listens i bound =>
      simp only [step] at h
      split_ifs at h
      cases bound with
      | none =>
          cases h
          exact .same rfl
      | some port =>
          cases h
          exact .same rfl
  | accepted i success =>
      simp only [step] at h
      split_ifs at h
      · cases h
        change s.Changes c _ (s.connections ++ [⟨.reading, []⟩])[c]?
        rcases lt_trichotomy c s.connections.length with hlt | heq | hgt
        · rw [List.getElem?_append_left hlt]
          exact .same rfl
        · have hnone : s.connections[c]? = none := List.getElem?_eq_none (Nat.le_of_eq heq.symm)
          rw [heq, List.getElem?_concat_length]
          exact .opened rfl (heq ▸ hnone)
        · have hlength : (s.connections ++ [(⟨.reading, []⟩ : Connection)]).length ≤ c := by
            rw [List.length_append, List.length_singleton]
            exact hgt
          rw [List.getElem?_eq_none hlength, ← List.getElem?_eq_none (Nat.le_of_lt hgt)]
          exact .same rfl
      · cases h
        exact .same rfl
  | read c' request =>
      simp only [step] at h
      split at h
      case h_1 sent hconn =>
        split_ifs at h
        cases h
        change s.Changes c _ (s.connections.set c' _)[c]?
        rw [getElem?_set_connection hconn]
        split_ifs with hc
        · subst hc
          exact .read hconn
        · exact .same (asks_read_of_ne hc request)
      case h_2 => cases h
  | written c' success =>
      simp only [step] at h
      split at h
      case h_1 response keepAlive sent hconn =>
        split_ifs at h
        cases h
        change s.Changes c _ (s.connections.set c' _)[c]?
        rw [getElem?_set_connection hconn]
        split_ifs with hc
        · subst hc
          exact .written hconn
        · exact .same rfl
      case h_2 => cases h

end Server

/-- The conversation on a connection on which the requests `asked` have been read, each with whether the
server was ready then. -/
structure Conversation (conn : Connection) (asked : List (HttpRequest × Bool)) : Prop where
  /-- What was written are the answers to the first of them, in their order. -/
  sent : conn.sent <+: asked.map fun a => reply a.2 a.1
  length_le : asked.length ≤ conn.sent.length + 1
  /-- Nothing is read behind a request that closes the connection. -/
  keepAlive : ∀ a ∈ asked.dropLast, a.1.keepAlive = true
  reading : conn.stage = .reading →
    conn.sent = asked.map (fun a => reply a.2 a.1) ∧ ∀ a ∈ asked, a.1.keepAlive = true
  writing : ∀ response keepAlive, conn.stage = .writing response keepAlive → ∃ front a,
    asked = front ++ [a] ∧ conn.sent = front.map (fun a => reply a.2 a.1) ∧
      response = reply a.2 a.1 ∧ keepAlive = a.1.keepAlive

namespace Conversation

variable {sent : List HttpResponse} {asked : List (HttpRequest × Bool)}

theorem opened : Conversation ⟨.reading, []⟩ [] where
  sent := List.prefix_rfl
  length_le := Nat.zero_le _
  keepAlive a ha := absurd ha List.not_mem_nil
  reading _ := ⟨rfl, fun a ha => absurd ha List.not_mem_nil⟩
  writing response keepAlive h := by cases h

/-- The coroutine leaves its loop. -/
theorem closed {conn : Connection} (h : Conversation conn asked) (hsent : conn.sent = sent) :
    Conversation ⟨.closed, sent⟩ asked := by
  subst hsent
  refine ⟨h.sent, h.length_le, h.keepAlive, ?_, ?_⟩
  · intro hstage
    cases hstage
  · intro response keepAlive hstage
    cases hstage

theorem read (h : Conversation ⟨.reading, sent⟩ asked) (ready : Bool) (req : HttpRequest) :
    Conversation ⟨.writing (reply ready req) req.keepAlive, sent⟩ (asked ++ [(req, ready)]) := by
  obtain ⟨hsent, halive⟩ := h.reading rfl
  refine ⟨?_, ?_, ?_, ?_, ?_⟩
  · rw [List.map_append]
    exact hsent ▸ List.prefix_append _ _
  · change (asked ++ [(req, ready)]).length ≤ sent.length + 1
    rw [show sent = _ from hsent, List.length_append, List.length_map, List.length_singleton]
  · rw [List.dropLast_concat]
    exact halive
  · intro hstage
    cases hstage
  · intro response keepAlive hstage
    cases hstage
    exact ⟨asked, (req, ready), rfl, hsent, rfl, rfl⟩

theorem written {response : HttpResponse} {keepAlive : Bool}
    (h : Conversation ⟨.writing response keepAlive, sent⟩ asked) :
    Conversation ⟨if keepAlive then .reading else .closed, sent ++ [response]⟩ asked := by
  obtain ⟨front, a, rfl, hsent, rfl, rfl⟩ := h.writing response keepAlive rfl
  have hall : sent ++ [reply a.2 a.1] = (front ++ [a]).map fun a => reply a.2 a.1 := by
    rw [List.map_append, show sent = _ from hsent]
    rfl
  have hfront := h.keepAlive
  rw [List.dropLast_concat] at hfront
  refine ⟨hall ▸ List.prefix_rfl, ?_, h.keepAlive, ?_, ?_⟩
  · change _ ≤ (sent ++ [reply a.2 a.1]).length + 1
    rw [hall, List.length_map]
    exact Nat.le_succ _
  · intro hstage
    refine ⟨hall, fun b hb => ?_⟩
    rcases List.mem_append.mp hb with hb | hb
    · exact hfront b hb
    · rw [List.mem_singleton.mp hb]
      by_contra halive
      rw [if_neg halive] at hstage
      cases hstage
  · intro response keepAlive hstage
    split_ifs at hstage

end Conversation

namespace Server

variable {C : Type} [IoContext C] {s s' u : Server C} {e : ServerEvent}

/-- What has been read from connection `c`, and what was written to it. -/
def Talks (c : Nat) (asked : List (HttpRequest × Bool)) (s : Server C) : Prop :=
  (s.connections[c]? = none ∧ asked = []) ∨
    ∃ conn, s.connections[c]? = some conn ∧ Conversation conn asked

omit [IoContext C] in
theorem Talks.conversation {c : Nat} {asked : List (HttpRequest × Bool)} (h : Talks c asked s)
    {conn : Connection} (hconn : s.connections[c]? = some conn) : Conversation conn asked := by
  rcases h with ⟨hnone, -⟩ | ⟨conn', hconn', hconversation⟩
  · rw [hconn] at hnone
    cases hnone
  · rw [hconn] at hconn'
    cases hconn'
    exact hconversation

theorem Talks.step {c : Nat} {asked : List (HttpRequest × Bool)} (h : Talks c asked s)
    (hstep : s.step e = .ok s') : Talks c (asked ++ s.asks c e) s' := by
  have hchanges := step_changes hstep c
  unfold Talks
  generalize s'.connections[c]? = next at hchanges
  cases hchanges with
  | same hasks =>
      rw [hasks, List.append_nil]
      exact h
  | opened hasks hnone =>
      rcases h with ⟨-, hasked⟩ | ⟨conn, hconn, -⟩
      · rw [hasks, hasked]
        exact .inr ⟨_, rfl, .opened⟩
      · rw [hconn] at hnone
        cases hnone
  | @read request sent hconn =>
      have hconversation := h.conversation hconn
      refine .inr ⟨_, rfl, ?_⟩
      cases request with
      | none =>
          rw [show s.asks c (.read c none) = [] from rfl, List.append_nil]
          exact hconversation.closed rfl
      | some req =>
          rw [show s.asks c (.read c (some req)) = [(req, s.ready)] from if_pos rfl]
          exact hconversation.read s.ready req
  | @written success response keepAlive sent hconn =>
      have hconversation := h.conversation hconn
      rw [show s.asks c (.written c success) = [] from rfl, List.append_nil]
      refine .inr ⟨_, rfl, ?_⟩
      cases success with
      | false => exact hconversation.closed rfl
      | true => exact hconversation.written

/-- **Every connection is answered in order.** In any run of the server, however its connections, its
calls and its errors are interleaved: what was written to a connection are the answers to the requests
that were read from it, one for each and in their order, each as `route` has it for whether the server was
ready when the request was read; only the last one may be missing, and nothing is read any more once a
request does not keep the connection alive. -/
theorem server_answers_in_order (numThreads : Nat) (events : List ServerEvent) (s : Server C)
    (h : run step (new numThreads) events = .ok s) (c : Nat) (conn : Connection)
    (hconn : s.connections[c]? = some conn) :
    Conversation conn (history step (asks c) (new numThreads : Server C) events) := by
  have hstep : ∀ asked (s : Server C) e, Talks c asked s →
      Ensures (s.step e) (fun _ => True) (Talks c (asked ++ s.asks c e)) := by
    intro asked s e htalks
    exact ensures_iff.mpr ⟨fun s' hnext => htalks.step hnext, fun _ _ => trivial⟩
  have hrun := run_history (Talks c) hstep [] (new numThreads) (.inl ⟨rfl, rfl⟩) events
  exact (hrun.ok h).conversation hconn

/-- An `io_context` that knows no more than whether it was stopped. -/
structure StopFlag where
  stopped : Bool
  deriving DecidableEq, Repr

instance : IoContext StopFlag where
  fresh := ⟨false⟩
  spawn c := c
  stop _ := ⟨true⟩
  runs c := !c.stopped
  runs_fresh := rfl
  runs_stop _ := rfl
  runs_spawn _ := rfl

def readyz (keepAlive : Bool) : HttpRequest := ⟨.get, "/readyz", 11, keepAlive⟩

/-- Two requests on one connection; in between the server is said not to be ready. -/
def askedTwice : List ServerEvent :=
  [.start, .spawnThread, .listens 0 (some 8080), .accepted 0 true, .read 0 (some (readyz true)),
    .setReady false, .written 0 true, .read 0 (some (readyz false)), .written 0 true]

theorem server_answers_in_order_askedTwice :
    ∃ s : Server StopFlag, run step (new 1) askedTwice = .ok s ∧
      s.connections = [⟨.closed, [reply true (readyz true), reply false (readyz false)]⟩] ∧
      Conversation ⟨.closed, [reply true (readyz true), reply false (readyz false)]⟩
        [(readyz true, true), (readyz false, false)] := by
  obtain ⟨s, hs, hconnections⟩ := exists_of_map_ok (x := run step (new 1 : Server StopFlag) askedTwice)
    (f := fun s => s.connections)
    (b := [⟨.closed, [reply true (readyz true), reply false (readyz false)]⟩]) (by decide +kernel)
  have hconversation := server_answers_in_order 1 askedTwice s hs 0 _ (by rw [hconnections]; rfl)
  have hasked : history step (asks 0) (new 1 : Server StopFlag) askedTwice =
      [(readyz true, true), (readyz false, false)] := by decide +kernel
  rw [hasked] at hconversation
  exact ⟨s, hs, hconnections, hconversation⟩

/-! ### Stopping -/

/-- The threads of a server between two calls, and during one. -/
structure Pooled (n : Nat) (s : Server C) : Prop where
  numThreads : s.numThreads = n
  threads : s.stopping = false → s.threads + s.toSpawn = if s.running then n else 0
  stopping : s.stopping = true → s.running = false ∧ s.toSpawn = 0

omit [IoContext C] in
theorem idle_iff : s.idle = true ↔ s.toSpawn = 0 ∧ s.stopping = false := by
  unfold idle
  rw [Bool.and_eq_true, beq_iff_eq, Bool.not_eq_true']

theorem pooled_new (numThreads : Nat) : Pooled numThreads (new numThreads : Server C) := by
  refine ⟨rfl, fun _ => rfl, ?_⟩
  intro h
  cases h

omit [IoContext C] in
theorem Pooled.of_eq {n : Nat} (h : Pooled n s) (hnum : s'.numThreads = s.numThreads)
    (hthreads : s'.threads = s.threads) (hspawn : s'.toSpawn = s.toSpawn)
    (hrunning : s'.running = s.running) (hstopping : s'.stopping = s.stopping) : Pooled n s' := by
  refine ⟨hnum.trans h.numThreads, ?_, ?_⟩
  · rw [hthreads, hspawn, hrunning, hstopping]
    exact h.threads
  · rw [hspawn, hrunning, hstopping]
    exact h.stopping

/-- An event of a coroutine, which a thread of the pool runs. -/
def isIo : ServerEvent → Bool
  | .listens _ _ | .accepted _ _ | .read _ _ | .written _ _ => true
  | _ => false

/-- A coroutine goes on only while the pool serves, and leaves the pool as it is. -/
theorem step_io (hio : isIo e = true) (h : s.step e = .ok s') : s.serves = true ∧
    s'.numThreads = s.numThreads ∧ s'.threads = s.threads ∧ s'.toSpawn = s.toSpawn ∧
      s'.running = s.running ∧ s'.stopping = s.stopping := by
  cases e with
  | listens i bound =>
      simp only [step] at h
      split_ifs at h with hguard
      cases bound with
      | none =>
          cases h
          exact ⟨hguard.1, rfl, rfl, rfl, rfl, rfl⟩
      | some port =>
          cases h
          exact ⟨hguard.1, rfl, rfl, rfl, rfl, rfl⟩
  | accepted i success =>
      simp only [step] at h
      split_ifs at h with hguard <;> cases h <;> exact ⟨hguard.1, rfl, rfl, rfl, rfl, rfl⟩
  | read c request =>
      simp only [step] at h
      split at h
      case h_1 =>
        split_ifs at h with hserves
        cases h
        exact ⟨hserves, rfl, rfl, rfl, rfl, rfl⟩
      case h_2 => cases h
  | written c success =>
      simp only [step] at h
      split at h
      case h_1 =>
        split_ifs at h with hserves
        cases h
        exact ⟨hserves, rfl, rfl, rfl, rfl, rfl⟩
      case h_2 => cases h
  | start | spawnThread | stop | joined | setReady => cases hio

theorem Pooled.step {n : Nat} (h : Pooled n s) (hstep : s.step e = .ok s') : Pooled n s' := by
  cases hio : isIo e with
  | true =>
      obtain ⟨-, hnum, hthreads, hspawn, hrunning, hstopping⟩ := step_io hio hstep
      exact h.of_eq hnum hthreads hspawn hrunning hstopping
  | false =>
      cases e with
      | start =>
          simp only [Server.step] at hstep
          split_ifs at hstep with hidle hrunning <;> cases hstep
          · exact h
          · obtain ⟨hspawn, hstopping⟩ := idle_iff.mp (Bool.not_eq_false _ ▸ hidle)
            have hnone := h.threads hstopping
            rw [if_neg hrunning] at hnone
            refine ⟨h.numThreads, fun _ => ?_, fun hstop => ?_⟩
            · change s.threads + s.numThreads = n
              rw [h.numThreads]
              omega
            · rw [show s.stopping = true from hstop] at hstopping
              cases hstopping
      | spawnThread =>
          simp only [Server.step] at hstep
          split_ifs at hstep with hspawn
          cases hstep
          refine ⟨h.numThreads, fun hstopping => ?_, fun hstop => ?_⟩
          · have hthreads := h.threads hstopping
            change s.threads + 1 + (s.toSpawn - 1) = if s.running then n else 0
            omega
          · exact absurd (h.stopping hstop).2 hspawn
      | stop =>
          simp only [Server.step] at hstep
          split_ifs at hstep with hidle hrunning <;> cases hstep
          · obtain ⟨hspawn, -⟩ := idle_iff.mp (Bool.not_eq_false _ ▸ hidle)
            refine ⟨h.numThreads, fun hstopping => ?_, fun _ => ⟨rfl, hspawn⟩⟩
            cases hstopping
          · exact h
      | joined =>
          simp only [Server.step] at hstep
          split_ifs at hstep with hstopping
          cases hstep
          obtain ⟨hrunning, hspawn⟩ := h.stopping hstopping
          refine ⟨h.numThreads, fun _ => ?_, fun hstop => ?_⟩
          · change 0 + s.toSpawn = if s.running then n else 0
            rw [hrunning, hspawn]
            rfl
          · cases hstop
      | setReady ready =>
          cases hstep
          exact h.of_eq rfl rfl rfl rfl rfl
      | listens | accepted | read | written => cases hio

/-- A stopped `io_context` stays so, and nothing but calls happens. -/
theorem step_stopped (hstopped : IoContext.runs s.ioc = false) (hstep : s.step e = .ok s') :
    isIo e = false ∧ IoContext.runs s'.ioc = false ∧ s'.connections = s.connections ∧
      s'.boundPort = s.boundPort := by
  have hserves : s.serves = false := by
    unfold serves
    rw [hstopped, Bool.and_false]
  cases hio : isIo e with
  | true =>
      rw [(step_io hio hstep).1] at hserves
      cases hserves
  | false =>
      refine ⟨rfl, ?_⟩
      cases e with
      | start =>
          simp only [step] at hstep
          split_ifs at hstep <;> cases hstep
          · exact ⟨hstopped, rfl, rfl⟩
          · exact ⟨(IoContext.runs_spawn _).trans hstopped, rfl, rfl⟩
      | spawnThread =>
          simp only [step] at hstep
          split_ifs at hstep
          cases hstep
          exact ⟨hstopped, rfl, rfl⟩
      | stop =>
          simp only [step] at hstep
          split_ifs at hstep <;> cases hstep <;> exact ⟨hstopped, rfl, rfl⟩
      | joined =>
          simp only [step] at hstep
          split_ifs at hstep
          cases hstep
          exact ⟨IoContext.runs_stop _, rfl, rfl⟩
      | setReady ready =>
          cases hstep
          exact ⟨hstopped, rfl, rfl⟩
      | listens | accepted | read | written => cases hio

theorem runs_of_joined (h : s.step .joined = .ok s') : IoContext.runs s'.ioc = false := by
  simp only [step] at h
  split_ifs at h
  cases h
  exact IoContext.runs_stop _

theorem run_stopped {events : List ServerEvent} (hstopped : IoContext.runs s.ioc = false)
    (hrun : run step s events = .ok s') : (∀ e ∈ events, isIo e = false) ∧
      s'.connections = s.connections ∧ s'.boundPort = s.boundPort := by
  induction events generalizing s with
  | nil =>
      rw [run_nil] at hrun
      cases hrun
      exact ⟨fun e he => absurd he List.not_mem_nil, rfl, rfl⟩
  | cons e rest ih =>
      rw [run_cons] at hrun
      obtain ⟨u, hstep, hrest⟩ := bind_eq_ok.mp hrun
      obtain ⟨hcall, hstopped', hconnections, hport⟩ := step_stopped hstopped hstep
      obtain ⟨hcalls, hconnections', hport'⟩ := ih hstopped' hrest
      refine ⟨?_, hconnections'.trans hconnections, hport'.trans hport⟩
      intro a ha
      rcases List.mem_cons.mp ha with rfl | ha
      · exact hcall
      · exact hcalls a ha

theorem run_pooled {numThreads : Nat} {events : List ServerEvent}
    (hrun : run step (new numThreads) events = .ok s) : Pooled numThreads s := by
  have hstep : ∀ (s : Server C) e, Pooled numThreads s →
      Ensures (s.step e) (fun _ => True) (Pooled numThreads) := by
    intro s e hpooled
    exact ensures_iff.mpr ⟨fun s' hnext => hpooled.step hnext, fun _ _ => trivial⟩
  exact (run_ensures hstep (new numThreads) (pooled_new numThreads) events).ok hrun

theorem run_spawnThread (n : Nat) (hspawn : s.toSpawn = n) :
    run step s (List.replicate n .spawnThread) = .ok { s with threads := s.threads + n, toSpawn := 0 } := by
  induction n generalizing s with
  | zero =>
      rw [List.replicate_zero, run_nil]
      cases s
      cases hspawn
      rfl
  | succ n ih =>
      have hstep : s.step .spawnThread =
          .ok { s with threads := s.threads + 1, toSpawn := s.toSpawn - 1 } := by
        simp only [step]
        rw [if_neg (by omega)]
      have hleft : s.toSpawn - 1 = n := by omega
      rw [List.replicate_succ, run_cons, hstep, ok_bind, ih hleft]
      simp only [Except.ok.injEq, mk.injEq, true_and, and_true]
      omega

omit [IoContext C] in
/-- Between two calls a server that is running has all its threads, and one that is not has none. -/
theorem Pooled.threads_of_idle {n : Nat} (h : Pooled n s) (hidle : s.idle = true) :
    s.threads = if s.running then n else 0 := by
  obtain ⟨hspawn, hstopping⟩ := idle_iff.mp hidle
  have hthreads := h.threads hstopping
  omega

/-- **A server that was stopped once never serves again.** In every run there are between two calls as many
threads as there should be, and none of a server that is not running, so that destroying it is safe. And
once a call to `stop` has joined the threads, no connection is accepted and none is read from or written to
any more, whatever is called afterwards: `start` makes the server running again, with all its threads, but
they return at once, since nobody restarts the `io_context`, and `port` still tells the old port. -/
theorem stopped_server_stays_silent (numThreads : Nat) :
    (∀ (events : List ServerEvent) (s : Server C), run step (new numThreads) events = .ok s →
      s.idle = true → s.threads = if s.running then numThreads else 0) ∧
    ∀ (front back : List ServerEvent) (u s : Server C),
      run step (new numThreads) (front ++ [.joined]) = .ok u → run step u back = .ok s →
      (∀ e ∈ back, isIo e = false) ∧ s.connections = u.connections ∧ s.boundPort = u.boundPort ∧
      (s.idle = true → s.running = false →
        ∃ t, run step s (.start :: List.replicate numThreads .spawnThread) = .ok t ∧
          t.idle = true ∧ t.running = true ∧ t.threads = numThreads) := by
  refine ⟨fun events s h hidle => (run_pooled h).threads_of_idle hidle, ?_⟩
  intro front back u s hu hs
  have hstopped : IoContext.runs u.ioc = false := by
    rw [run_append] at hu
    obtain ⟨v, -, hjoined⟩ := bind_eq_ok.mp hu
    rw [run_singleton] at hjoined
    exact runs_of_joined hjoined
  have hall : run step (new numThreads) (front ++ [.joined] ++ back) = .ok s := by
    rw [run_append, hu]
    exact hs
  have hpooled : Pooled numThreads s := run_pooled hall
  obtain ⟨hcalls, hconnections, hport⟩ := run_stopped hstopped hs
  refine ⟨hcalls, hconnections, hport, ?_⟩
  intro hidle hrunning
  obtain ⟨-, hstopping⟩ := idle_iff.mp hidle
  have hnone := hpooled.threads_of_idle hidle
  rw [hrunning] at hnone
  have hstart : s.step .start = .ok s.started := by
    simp only [step]
    rw [hidle, hrunning]
    rfl
  refine ⟨{ s.started with threads := s.started.threads + numThreads, toSpawn := 0 }, ?_, ?_, ?_, ?_⟩
  · rw [run_cons, hstart, ok_bind]
    exact run_spawnThread numThreads hpooled.numThreads
  · exact idle_iff.mpr ⟨rfl, hstopping⟩
  · rfl
  · change s.threads + numThreads = numThreads
    have hzero : s.threads = 0 := hnone
    omega

theorem stopped_server_stays_silent_restarted :
    ∃ u s : Server StopFlag,
      run step (new 1) ([.start, .spawnThread, .listens 0 (some 8080), .stop] ++ [.joined]) = .ok u ∧
      run step u [.start, .spawnThread] = .ok s ∧ s.running = true ∧ s.threads = 1 ∧
      s.boundPort = 8080 ∧ s.connections = u.connections := by
  obtain ⟨u, hu, hport⟩ := exists_of_map_ok
    (x := run step (new 1 : Server StopFlag)
      ([.start, .spawnThread, .listens 0 (some 8080), .stop] ++ [.joined]))
    (f := fun s => s.boundPort) (b := 8080) (by decide +kernel)
  obtain ⟨-, -, -, hrestart⟩ := (stopped_server_stays_silent 1).2 _ [] u u hu (run_nil u)
  have hstate : (u.idle, u.running) = (true, false) := by
    obtain ⟨v, hv, hflags⟩ := exists_of_map_ok
      (x := run step (new 1 : Server StopFlag)
        ([.start, .spawnThread, .listens 0 (some 8080), .stop] ++ [.joined]))
      (f := fun s => (s.idle, s.running)) (b := (true, false)) (by decide +kernel)
    rw [hu] at hv
    cases hv
    exact hflags
  obtain ⟨hidle, hrunning⟩ := Prod.mk.inj hstate
  obtain ⟨s, hs, -, hagain, hthreads⟩ := hrestart hidle hrunning
  obtain ⟨-, hconnections, hsame, -⟩ :=
    (stopped_server_stays_silent 1).2 _ [.start, .spawnThread] u s hu hs
  exact ⟨u, s, hu, hs, hagain, hthreads, hsame.trans hport, hconnections⟩

end Server

end Tokamak
