import MiniRedis.Server.Answers
import MiniRedis.Server.Along
import MiniRedis.Server.Process

/-!
# The clients and one history

The server as its clients see it: what each connection has received and sent, beside a
record of the executed commands in the order in which they ran.
-/

namespace MiniRedis

/-- What has changed or answered from the database: a command of a client, with the value
which it appended, or a timer pass. -/
inductive ServerEvent where
  | command (client : Nat) (env : Env) (cmd : List Bytes) (value : Bytes)
  | timers (env : Env)

/-- The command and its value, if the event belongs to the client. -/
def ServerEvent.of? (client : Nat) : ServerEvent → Option (List Bytes × Bytes)
  | .command other _ cmd value => if other = client then some (cmd, value) else none
  | .timers _ => none

/-- What a client has asked, and what it was answered. -/
def exchanges (client : Nat) (history : List ServerEvent) : List (List Bytes × Bytes) :=
  history.filterMap (ServerEvent.of? client)

/-- The commands of a client, in their order. -/
def commandsOf (client : Nat) (history : List ServerEvent) : List (List Bytes) :=
  (exchanges client history).map Prod.fst

/-- The bytes of the responses which are owed to a client. -/
def responsesOf (client : Nat) (history : List ServerEvent) : Bytes :=
  (exchanges client history).flatMap fun exchange => frame (limitResponse exchange.2)

/-- `execEach` which also writes down the commands as those of a client. -/
def execRecorded (client : Nat) : Executor ((Option Server × List Env) × List ServerEvent)
  | ((db, envs), events), cmd =>
    let (left, value) := execEach (db, envs) cmd
    ((left, events ++ (envs.head?.map fun env => .command client env cmd value).toList), value)

/-! ## Runs with their traffic -/

/-- The bytes which have passed in each direction. Connections are numbered in the order of
their acceptance, as addresses and descriptors are used again. -/
structure Traffic where
  accepted : Nat := 0
  client : Addr → Nat := fun _ => 0
  received : Nat → Bytes := fun _ => []
  sent : Nat → Bytes := fun _ => []
  history : List ServerEvent := []

/-- A new client has the next number. -/
def Traffic.accept (traffic : Traffic) (conn : Addr) : Traffic :=
  { traffic with
    accepted := traffic.accepted + 1
    client := Function.update traffic.client conn traffic.accepted }

/-- What a round has received, sent and executed. -/
def Traffic.serve (traffic : Traffic) (client : Nat) (data written : Bytes)
    (events : List ServerEvent) : Traffic :=
  { traffic with
    received := Function.update traffic.received client (traffic.received client ++ data)
    sent := Function.update traffic.sent client (traffic.sent client ++ written)
    history := traffic.history ++ events }

/-- A timer pass is part of the history. -/
def Traffic.expire (traffic : Traffic) (env : Env) : Traffic :=
  { traffic with history := traffic.history ++ [.timers env] }

/-- The runs of `main` with their traffic. -/
inductive TrafficRun : EventLoop Server Conn → LoopPhase → Nat → Traffic → Prop where
  | start {fd : Addr → Nat} {io : Addr → Conn} {lastActiveMs : Addr → Nat} {db : Server}
      {clock : Nat} (initial : db.Initial) (bound : clock < 2 ^ 63) :
      TrafficRun { fd := fd, io := io, lastActiveMs := lastActiveMs, db := db } .top clock {}
  | poll {loop : EventLoop Server Conn} {clock : Nat} {traffic : Traffic}
      (before : TrafficRun loop .top clock traffic) {args : List PollFd}
      (prepared : pollArgs loop loop.fd2conn = some args) {results : List (Nat × Option Ready)}
      (polls : Polls args results) : TrafficRun loop (.polled results) clock traffic
  | pass {loop : EventLoop Server Conn} {clock : Nat} {traffic : Traffic}
      {results : List (Nat × Option Ready)}
      (before : TrafficRun loop (.polled results) clock traffic) :
      TrafficRun loop (.serving results) clock traffic
  | accept {loop loop' : EventLoop Server Conn} {clock now : Nat} {traffic : Traffic}
      {results : List (Nat × Option Ready)}
      (before : TrafficRun loop (.polled results) clock traffic) (later : clock ≤ now)
      (bound : now < 2 ^ 63) {conn : Addr} (fresh : conn ∉ loop.live) {connfd : Nat}
      (unopened : ∀ other ∈ loop.live, loop.fd other ≠ connfd)
      (run : handleAccept loop conn connfd now = some loop') :
      TrafficRun loop' (.serving results) now (traffic.accept conn)
  | quiet {loop : EventLoop Server Conn} {clock fd : Nat} {traffic : Traffic}
      {results : List (Nat × Option Ready)}
      (before : TrafficRun loop (.serving ((fd, none) :: results)) clock traffic) :
      TrafficRun loop (.serving results) clock traffic
  /-- The handlers of the connection, recorded, are those which the loop has run. -/
  | serve {loop loop' : EventLoop Server Conn} {clock now now' fd : Nat} {ready : Ready}
      {traffic : Traffic} {results : List (Nat × Option Ready)}
      (before : TrafficRun loop (.serving ((fd, some ready) :: results)) clock traffic)
      (later : clock ≤ now) (bound : now' < 2 ^ 63) {envs left : List Env}
      (readings : (now :: (envs.map Env.now ++ [now'])).Pairwise (· ≤ ·))
      (read : ReadResult) (write write' : WriteResult)
      (run : serveReady execEach (loop.withDb (some loop.db, envs)) fd now ready read write write' =
        some (loop'.withDb (some loop'.db, left))) {conn : Addr}
      (slot : loop.fd2conn[fd]? = some (some conn)) {io : Option Conn} {written : Bytes}
      {db : Option Server × List Env} {events : List ServerEvent}
      (handled : handleReady (execRecorded (traffic.client conn)) (loop.io conn)
        ((some loop.db, envs), []) ready read write write' = some (io, (db, events), written)) :
      TrafficRun loop' (.serving results) now' (traffic.serve (traffic.client conn)
        (if ready.pollIn then read.data else []) written events)
  | timers {loop loop' : EventLoop Server Conn} {clock : Nat} {traffic : Traffic}
      (before : TrafficRun loop (.serving []) clock traffic) (env : Env) (later : clock ≤ env.now)
      (run : loop.processTimers env = some loop') :
      TrafficRun loop' .top env.now (traffic.expire env)
  | worker {loop : EventLoop Server Conn} {phase : LoopPhase} {clock : Nat} {traffic : Traffic}
      (before : TrafficRun loop phase clock traffic) (ent : Addr) {db : Server}
      (run : runTask loop.db ent = some db) : TrafficRun (loop.withDb db) phase clock traffic

/-- The runs of the map: each command is answered by the map in front of it, and a timer
pass removes keys which are due, the earliest first. -/
inductive SpecRun : List ServerEvent → Contents → Nat → Prop where
  | start (clock : Nat) : SpecRun [] (fun _ => none) clock
  | command {history : List ServerEvent} {map map' : Contents} {clock : Nat}
      (before : SpecRun history map clock) (client : Nat) (env : Env) (later : clock ≤ env.now)
      {cmd : List Bytes} {reply : WireValue} (fits : reply.Fits)
      (answers : SpecAnswer env map cmd reply map') :
      SpecRun (history ++ [.command client env cmd reply.encode]) map' env.now
  | timers {history : List ServerEvent} {map map' : Contents} {clock : Nat}
      (before : SpecRun history map clock) (env : Env) (later : clock ≤ env.now)
      (expires : ExpiresOnly env.now map map') (earliest : ExpiresEarliest map map') :
      SpecRun (history ++ [.timers env]) map' env.now

/-! ## Recording -/

/-- Recording changes nothing else. -/
theorem execRecorded_along (client : Nat) : (execRecorded client).Along Prod.fst execEach :=
  fun _ _ => rfl

section Histories

variable {history more : List ServerEvent} {client : Nat}

theorem exchanges_append : exchanges client (history ++ more) =
    exchanges client history ++ exchanges client more := List.filterMap_append

/-- A history is read in pieces. -/
theorem commandsOf_append : commandsOf client (history ++ more) =
    commandsOf client history ++ commandsOf client more := by
  rw [commandsOf, exchanges_append, List.map_append, commandsOf, commandsOf]

theorem responsesOf_append : responsesOf client (history ++ more) =
    responsesOf client history ++ responsesOf client more := by
  rw [responsesOf, exchanges_append, List.flatMap_append, responsesOf, responsesOf]

end Histories

variable {loop loop' : EventLoop Server Conn} {phase : LoopPhase} {state state' : Server} {clock : Nat}
  {traffic : Traffic} {history : List ServerEvent}

/-- The commands of a round continue the history. -/
theorem SpecRun.requests {client now now' : Nat} {envs left : List Env}
    {front events : List ServerEvent}
    {cmds : List (List Bytes)} (spec : SpecRun history state.contents clock) (past : clock ≤ now)
    (consistent : state.Consistent now)
    (readings : (now :: (envs.map Env.now ++ [now'])).Pairwise (· ≤ ·))
    (run : (runRequests (execRecorded client) ((some state, envs), front) cmds).1 =
      ((some state', left), events)) :
    ∃ more clock', events = front ++ more ∧ clock' ≤ now' ∧
      SpecRun (history ++ more) state'.contents clock' ∧ commandsOf client more = cmds ∧
      responsesOf client more = (runRequests (execRecorded client)
        ((some state, envs), front) cmds).2 ∧
      ∀ other, other ≠ client → exchanges other more = [] := by
  have ends : now ≤ now' := List.rel_of_pairwise_cons readings (by simp)
  -- no database is left behind an abort
  have aborted : ∀ envs front cmds,
      (runRequests (execRecorded client) ((none, envs), front) cmds).1 ≠
      ((some state', left), events) := by
    intro envs front cmds same
    have plain := congrArg Prod.fst
      (runRequests_along (execRecorded_along client) ((none, envs), front) cmds)
    rw [runRequests_aborted, same] at plain
    cases plain
  induction cmds generalizing state history envs front clock now with
  | nil =>
      cases run
      refine ⟨[], clock, (List.append_nil _).symm, past.trans ends, ?_, rfl, rfl, fun _ _ => rfl⟩
      rwa [List.append_nil]
  | cons cmd cmds ih =>
      cases envs with
      | nil => exact absurd run (aborted [] _ cmds)
      | cons env envs =>
          have first : now ≤ env.now := List.rel_of_pairwise_cons readings (by simp)
          have behind := (List.pairwise_cons.mp readings).2
          by_cases negative : NegativeTtl cmd
          · have fails := @execCmd_negative state env cmd negative []
            simp only [runRequests, execRecorded, execEach, fails] at run
            exact absurd run (aborted envs _ cmds)
          · obtain ⟨state₁, reply, answer, fits, consistent', answers⟩ :=
              execCmd_answers consistent first negative []
            rw [List.nil_append] at answer
            simp only [runRequests, execRecorded, execEach, answer, List.head?_cons,
              Option.map_some,
              Option.toList_some] at run ⊢
            obtain ⟨more, clock', rfl, past', spec', commands, responses, others⟩ := ih
              (spec.command client env (past.trans first) fits answers) le_rfl consistent' behind run
              (List.rel_of_pairwise_cons behind (by simp))
            refine ⟨.command client env cmd reply.encode :: more, clock', by simp,
              past', ?_, ?_, ?_,
              fun other distinct => ?_⟩
            · rwa [List.append_assoc] at spec'
            · simpa [commandsOf, exchanges, ServerEvent.of?] using commands
            · rw [← responses]
              simp [responsesOf, exchanges, ServerEvent.of?]
            · have absent := others other distinct
              simpa [exchanges, ServerEvent.of?, distinct.symm] using absent

end MiniRedis
