import MiniRedis.Server.History

/-!
# What every client sees

However the connections are interleaved, the commands of all clients have run one after the
other, and each client gets the replies to its own commands in its own order.
-/

namespace MiniRedis

variable {loop loop' : EventLoop Server Conn} {phase : LoopPhase} {clock : Nat} {traffic : Traffic}

/-! ## Runs with and without their traffic -/

/-- The traffic is only watched. -/
theorem TrafficRun.process (run : TrafficRun loop phase clock traffic) :
    ProcessRun loop phase clock := by
  induction run with
  | start initial bound => exact .start initial bound
  | poll before prepared polls ih => exact ih.poll prepared polls
  | pass before ih => exact ih.pass
  | accept before later bound fresh unopened run ih =>
      exact ih.accept later bound fresh unopened run
  | quiet before ih => exact ih.quiet
  | serve before later bound readings read write write' run slot handled ih =>
      exact ih.serve later bound readings read write write' run
  | timers before env later run ih => exact ih.timers env later run
  | worker before ent run ih => exact ih.worker ent run

/-- The handlers of a round may be recorded. -/
theorem TrafficRun.exists_serve {now now' fd : Nat} {ready : Ready}
    {results : List (Nat × Option Ready)}
    (before : TrafficRun loop (.serving ((fd, some ready) :: results)) clock traffic)
    (later : clock ≤ now) (bound : now' < 2 ^ 63) {envs left : List Env}
    (readings : (now :: (envs.map Env.now ++ [now'])).Pairwise (· ≤ ·))
    (read : ReadResult) (write write' : WriteResult)
    (run : serveReady execEach (loop.withDb (some loop.db, envs)) fd now ready read write write' =
      some (loop'.withDb (some loop'.db, left))) :
    ∃ conn ∈ loop.live, ∃ io db written events,
      handleReady (execRecorded (traffic.client conn)) (loop.io conn)
        ((some loop.db, envs), []) ready read write write' = some (io, (db, events), written) ∧
      TrafficRun loop' (.serving results) now' (traffic.serve (traffic.client conn)
        (if ready.pollIn then read.data else []) written events) := by
  obtain ⟨-, ⟨idle, invariant, awaits⟩, -⟩ := before.process.sound
  obtain ⟨conn, live, rfl, -⟩ := awaits.requested _ List.mem_cons_self
  have slot := (invariant.mapped _ conn).mpr ⟨live, rfl⟩
  obtain ⟨io, written, handled, -⟩ := serveReady_effect run slot
  -- the recorded handlers do the same
  have same := handleReady_along (execRecorded_along (traffic.client conn)) (loop.io conn)
    ((some loop.db, envs), []) ready read write write'
  rw [show loop.io conn = (loop.withDb (some loop.db, envs)).io conn from rfl] at same
  rw [show ((some loop.db, envs) : Option Server × List Env) =
    (loop.withDb (some loop.db, envs)).db from rfl] at same
  obtain ⟨⟨io', ⟨db, events⟩, written'⟩, recorded, -⟩ :=
    Option.map_eq_some_iff.mp (same.symm.trans handled)
  exact ⟨conn, live, io', db, written', events, recorded,
    before.serve later bound readings read write write' run slot recorded⟩

/-- Every run has its traffic. -/
theorem ProcessRun.exists_traffic (run : ProcessRun loop phase clock) :
    ∃ traffic, TrafficRun loop phase clock traffic := by
  induction run with
  | start initial bound => exact ⟨_, .start initial bound⟩
  | poll before prepared polls ih =>
      obtain ⟨traffic, ih⟩ := ih
      exact ⟨traffic, ih.poll prepared polls⟩
  | pass before ih =>
      obtain ⟨traffic, ih⟩ := ih
      exact ⟨traffic, ih.pass⟩
  | accept before later bound fresh unopened run ih =>
      obtain ⟨traffic, ih⟩ := ih
      exact ⟨_, ih.accept later bound fresh unopened run⟩
  | quiet before ih =>
      obtain ⟨traffic, ih⟩ := ih
      exact ⟨traffic, ih.quiet⟩
  | serve before later bound readings read write write' run ih =>
      obtain ⟨traffic, ih⟩ := ih
      obtain ⟨conn, -, io, db, written, events, -, run'⟩ :=
        ih.exists_serve later bound readings read write write' run
      exact ⟨_, run'⟩
  | timers before env later run ih =>
      obtain ⟨traffic, ih⟩ := ih
      exact ⟨_, ih.timers env later run⟩
  | worker before ent run ih =>
      obtain ⟨traffic, ih⟩ := ih
      exact ⟨traffic, ih.worker ent run⟩

/-! ## Accounts -/

section Serve

variable (traffic : Traffic) (client : Nat) (data written : Bytes) (events : List ServerEvent)

@[simp] theorem Traffic.serve_received : (traffic.serve client data written events).received =
    Function.update traffic.received client (traffic.received client ++ data) := rfl

@[simp] theorem Traffic.serve_sent : (traffic.serve client data written events).sent =
    Function.update traffic.sent client (traffic.sent client ++ written) := rfl

@[simp] theorem Traffic.serve_history : (traffic.serve client data written events).history =
    traffic.history ++ events := rfl

end Serve

/-- The account of one client: its commands are those of the frames received, and their
responses have been sent or, as long as it is connected, are pending. -/
structure Traffic.Settled (traffic : Traffic) (loop : EventLoop Server Conn) (client : Nat)
    (rest unsent : Bytes) : Prop where
  framed : Framed (traffic.received client) (commandsOf client traffic.history) rest
  answered : traffic.sent client ++ unsent = responsesOf client traffic.history
  live : ∀ conn ∈ loop.live, traffic.client conn = client →
    (loop.io conn).incoming = rest ∧ (loop.io conn).outgoing = unsent

/-- What is known of every client, open or closed, in terms of the history. -/
structure Traffic.Accounted (traffic : Traffic) (loop : EventLoop Server Conn) : Prop where
  numbered : ∀ conn ∈ loop.live, traffic.client conn < traffic.accepted
  distinct : ∀ conn ∈ loop.live, ∀ other ∈ loop.live, traffic.client conn = traffic.client other →
    conn = other
  fresh : ∀ client, traffic.accepted ≤ client →
    traffic.received client = [] ∧ traffic.sent client = [] ∧ exchanges client traffic.history = []
  settled : ∀ client, ∃ rest unsent, traffic.Settled loop client rest unsent

namespace Traffic.Accounted

/-- Connections may be closed, and the database may change. -/
theorem keep (accounted : traffic.Accounted loop) (live : loop'.live ⊆ loop.live)
    (io : loop'.io = loop.io) : traffic.Accounted loop' where
  numbered conn member := accounted.numbered conn (live member)
  distinct conn member other member' := accounted.distinct conn (live member) other (live member')
  fresh := accounted.fresh
  settled client := by
    obtain ⟨rest, unsent, framed, answered, states⟩ := accounted.settled client
    refine ⟨rest, unsent, framed, answered, fun conn member same => ?_⟩
    rw [io]
    exact states conn (live member) same

/-- A timer pass concerns no client. -/
theorem expire (accounted : traffic.Accounted loop) (env : Env) :
    (traffic.expire env).Accounted loop := by
  have same : ∀ client, exchanges client (traffic.expire env).history =
      exchanges client traffic.history := by
    intro client
    simp [Traffic.expire, exchanges, ServerEvent.of?]
  refine ⟨accounted.numbered, accounted.distinct, fun client unaccepted => ?_, fun client => ?_⟩
  · rw [same]
    exact accounted.fresh client unaccepted
  · obtain ⟨rest, unsent, framed, answered, states⟩ := accounted.settled client
    refine ⟨rest, unsent, ?_, ?_, states⟩
    · rwa [commandsOf, same]
    · rwa [responsesOf, same]

/-- A new client has no history. -/
theorem accept (accounted : traffic.Accounted loop) {conn : Addr} (fresh : conn ∉ loop.live)
    (live : loop'.live = insert conn loop.live) (new : loop'.io conn = .accepted)
    (others : ∀ other ∈ loop.live, loop'.io other = loop.io other) :
    (traffic.accept conn).Accounted loop' := by
  have client_new : (traffic.accept conn).client conn = traffic.accepted := by simp [Traffic.accept]
  have client_other : ∀ other ∈ loop.live, (traffic.accept conn).client other =
      traffic.client other :=
    fun other member => Function.update_of_ne (by rintro rfl; exact fresh member) ..
  have apart : ∀ other ∈ loop.live, (traffic.accept conn).client other ≠ traffic.accepted := by
    intro other member
    rw [client_other other member]
    exact (accounted.numbered other member).ne
  constructor
  · intro other member
    rw [live, Finset.mem_insert] at member
    obtain rfl | member := member
    · rw [client_new]
      exact Nat.lt_succ_self _
    · rw [client_other other member]
      exact (accounted.numbered other member).trans (Nat.lt_succ_self _)
  · intro first member second member' same
    rw [live, Finset.mem_insert] at member member'
    obtain rfl | member := member
    · obtain rfl | member' := member'
      · rfl
      · exact absurd (same.symm.trans client_new) (apart second member')
    · obtain rfl | member' := member'
      · exact absurd (same.trans client_new) (apart first member)
      · rw [client_other first member, client_other second member'] at same
        exact accounted.distinct first member second member' same
  · exact fun client unaccepted => accounted.fresh client ((Nat.le_succ _).trans unaccepted)
  · intro client
    obtain ⟨rest, unsent, framed, answered, states⟩ := accounted.settled client
    by_cases newest : client = traffic.accepted
    · -- nothing has passed yet
      subst newest
      obtain ⟨received, sent, silent⟩ := accounted.fresh _ le_rfl
      have commands : commandsOf traffic.accepted traffic.history = [] := by rw [commandsOf, silent]; rfl
      have responses : responsesOf traffic.accepted traffic.history = [] := by
        rw [responsesOf, silent]
        rfl
      refine ⟨[], [], ?_, ?_, fun other member same => ?_⟩
      · change Framed (traffic.received traffic.accepted) _ _
        rw [received]
        change Framed [] (commandsOf traffic.accepted traffic.history) []
        rw [commands]
        exact ⟨rfl, by simp, .inl incomplete_nil⟩
      · change traffic.sent traffic.accepted ++ [] = responsesOf traffic.accepted traffic.history
        rw [sent, responses]
        rfl
      · rw [live, Finset.mem_insert] at member
        obtain rfl | member := member
        · rw [new]
          exact ⟨rfl, rfl⟩
        · exact absurd same (apart other member)
    · refine ⟨rest, unsent, framed, answered, fun other member same => ?_⟩
      rw [live, Finset.mem_insert] at member
      obtain rfl | member := member
      · exact absurd (same.symm.trans client_new) newest
      · rw [client_other other member] at same
        rw [others other member]
        exact states other member same

/-- A round adds to the account of the connection which it serves. -/
theorem serve (accounted : traffic.Accounted loop) {conn : Addr} (member : conn ∈ loop.live)
    (live : loop'.live ⊆ loop.live)
    (others : ∀ other, other ≠ conn → loop'.io other = loop.io other)
    {data written rest unsent : Bytes} {cmds : List (List Bytes)} {events : List ServerEvent}
    (framed : Framed ((loop.io conn).incoming ++ data) cmds rest)
    (answered : written ++ unsent = (loop.io conn).outgoing ++ responsesOf (traffic.client conn) events)
    (commands : commandsOf (traffic.client conn) events = cmds)
    (silent : ∀ other, other ≠ traffic.client conn → exchanges other events = [])
    (stays : conn ∈ loop'.live → (loop'.io conn).incoming = rest ∧ (loop'.io conn).outgoing = unsent) :
    (traffic.serve (traffic.client conn) data written events).Accounted loop' := by
  constructor
  · exact fun other member' => accounted.numbered other (live member')
  · exact fun first member' second member'' =>
      accounted.distinct first (live member') second (live member'')
  · intro client unaccepted
    have other : client ≠ traffic.client conn :=
      ((accounted.numbered conn member).trans_le unaccepted).ne'
    obtain ⟨received, sent, nothing⟩ := accounted.fresh client unaccepted
    rw [Traffic.serve_received, Traffic.serve_sent, Traffic.serve_history,
      Function.update_of_ne other,
      Function.update_of_ne other, exchanges_append, nothing, silent client other]
    exact ⟨received, sent, rfl⟩
  · intro client
    obtain ⟨rest', unsent', framed', answered', states⟩ := accounted.settled client
    by_cases served : client = traffic.client conn
    · subst served
      obtain ⟨rfl, rfl⟩ := states conn member rfl
      refine ⟨rest, unsent, ?_, ?_, fun other member' same => ?_⟩
      · rw [Traffic.serve_received, Traffic.serve_history, Function.update_self, commandsOf_append,
          commands]
        exact framed'.append framed
      · rw [Traffic.serve_sent, Traffic.serve_history, Function.update_self, responsesOf_append,
          ← answered', List.append_assoc, answered, List.append_assoc]
      · obtain rfl := accounted.distinct other (live member') conn member same
        exact stays member'
    · refine ⟨rest', unsent', ?_, ?_, fun other member' same => ?_⟩
      · rw [Traffic.serve_received, Traffic.serve_history, Function.update_of_ne served,
          commandsOf_append]
        simpa [commandsOf, silent client served] using framed'
      · rw [Traffic.serve_sent, Traffic.serve_history, Function.update_of_ne served,
          responsesOf_append]
        simpa [responsesOf, silent client served] using answered'
      · have distinct : other ≠ conn := by
          rintro rfl
          exact served same.symm
        rw [others other distinct]
        exact states other (live member') same

end Traffic.Accounted

/-! ## The runs -/

/-- The database is empty at first. -/
theorem Server.Initial.contents {state : Server} (initial : state.Initial) :
    state.contents = fun _ => none := by
  rw [Server.contents, initial.db]
  rfl

/-- The round which has been recorded is the one which has run. -/
theorem TrafficRun.served {now now' fd : Nat} {ready : Ready} {results : List (Nat × Option Ready)}
    (before : TrafficRun loop (.serving ((fd, some ready) :: results)) clock traffic)
    (accounted : traffic.Accounted loop) {clock' : Nat}
    (spec : SpecRun traffic.history loop.db.contents clock') (past : clock' ≤ clock)
    (later : clock ≤ now) {envs left : List Env}
    (readings : (now :: (envs.map Env.now ++ [now'])).Pairwise (· ≤ ·))
    {read : ReadResult} {write write' : WriteResult}
    (run : serveReady execEach (loop.withDb (some loop.db, envs)) fd now ready read write write' =
      some (loop'.withDb (some loop'.db, left))) {conn : Addr}
    (slot : loop.fd2conn[fd]? = some (some conn)) {io : Option Conn} {written : Bytes}
    {db : Option Server × List Env} {events : List ServerEvent}
    (handled : handleReady (execRecorded (traffic.client conn)) (loop.io conn)
      ((some loop.db, envs), []) ready read write write' = some (io, (db, events), written)) :
    (traffic.serve (traffic.client conn) (if ready.pollIn then read.data else []) written
        events).Accounted loop' ∧
      ∃ clock' ≤ now', SpecRun (traffic.history ++ events) loop'.db.contents clock' := by
  obtain ⟨-, ⟨idle, invariant, awaits⟩, clock'', past', reachable⟩ := before.process.sound
  obtain ⟨other, live, rfl, polled⟩ := awaits.requested _ List.mem_cons_self
  obtain rfl : other = conn := by
    have slot' := (invariant.mapped _ other).mpr ⟨live, rfl⟩
    rw [slot] at slot'
    simpa using slot'.symm
  obtain ⟨_, _, _, cmds, unsent, rest, handled', serves, -, steady⟩ :=
    handleReady_spec (execRecorded (traffic.client other)) ((some loop.db, envs), [])
      (invariant.steady other live) (polled _ rfl) read write write'
  rw [handled] at handled'
  cases handled'
  -- the database behind the plain round
  obtain ⟨io', written', plain, -, fewer, -, others, -, stays⟩ := serveReady_effect run slot
  have along := handleReady_along (execRecorded_along (traffic.client other)) (loop.io other)
    ((some loop.db, envs), []) ready read write write'
  rw [handled] at along
  obtain ⟨rfl, rfl, rfl⟩ : io' = io ∧ (some loop'.db, left) = db ∧ written' = written := by
    simpa [EventLoop.withDb] using plain.symm.trans along
  obtain ⟨more, clock₁, same, bound, spec', commands, responses, silent⟩ :=
    spec.requests (past.trans later) (reachable.consistent.later (past'.trans later)) readings
      serves.executed.symm
  obtain rfl : events = more := same
  have owed := serves.answered
  rw [← responses] at owed
  refine ⟨accounted.serve live fewer others serves.framed owed commands silent fun member => ?_,
    clock₁, bound, spec'⟩
  obtain ⟨-, outgoing, incoming⟩ := steady _ (stays member)
  exact ⟨incoming, outgoing⟩

/-- The invariant of every run, with the history of the database. -/
theorem TrafficRun.accounted (run : TrafficRun loop phase clock traffic) :
    traffic.Accounted loop ∧ ∃ clock' ≤ clock, SpecRun traffic.history loop.db.contents clock' := by
  induction run with
  | @start fd io lastActiveMs db clock initial bound =>
      refine ⟨⟨by simp, by simp, fun client _ => ⟨rfl, rfl, rfl⟩,
        fun client => ⟨[], [], ?_, rfl, by simp⟩⟩,
        clock, le_rfl, ?_⟩
      · exact ⟨rfl, by simp [commandsOf, exchanges], .inl incomplete_nil⟩
      · rw [initial.contents]
        exact .start clock
  | poll before prepared polls ih => exact ih
  | pass before ih => exact ih
  | accept before later bound fresh unopened run ih =>
      obtain ⟨accounted, clock', past, spec⟩ := ih
      obtain ⟨idleList, -, run⟩ := Option.bind_eq_some_iff.mp run
      cases run
      refine ⟨accounted.accept fresh rfl (Function.update_self ..) fun other member => ?_,
        clock', past.trans later, spec⟩
      exact Function.update_of_ne (by rintro rfl; exact fresh member) ..
  | quiet before ih => exact ih
  | serve before later bound readings read write write' run slot handled ih =>
      obtain ⟨accounted, clock', past, spec⟩ := ih
      exact before.served accounted spec past later readings run slot handled
  | @timers loop loop' clock traffic before env later run ih =>
      obtain ⟨accounted, clock', past, spec⟩ := ih
      obtain ⟨-, sound, clock'', past', reachable⟩ := before.process.sound
      obtain ⟨closed, db, closes, expires, run', -⟩ := sound.processTimers past' reachable env later
      rw [run] at run'
      cases run'
      obtain ⟨io, live⟩ := closeIdle_effect closes
      obtain ⟨_, expires', -, only, earliest, -⟩ :=
        processTimers_swept reachable.consistent (past'.trans later)
      rw [expires] at expires'
      cases expires'
      have kept : traffic.Accounted { closed with db := db } := accounted.keep live io
      exact ⟨kept.expire env, env.now, le_rfl, spec.timers env (past.trans later) only earliest⟩
  | worker before ent run ih =>
      obtain ⟨accounted, clock', past, spec⟩ := ih
      obtain ⟨-, -, _, -, reachable⟩ := before.process.sound
      obtain ⟨entries, deadline, tree, invariant⟩ := reachable.consistent
      obtain ⟨_, _, run', -, same, -⟩ := runTask_spec invariant (mem_tasks_of_runTask run)
      rw [run] at run'
      cases run'
      refine ⟨accounted.keep subset_rfl rfl, clock', past, ?_⟩
      rw [← same] at spec
      exact spec

/-- One history of commands and timer passes, each command answered by the map in front of
it, explains the whole run. Every connection has received exactly the frames of its own
commands in that order, and has sent a beginning of its own responses; as long as it is
open, the rest of them is pending. -/
theorem TrafficRun.serialized (run : TrafficRun loop phase clock traffic) :
    (∃ clock' ≤ clock, SpecRun traffic.history loop.db.contents clock') ∧
    (∀ client, traffic.accepted ≤ client → exchanges client traffic.history = []) ∧
    ∀ client, ∃ rest, Framed (traffic.received client) (commandsOf client traffic.history) rest ∧
      traffic.sent client <+: responsesOf client traffic.history ∧
      ∀ conn ∈ loop.live, traffic.client conn = client →
        traffic.sent client ++ (loop.io conn).outgoing = responsesOf client traffic.history ∧
        (loop.io conn).incoming = rest ∧ Incomplete rest := by
  obtain ⟨accounted, spec⟩ := run.accounted
  obtain ⟨-, ⟨idle, invariant, -⟩, -⟩ := run.process.sound
  refine ⟨spec, fun client unaccepted => (accounted.fresh client unaccepted).2.2, fun client => ?_⟩
  obtain ⟨rest, unsent, framed, answered, states⟩ := accounted.settled client
  refine ⟨rest, framed, ⟨unsent, answered⟩, fun conn live same => ?_⟩
  obtain ⟨rfl, rfl⟩ := states conn live same
  exact ⟨answered, rfl, (invariant.steady conn live).waiting⟩

/-! ## A visit -/

/-- A client has connected, and `poll` reports data for it. -/
theorem TrafficRun.connected {fd : Addr → Nat} {io : Addr → Conn} {lastActiveMs : Addr → Nat}
    {state : Server} (initial : state.Initial) (env : Env) :
    ∃ loop, TrafficRun loop (.serving [(4, some ⟨true, false, false⟩)]) env.now
        ((Traffic.accept {} 7).expire env) ∧
      loop.live = {7} ∧ loop.io 7 = .accepted ∧ loop.db = state := by
  have started : TrafficRun { fd := fd, io := io, lastActiveMs := lastActiveMs, db := state } .top
      env.now {} := .start initial env.nowBound
  obtain ⟨loop, accepts, slots, live, io', fd', active, rfl⟩ : ∃ loop,
      handleAccept { fd := fd, io := io, lastActiveMs := lastActiveMs, db := state } 7 4 env.now =
        some loop ∧ loop.fd2conn = [none, none, none, none, some 7] ∧ loop.live = {7} ∧
      loop.io 7 = .accepted ∧ loop.fd 7 = 4 ∧ loop.lastActiveMs 7 = env.now ∧ loop.db = state :=
    ⟨_, rfl, rfl, rfl, by simp, by simp, by simp, rfl⟩
  have accepted := (started.poll rfl .nil).accept le_rfl env.nowBound (by simp) (by simp) accepts
  -- a connection which has just been accepted survives the timers
  obtain ⟨-, ⟨idle, invariant, -⟩, -⟩ := accepted.process.sound
  have alone : idle = [7] := by
    apply List.perm_singleton.mp
    rw [List.perm_ext_iff_of_nodup invariant.nodup (List.nodup_singleton 7)]
    simp [invariant.listed, live]
  subst alone
  have kept : loop.closeIdle env.now = some loop := by
    rw [closeIdle_cons invariant le_rfl env.nowBound, active, if_pos]
    exact Nat.lt_add_of_pos_right (by decide)
  have nothing : processTimers env loop.db = some loop.db := by
    simp [processTimers, kMaxWorks, expireFrom, initial.arr]
  have waited : TrafficRun loop .top env.now ((Traffic.accept {} 7).expire env) := by
    apply accepted.timers env le_rfl
    simp [EventLoop.processTimers, kept, nothing]
  have args : pollArgs loop loop.fd2conn = some [⟨4, true, false⟩] := by
    simp [slots, pollArgs, pollArgsWith, live, io', fd', Conn.accepted]
  have polls : Polls [⟨4, true, false⟩] [(4, some ⟨true, false, false⟩)] :=
    .cons ⟨rfl, by simp⟩ .nil
  exact ⟨loop, (waited.poll args polls).pass, live, io', rfl⟩

/-- The client sends some commands at once, and they are executed. -/
theorem TrafficRun.asks {cmds : List (List Bytes)} (valid : ∀ cmd ∈ cmds, ValidRequest cmd)
    {envs left : List Env} {state' : Server} (same : ∀ env ∈ envs, env.now = 0)
    (executes : (runRequests execEach (some Server.start, envs) cmds).1 = (some state', left)) :
    ∃ loop traffic, TrafficRun loop (.serving []) 0 traffic ∧
    traffic.history = .timers Env.counting ::
      (runRequests (execRecorded 0) ((some Server.start, envs), []) cmds).1.2 := by
  obtain ⟨loop, run, live, io, stored⟩ :=
    @TrafficRun.connected (fun _ => 0) (fun _ => {}) (fun _ => 0) _
    Server.start_initial Env.counting
  have stream : Framed (cmds.flatMap requestFrame) cmds [] := ⟨by simp, valid, .inl incomplete_nil⟩
  obtain ⟨loop', serves, -, conn, member, -, -, cmds', rest, framed, executed⟩ :=
    (run.process.sound.2.1.withDb (some loop.db, envs)).serve le_rfl execEach
      (.bytes (cmds.flatMap requestFrame)) .again .again
  obtain rfl : conn = 7 := by simpa [EventLoop.withDb, live] using member
  have received : (loop.withDb (some loop.db, envs)).io 7 = .accepted := io
  rw [received, Conn.accepted] at framed
  obtain ⟨rfl, rfl⟩ := framed.unique stream
  rw [← stored] at executes
  have whole : (loop'.withDb state').withDb (some state', left) = loop' := by
    have database : loop'.db = (some state', left) := executed.trans executes
    rw [← database]
    rfl
  have readings : (Env.counting.now :: (envs.map Env.now ++ [0])).Pairwise (· ≤ ·) := by
    apply List.pairwise_of_forall_mem_list
    have zero : ∀ reading ∈ Env.counting.now :: (envs.map Env.now ++ [0]), reading = 0 := by
      intro reading inside
      simp only [List.mem_cons, List.mem_append, List.mem_map, List.not_mem_nil, or_false] at inside
      obtain rfl | ⟨env, inside, rfl⟩ | rfl := inside
      · rfl
      · exact same env inside
      · rfl
    intro first inside second inside'
    rw [zero first inside, zero second inside']
  rw [← whole] at serves
  obtain ⟨conn, member, _, _, _, events, handled, run'⟩ := run.exists_serve le_rfl
    (by norm_num : 0 < 2 ^ 63) readings _ _ _ serves
  obtain rfl : conn = 7 := by simpa [live] using member
  have first : ((Traffic.accept {} 7).expire Env.counting).client 7 = 0 := by
    simp [Traffic.expire, Traffic.accept]
  rw [io, first] at handled
  -- the recorded handlers execute the same commands
  have polled : (⟨true, false, false⟩ : Ready).Polled .accepted :=
    ⟨fun _ => rfl, fun never => by cases never⟩
  obtain ⟨_, _, _, cmds, _, rest, handled', ⟨framed', executed', -⟩, -⟩ := handleReady_spec
    (execRecorded 0) ((some loop.db, envs), []) Conn.accepted_steady polled
    (.bytes (cmds'.flatMap requestFrame)) .again .again
  rw [handled] at handled'
  cases handled'
  obtain ⟨rfl, rfl⟩ := framed'.unique stream
  refine ⟨_, _, run', ?_⟩
  rw [← stored, ← executed']
  rfl

end MiniRedis
