import MiniRedis.Server.LoopReachable
import MiniRedis.Server.Sweep

/-!
# The whole server

The event loop with the database behind it: commands come from the connections, expiry
from `process_timers`, and worker threads run between any two steps.
-/

namespace MiniRedis

/-- `process_timers`. -/
def EventLoop.processTimers {κ : Type} (loop : EventLoop Server κ) (env : Env) :
    Option (EventLoop Server κ) := do
  let loop ← loop.closeIdle env.now
  let db ← MiniRedis.processTimers env loop.db
  return { loop with db := db }

/-- `exec_cmd` for the commands of one round, each with what it gets from outside. No database
is left by a command which aborts. What a command appends to `outgoing` does not depend on what is
in it (`Buffers.execCmd_append`), so an empty one serves here. -/
def execEach : Executor (Option Server × List Env)
  | (some state, env :: envs), cmd =>
    match execCmd env state cmd [] with
    | some (state, value) => ((some state, envs), value)
    | none => ((none, envs), [])
  | (_, envs), _ => ((none, envs), [])

/-- The states of any run of `main`, with the last clock reading. The commands of a round
read the clock in the order in which they run. -/
inductive ProcessRun : EventLoop Server Conn → LoopPhase → Nat → Prop where
  | start {fd : Addr → Nat} {io : Addr → Conn} {lastActiveMs : Addr → Nat} {db : Server}
      {clock : Nat} (initial : db.Initial) (bound : clock < 2 ^ 63) :
      ProcessRun { fd := fd, io := io, lastActiveMs := lastActiveMs, db := db } .top clock
  | poll {loop : EventLoop Server Conn} {clock : Nat} (before : ProcessRun loop .top clock)
      {args : List PollFd} (prepared : pollArgs loop loop.fd2conn = some args)
      {results : List (Nat × Option Ready)} (polls : Polls args results) :
      ProcessRun loop (.polled results) clock
  | pass {loop : EventLoop Server Conn} {clock : Nat} {results : List (Nat × Option Ready)}
      (before : ProcessRun loop (.polled results) clock) : ProcessRun loop (.serving results) clock
  | accept {loop loop' : EventLoop Server Conn} {clock now : Nat} {results : List (Nat × Option Ready)}
      (before : ProcessRun loop (.polled results) clock) (later : clock ≤ now)
      (bound : now < 2 ^ 63) {conn : Addr} (fresh : conn ∉ loop.live) {connfd : Nat}
      (unopened : ∀ other ∈ loop.live, loop.fd other ≠ connfd)
      (run : handleAccept loop conn connfd now = some loop') : ProcessRun loop' (.serving results) now
  | quiet {loop : EventLoop Server Conn} {clock fd : Nat} {results : List (Nat × Option Ready)}
      (before : ProcessRun loop (.serving ((fd, none) :: results)) clock) :
      ProcessRun loop (.serving results) clock
  | serve {loop loop' : EventLoop Server Conn} {clock now now' fd : Nat} {ready : Ready}
      {results : List (Nat × Option Ready)}
      (before : ProcessRun loop (.serving ((fd, some ready) :: results)) clock)
      (later : clock ≤ now) (bound : now' < 2 ^ 63) {envs left : List Env}
      (readings : (now :: (envs.map Env.now ++ [now'])).Pairwise (· ≤ ·))
      (read : ReadResult) (write write' : WriteResult)
      (run : serveReady execEach (loop.withDb (some loop.db, envs)) fd now ready read write write' =
        some (loop'.withDb (some loop'.db, left))) :
      ProcessRun loop' (.serving results) now'
  | timers {loop loop' : EventLoop Server Conn} {clock : Nat}
      (before : ProcessRun loop (.serving []) clock) (env : Env) (later : clock ≤ env.now)
      (run : loop.processTimers env = some loop') : ProcessRun loop' .top env.now
  | worker {loop : EventLoop Server Conn} {phase : LoopPhase} {clock : Nat}
      (before : ProcessRun loop phase clock) (ent : Addr) {db : Server}
      (run : runTask loop.db ent = some db) : ProcessRun (loop.withDb db) phase clock

variable {loop loop' : EventLoop Server Conn} {phase : LoopPhase} {state state' : Server} {clock : Nat}

/-! ## The parts of a run -/

/-- An abort is final. -/
theorem runRequests_aborted (envs : List Env) (cmds : List (List Bytes)) :
    (runRequests execEach (none, envs) cmds).1 = (none, envs) := by
  induction cmds with
  | nil => rfl
  | cons cmd cmds ih => exact ih

/-- The commands of a round are commands of a run of the database. -/
theorem ServerReachable.requests {now : Nat} {envs left : List Env} {cmds : List (List Bytes)}
    (reachable : ServerReachable state clock)
    (readings : (clock :: (envs.map Env.now ++ [now])).Pairwise (· ≤ ·))
    (run : (runRequests execEach (some state, envs) cmds).1 = (some state', left)) :
    ∃ clock' ≤ now, ServerReachable state' clock' := by
  induction cmds generalizing state envs clock with
  | nil =>
      cases run
      exact ⟨clock, List.rel_of_pairwise_cons readings (by simp), reachable⟩
  | cons cmd cmds ih =>
      cases envs with
      | nil =>
          have aborted : (runRequests execEach (none, []) cmds).1 = (some state', left) := run
          rw [runRequests_aborted] at aborted
          cases aborted
      | cons env envs =>
          have first : clock ≤ env.now := List.rel_of_pairwise_cons readings (by simp)
          have behind := (List.pairwise_cons.mp readings).2
          cases answer : execCmd env state cmd [] with
          | none =>
              have aborted : (runRequests execEach (none, envs) cmds).1 = (some state', left) := by
                simpa [runRequests, execEach, answer] using run
              rw [runRequests_aborted] at aborted
              cases aborted
          | some result =>
              have rest : (runRequests execEach (some result.1, envs) cmds).1 = (some state', left) := by
                simpa [runRequests, execEach, answer] using run
              exact ih (.exec reachable env first cmd answer) behind rest

/-- A pass succeeds in every sound state over a reachable database. -/
theorem EventLoop.Sound.processTimers (sound : loop.Sound phase clock) {clock' : Nat}
    (past : clock' ≤ clock) (reachable : ServerReachable loop.db clock') (env : Env)
    (later : clock ≤ env.now) :
    ∃ closed db, loop.closeIdle env.now = some closed ∧
      MiniRedis.processTimers env loop.db = some db ∧
      loop.processTimers env = some { closed with db := db } ∧
      EventLoop.Sound { closed with db := db } .top env.now ∧ ServerReachable db env.now := by
  obtain ⟨closed, run, sound', same⟩ := sound.closeIdle later env.nowBound
  obtain ⟨db, _, _, expires, -⟩ :=
    processTimers_spec reachable.consistent env (past.trans later)
  refine ⟨closed, db, run, expires, ?_, sound'.withDb db,
    reachable.timers env (past.trans later) expires⟩
  simp [EventLoop.processTimers, run, same, expires]

/-- Connections and database are in order at every point of every run. -/
theorem ProcessRun.sound (run : ProcessRun loop phase clock) :
    clock < 2 ^ 63 ∧ loop.Sound phase clock ∧ ∃ clock' ≤ clock, ServerReachable loop.db clock' := by
  induction run with
  | start initial bound => exact ⟨bound, .start, _, le_rfl, .initial initial _⟩
  | poll before prepared polls ih => exact ⟨ih.1, ih.2.1.poll prepared polls, ih.2.2⟩
  | pass before ih => exact ih
  | accept before later bound fresh unopened run ih =>
      obtain ⟨-, sound, clock', past, reachable⟩ := ih
      have same := sound.accept later fresh unopened run
      obtain ⟨idleList, -, run⟩ := Option.bind_eq_some_iff.mp run
      cases run
      exact ⟨bound, same, clock', past.trans later, reachable⟩
  | quiet before ih => exact ⟨ih.1, ih.2.1.quiet, ih.2.2⟩
  | @serve loop loop' clock now now' fd ready results before later bound envs left readings read
      write write' run ih =>
      obtain ⟨-, sound, clock', past, reachable⟩ := ih
      have ends : now ≤ now' := List.rel_of_pairwise_cons readings (by simp)
      obtain ⟨_, run', sound', -, -, -, -, cmds, -, -, executed⟩ :=
        (sound.withDb (some loop.db, envs)).serve later execEach read write write'
      rw [run] at run'
      cases run'
      obtain ⟨idle, invariant, awaits⟩ := sound'.withDb loop'.db
      have ordered : (clock' :: (envs.map Env.now ++ [now'])).Pairwise (· ≤ ·) := by
        obtain ⟨first, rest⟩ := List.pairwise_cons.mp readings
        refine List.pairwise_cons.mpr ⟨fun other member => ?_, rest⟩
        exact (past.trans later).trans (first other member)
      exact ⟨bound, ⟨idle, invariant.later ends, awaits⟩, reachable.requests ordered executed.symm⟩
  | timers before env later run ih =>
      obtain ⟨-, sound, clock', past, reachable⟩ := ih
      obtain ⟨_, db, -, -, run', sound', reachable'⟩ := sound.processTimers past reachable env later
      rw [run] at run'
      cases run'
      exact ⟨env.nowBound, sound', _, le_rfl, reachable'⟩
  | worker before ent run ih =>
      obtain ⟨bound, sound, clock', past, reachable⟩ := ih
      exact ⟨bound, sound.withDb _, clock', past, reachable.worker ent run⟩

/-! ## A visit -/

/-- A new connection has been accepted, and `poll` reports data and an error for it. -/
theorem ProcessRun.welcome {fd : Addr → Nat} {io : Addr → Conn} {lastActiveMs : Addr → Nat}
    (initial : state.Initial) (env : Env) :
    ∃ loop, ProcessRun loop (.serving [(4, some ⟨true, false, true⟩)]) env.now ∧
      loop.live = {7} ∧ loop.io 7 = .accepted ∧ loop.db = state := by
  have started : ProcessRun { fd := fd, io := io, lastActiveMs := lastActiveMs, db := state } .top
      env.now := .start initial env.nowBound
  obtain ⟨loop, accepts, slots, live, io', fd', active, rfl⟩ : ∃ loop,
      handleAccept { fd := fd, io := io, lastActiveMs := lastActiveMs, db := state } 7 4 env.now =
        some loop ∧ loop.fd2conn = [none, none, none, none, some 7] ∧ loop.live = {7} ∧
      loop.io 7 = .accepted ∧ loop.fd 7 = 4 ∧ loop.lastActiveMs 7 = env.now ∧ loop.db = state :=
    ⟨_, rfl, rfl, rfl, by simp, by simp, by simp, rfl⟩
  have accepted := (started.poll rfl .nil).accept le_rfl env.nowBound (by simp) (by simp) accepts
  -- a connection which has just been accepted survives the timers
  obtain ⟨-, ⟨idle, invariant, -⟩, -⟩ := accepted.sound
  have alone : idle = [7] := by
    apply List.perm_singleton.mp
    rw [List.perm_ext_iff_of_nodup invariant.nodup (List.nodup_singleton 7)]
    simp [invariant.listed, live]
  subst alone
  have kept : loop.closeIdle env.now = some loop := by
    rw [closeIdle_cons invariant le_rfl env.nowBound, active, if_pos]
    exact Nat.lt_add_of_pos_right (by decide)
  have nothing : processTimers env loop.db = some loop.db := by
    simp [processTimers, kMaxWorks, expireFrom, initial.arr]
  have waited : ProcessRun loop .top env.now := by
    apply accepted.timers env le_rfl
    simp [EventLoop.processTimers, kept, nothing]
  have args : pollArgs loop loop.fd2conn = some [⟨4, true, false⟩] := by
    simp [slots, pollArgs, pollArgsWith, live, io', fd', Conn.accepted]
  have polls : Polls [⟨4, true, false⟩] [(4, some ⟨true, false, true⟩)] :=
    .cons ⟨rfl, by simp⟩ .nil
  exact ⟨loop, (waited.poll args polls).pass, live, io', rfl⟩

/-- A new connection for which `poll` reports data and an error is served and closed. -/
theorem ProcessRun.visit {fd : Addr → Nat} {io : Addr → Conn} {lastActiveMs : Addr → Nat}
    (initial : state.Initial) (env : Env) {cmds : List (List Bytes)}
    (valid : ∀ cmd ∈ cmds, ValidRequest cmd) {envs left : List Env}
    (same : ∀ other ∈ envs, other.now = env.now)
    (executes : (runRequests execEach (some state, envs) cmds).1 = (some state', left)) :
    ∃ loop, ProcessRun loop (.serving []) env.now ∧ loop.live = ∅ ∧ loop.db = state' := by
  obtain ⟨loop, serving, live, io', rfl⟩ := @ProcessRun.welcome _ fd io lastActiveMs initial env
  -- the whole stream arrives at once
  obtain ⟨loop', run, sound', conn, member, -, closed, cmds', rest, framed, executed⟩ :=
    (serving.sound.2.1.withDb (some loop.db, envs)).serve le_rfl execEach
      (.bytes (cmds.flatMap requestFrame)) .again .again
  obtain rfl : conn = 7 := by simpa [EventLoop.withDb, live] using member
  have stream : Framed (cmds.flatMap requestFrame) cmds [] :=
    ⟨(List.append_nil _).symm, valid, .inl incomplete_nil⟩
  have received : (loop.withDb (some loop.db, envs)).io 7 = .accepted := io'
  rw [received, Conn.accepted] at framed
  obtain ⟨rfl, rfl⟩ := framed.unique stream
  rw [show (loop.withDb (some loop.db, envs)).db = (some loop.db, envs) from rfl, executes] at executed
  have readings : (env.now :: (envs.map Env.now ++ [env.now])).Pairwise (· ≤ ·) := by
    have constant : ∀ reading ∈ env.now :: (envs.map Env.now ++ [env.now]), reading = env.now := by
      intro reading member
      simp only [List.mem_cons, List.mem_append, List.mem_map, List.not_mem_nil, or_false] at member
      obtain rfl | ⟨other, inside, rfl⟩ | rfl := member
      · rfl
      · exact same other inside
      · rfl
    apply List.pairwise_of_forall_mem_list
    intro first member second member'
    rw [constant first member, constant second member']
  have whole : (loop'.withDb state').withDb (some state', left) = loop' := by
    rw [← executed]
    rfl
  have served : ProcessRun (loop'.withDb state') (.serving []) env.now := by
    apply serving.serve le_rfl env.nowBound readings (.bytes (cmds'.flatMap requestFrame)) .again .again
    rw [run, ← whole]
    rfl
  refine ⟨_, served, ?_, rfl⟩
  change loop'.live = ∅
  rw [closed rfl]
  simp [EventLoop.withDb, live]

/-- `zadd z 0 a` and `pexpire z ttl` on a server which has just started. -/
theorem execEach_pexpire {arg : Bytes} {ttl : Nat} (parsed : str2int arg = some (ttl : Int)) :
    ∃ state', (runRequests execEach (some Server.start, [Env.counting, Env.counting])
        [[ascii "zadd", [122], [48], [97]], [ascii "pexpire", [122], arg]]).1 = (some state', []) ∧
      state'.contents =
        Function.update (fun _ => none) [122] (some ⟨.zset singleScore, some ttl⟩) := by
  obtain ⟨state, _, added, consistent, stored⟩ := execCmd_zadd_start
  obtain ⟨state', expires, stored'⟩ := execCmd_pexpire_single parsed consistent stored
  exact ⟨state', by simp [runRequests, execEach, added, expires], stored'⟩

/-- A client leaves a key with a deadline behind. -/
theorem ProcessRun.expiring {arg : Bytes} {ttl : Nat} (parsed : str2int arg = some (ttl : Int))
    (short : arg.length ≤ 100) :
    ∃ loop, ProcessRun loop (.serving []) 0 ∧ loop.live = ∅ ∧ loop.db.contents =
      Function.update (fun _ => none) [122] (some ⟨.zset singleScore, some ttl⟩) := by
  obtain ⟨state', executes, stored⟩ := execEach_pexpire parsed
  have valid : ∀ cmd ∈ [[ascii "zadd", [122], [48], [97]], [ascii "pexpire", [122], arg]],
      ValidRequest cmd := by
    intro cmd member
    simp only [List.mem_cons, List.not_mem_nil, or_false] at member
    obtain rfl | rfl := member
    · exact ⟨by decide, by decide⟩
    · refine ⟨by simp [kMaxArgs], ?_⟩
      simp [encodeRequest, encodeStrings, ascii, kMaxMsg]
      omega
  obtain ⟨loop, run, alone, rfl⟩ := @ProcessRun.visit _ _ (fun _ => 0) (fun _ => {}) (fun _ => 0)
    Server.start_initial Env.counting _ valid _ _ (by simp) executes
  exact ⟨loop, run, alone, stored⟩

end MiniRedis
