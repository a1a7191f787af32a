import MiniRedis.Server.Aborts
import MiniRedis.Server.Locality

/-!
# How late the timers are

`next_timer_ms` computes the timeout from the earliest deadline, `process_timers` removes what is
due, and between the two calls the loop serves its connections. If `poll` and the handlers keep
time, no deadline of a connection or of a key is missed by more than a bound, in no state of a run.
-/

namespace MiniRedis

/-- The runs of `main` which keep time: `poll` returns at most `late` milliseconds behind its
timeout, and the next call of `next_timer_ms` is at most `work` milliseconds behind its return,
which is the `limit`. `full` counts the last passes which stopped at `kMaxWorks` keys. -/
inductive TimelyRun (late work : Nat) :
    EventLoop Server Conn → LoopPhase → Nat → Nat → Nat → Prop where
  | start {fd : Addr → Nat} {io : Addr → Conn} {lastActiveMs : Addr → Nat} {db : Server}
      {clock : Nat} (initial : db.Initial) (bound : clock < 2 ^ 63) :
      TimelyRun late work { fd := fd, io := io, lastActiveMs := lastActiveMs, db := db } .top clock
        (clock + work) 0
  /-- A negative timeout promises nothing. -/
  | poll {loop : EventLoop Server Conn} {clock limit full now woken : Nat} {timeout : Int}
      (before : TimelyRun late work loop .top clock limit full) {args : List PollFd}
      (prepared : pollArgs loop loop.fd2conn = some args) {results : List (Nat × Option Ready)}
      (polls : Polls args results) (later : clock ≤ now) (inTime : now ≤ limit)
      (fits : loop.TimeoutFits now) (timed : loop.nextTimerMs now = some timeout)
      (wakes : now ≤ woken) (bound : woken < 2 ^ 63)
      (returns : 0 ≤ timeout → (woken : Int) ≤ now + timeout + late) :
      TimelyRun late work loop (.polled results) woken (woken + work) full
  | pass {loop : EventLoop Server Conn} {clock limit full : Nat}
      {results : List (Nat × Option Ready)}
      (before : TimelyRun late work loop (.polled results) clock limit full) :
      TimelyRun late work loop (.serving results) clock limit full
  | accept {loop loop' : EventLoop Server Conn} {clock limit full now : Nat}
      {results : List (Nat × Option Ready)}
      (before : TimelyRun late work loop (.polled results) clock limit full) (later : clock ≤ now)
      (inTime : now ≤ limit) (bound : now < 2 ^ 63) {conn : Addr} (fresh : conn ∉ loop.live)
      {connfd : Nat} (unopened : ∀ other ∈ loop.live, loop.fd other ≠ connfd)
      (run : handleAccept loop conn connfd now = some loop') :
      TimelyRun late work loop' (.serving results) now limit full
  | quiet {loop : EventLoop Server Conn} {clock limit full fd : Nat}
      {results : List (Nat × Option Ready)}
      (before : TimelyRun late work loop (.serving ((fd, none) :: results)) clock limit full) :
      TimelyRun late work loop (.serving results) clock limit full
  | serve {loop loop' : EventLoop Server Conn} {clock limit full now now' fd : Nat} {ready : Ready}
      {results : List (Nat × Option Ready)}
      (before : TimelyRun late work loop (.serving ((fd, some ready) :: results)) clock limit full)
      (later : clock ≤ now) (inTime : now' ≤ limit) (bound : now' < 2 ^ 63) {envs left : List Env}
      (readings : (now :: (envs.map Env.now ++ [now'])).Pairwise (· ≤ ·))
      (read : ReadResult) (write write' : WriteResult)
      (run : serveReady execEach (loop.withDb (some loop.db, envs)) fd now ready read write write' =
        some (loop'.withDb (some loop'.db, left))) :
      TimelyRun late work loop' (.serving results) now' limit full
  | timers {loop loop' : EventLoop Server Conn} {clock limit full : Nat}
      (before : TimelyRun late work loop (.serving []) clock limit full) (env : Env)
      (later : clock ≤ env.now) (inTime : env.now ≤ limit)
      (run : loop.processTimers env = some loop') :
      TimelyRun late work loop' .top env.now limit
        (if (loop.db.contents.keys \ loop'.db.contents.keys).ncard < kMaxWorks then 0 else full + 1)
  | worker {loop : EventLoop Server Conn} {phase : LoopPhase} {clock limit full : Nat}
      (before : TimelyRun late work loop phase clock limit full) (ent : Addr) {db : Server}
      (run : runTask loop.db ent = some db) :
      TimelyRun late work (loop.withDb db) phase clock limit full

variable {late work : Nat} {loop loop' : EventLoop Server Conn} {phase : LoopPhase}
  {clock limit full : Nat}

/-- They are runs of `main`. -/
theorem TimelyRun.process (run : TimelyRun late work loop phase clock limit full) :
    ∃ clock' ≤ clock, ProcessRun loop phase clock' := by
  induction run with
  | start initial bound => exact ⟨_, le_rfl, .start initial bound⟩
  | poll before prepared polls later inTime fits timed wakes bound returns ih =>
      obtain ⟨clock', past, run⟩ := ih
      exact ⟨clock', past.trans (later.trans wakes), run.poll prepared polls⟩
  | pass before ih =>
      obtain ⟨clock', past, run⟩ := ih
      exact ⟨clock', past, run.pass⟩
  | accept before later inTime bound fresh unopened run ih =>
      obtain ⟨clock', past, run'⟩ := ih
      exact ⟨_, le_rfl, run'.accept (past.trans later) bound fresh unopened run⟩
  | quiet before ih =>
      obtain ⟨clock', past, run⟩ := ih
      exact ⟨clock', past, run.quiet⟩
  | serve before later inTime bound readings read write write' run ih =>
      obtain ⟨clock', past, run'⟩ := ih
      exact ⟨_, le_rfl, run'.serve (past.trans later) bound readings read write write' run⟩
  | timers before env later inTime run ih =>
      obtain ⟨clock', past, run'⟩ := ih
      exact ⟨_, le_rfl, run'.timers env (past.trans later) run⟩
  | worker before ent run ih =>
      obtain ⟨clock', past, run'⟩ := ih
      exact ⟨clock', past, run'.worker ent run⟩

end MiniRedis
