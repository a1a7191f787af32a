import MiniRedis.Server.Aborts
import MiniRedis.Server.Clients
import MiniRedis.Server.Output

/-!
# The whole server with its buffers

The event loop over connections with real buffers, and over calls of `write` which may meet a
connection that its peer has reset. As long as a round returns, it does what the loop over byte
queues does, and it is known when it does not.
-/

namespace MiniRedis

/-! ## Another look at the connections -/

section Map

variable {σ κ κ' : Type} {f : κ → κ'} {loop loop' : EventLoop σ κ}

/-- The same loop, where the fields of every connection are looked at through a map. -/
def EventLoop.mapIo (f : κ → κ') (loop : EventLoop σ κ) : EventLoop σ κ' where
  fd2conn := loop.fd2conn
  idleList := loop.idleList
  fd := loop.fd
  io conn := f (loop.io conn)
  lastActiveMs := loop.lastActiveMs
  live := loop.live
  db := loop.db

theorem connDestroy_mapIo (loop : EventLoop σ κ) (conn : Addr) :
    connDestroy (loop.mapIo f) conn = (connDestroy loop conn).map (EventLoop.mapIo f) := by
  simp only [connDestroy, EventLoop.mapIo]
  by_cases valid : conn ∈ loop.live ∧ loop.fd conn < loop.fd2conn.length
  · cases dlistDetach loop.idleList (some conn) <;> simp [valid, EventLoop.mapIo]
  · simp [valid]

theorem handleAcceptWith_mapIo (accepted : κ) (loop : EventLoop σ κ) (conn : Addr)
    (connfd nowMs : Nat) :
    handleAcceptWith (f accepted) (loop.mapIo f) conn connfd nowMs =
      (handleAcceptWith accepted loop conn connfd nowMs).map (EventLoop.mapIo f) := by
  have same : Function.update (fun other => f (loop.io other)) conn (f accepted) =
      fun other => f (Function.update loop.io conn accepted other) :=
    (Function.comp_update f loop.io conn accepted).symm
  simp only [handleAcceptWith, EventLoop.mapIo, same]
  cases dlistInsertBefore loop.idleList none (some conn) <;> rfl

theorem pollArgsWith_mapIo (wantRead wantWrite : κ' → Bool) (loop : EventLoop σ κ)
    (slots : List (Option Addr)) :
    pollArgsWith wantRead wantWrite (loop.mapIo f) slots =
      pollArgsWith (fun io => wantRead (f io)) (fun io => wantWrite (f io)) loop slots := by
  induction slots with
  | nil => rfl
  | cons slot rest ih =>
      cases slot with
      | none => exact ih
      | some conn =>
          rw [pollArgsWith, pollArgsWith, ih]
          rfl

/-- The loop over the ready connections, if the handlers agree on the connection which is ready. -/
theorem serveReadyWith_mapIo {handle : κ → σ → Option (Option κ × σ × Bytes)}
    {handle' : κ' → σ → Option (Option κ' × σ × Bytes)} {fd nowMs : Nat} {conn : Addr}
    (slot : loop.fd2conn[fd]? = some (some conn))
    (agree : handle' (f (loop.io conn)) loop.db =
      (handle (loop.io conn) loop.db).map fun result => (result.1.map f, result.2)) :
    serveReadyWith handle' (loop.mapIo f) fd nowMs =
      (serveReadyWith handle loop fd nowMs).map (EventLoop.mapIo f) := by
  have slot' : (loop.mapIo f).fd2conn[fd]? = some (some conn) := slot
  rw [serveReadyWith, serveReadyWith, slot, slot']
  simp only [Option.bind_eq_bind, Option.bind_some]
  by_cases live : conn ∈ loop.live
  · have live' : conn ∈ (loop.mapIo f).live := live
    simp only [live, live', guard_true, Option.pure_def, Option.bind_some]
    change (dlistDetach loop.idleList (some conn)).bind _ = Option.map _ _
    cases dlistDetach loop.idleList (some conn) with
    | none => rfl
    | some detached =>
        simp only [Option.bind_some]
        cases dlistInsertBefore detached none (some conn) with
        | none => rfl
        | some idleList =>
            simp only [Option.bind_some]
            change (handle' (f (loop.io conn)) loop.db).bind _ = _
            rw [agree]
            cases handle (loop.io conn) loop.db with
            | none => rfl
            | some result =>
                obtain ⟨io, db, written⟩ := result
                cases io with
                | none =>
                    simp only [Option.map_some, Option.map_none, Option.bind_some]
                    exact connDestroy_mapIo { loop with
                      idleList := idleList
                      lastActiveMs := Function.update loop.lastActiveMs conn nowMs
                      db := db } conn
                | some io =>
                    have same : Function.update (fun other => f (loop.io other)) conn (f io) =
                        fun other => f (Function.update loop.io conn io other) :=
                      (Function.comp_update f loop.io conn io).symm
                    simp only [Option.map_some, Option.bind_some, EventLoop.mapIo, same]
  · have live' : conn ∉ (loop.mapIo f).live := live
    simp [live, live']

theorem closeIdle_mapIo (loop : EventLoop σ κ) (nowMs : Nat) :
    (loop.mapIo f).closeIdle nowMs = (loop.closeIdle nowMs).map (EventLoop.mapIo f) := by
  have forward : ∀ loop r : EventLoop σ κ, loop.closeIdle nowMs = some r →
      (loop.mapIo f).closeIdle nowMs = some (r.mapIo f) := by
    refine EventLoop.closeIdle.partial_correctness nowMs _ fun closeIdle ih loop r run => ?_
    by_cases empty : dlistEmpty loop.idleList none = true
    · rw [if_pos empty] at run
      cases run
      rw [EventLoop.closeIdle]
      exact if_pos empty
    · simp only [if_neg empty, Option.bind_eq_bind, Option.bind_eq_some_iff] at run
      obtain ⟨_, front, conn, rfl, _, live, run⟩ := run
      have member : conn ∈ loop.live := by simpa [guard] using live
      rw [@closeIdle_of_front _ _ (loop.mapIo f) _ conn empty front member]
      split at run
      · next early =>
          cases run
          exact if_pos early
      · next late =>
          obtain ⟨closed, destroyed, run⟩ := Option.bind_eq_some_iff.mp run
          refine (if_neg late).trans (Option.bind_eq_some_iff.mpr ⟨closed.mapIo f, ?_, ih _ _ run⟩)
          rw [connDestroy_mapIo, destroyed, Option.map_some]
  have backward : ∀ loop' r' : EventLoop σ κ', loop'.closeIdle nowMs = some r' →
      ∀ loop : EventLoop σ κ, loop.mapIo f = loop' → ∃ r, loop.closeIdle nowMs = some r := by
    refine EventLoop.closeIdle.partial_correctness nowMs _ fun closeIdle ih loop' r' run loop same => ?_
    subst same
    by_cases empty : dlistEmpty loop.idleList none = true
    · exact ⟨loop, by rw [EventLoop.closeIdle, if_pos empty]⟩
    · have run := (if_neg empty).symm.trans run
      simp only [Option.bind_eq_bind, Option.bind_eq_some_iff] at run
      obtain ⟨_, front, conn, rfl, _, live, run⟩ := run
      have member : conn ∈ (loop.mapIo f).live := by simpa [guard] using live
      rw [closeIdle_of_front empty front member]
      split at run
      · next early => exact ⟨loop, if_pos early⟩
      · next late =>
          obtain ⟨_, destroyed, run⟩ := Option.bind_eq_some_iff.mp run
          rw [connDestroy_mapIo] at destroyed
          obtain ⟨closed, closes, rfl⟩ := Option.map_eq_some_iff.mp destroyed
          obtain ⟨r, goes⟩ := ih _ _ run closed rfl
          exact ⟨r, (if_neg late).trans (by rw [closes, Option.bind_some, goes])⟩
  cases run : loop.closeIdle nowMs with
  | some r => exact forward loop r run
  | none =>
      cases run' : (loop.mapIo f).closeIdle nowMs with
      | none => rfl
      | some r' =>
          obtain ⟨r, goes⟩ := backward _ r' run' loop rfl
          rw [run] at goes
          cases goes

theorem processTimers_mapIo {loop : EventLoop Server κ} (env : Env) :
    (loop.mapIo f).processTimers env = (loop.processTimers env).map (EventLoop.mapIo f) := by
  rw [EventLoop.processTimers, EventLoop.processTimers, closeIdle_mapIo]
  cases loop.closeIdle env.now with
  | none => rfl
  | some closed =>
      simp only [Option.map_some, Option.bind_eq_bind, Option.bind_some]
      change (processTimers env closed.db).bind _ = Option.map _ _
      cases processTimers env closed.db <;> rfl

end Map

namespace Buffers

/-! ## Definitions -/

/-- What becomes of a call of `write`: it returns, or the peer has reset the connection and the
process is ended by `SIGPIPE`, which nothing handles or blocks. -/
inductive WriteCall where
  | returns (result : WriteResult)
  | brokenPipe

def handleWriteCall (conn : Conn) : WriteCall → Option (Conn × Bytes)
  | .returns result => handleWrite conn result
  | .brokenPipe => none

/-- The body of the event loop for one ready connection. -/
def handleReadyCall {σ : Type} (exec : Executor σ) (conn : Conn) (db : σ) (ready : Ready)
    (read : ReadResult) (write write' : WriteCall) : Option (Option Conn × σ × Bytes) :=
  handleReadyWith exec conn db ready read (handleWriteCall · write) (handleWriteCall · write')

section Loop

variable {σ : Type}

def handleAccept : EventLoop σ Conn → Addr → Nat → Nat → Option (EventLoop σ Conn) :=
  handleAcceptWith .accepted

def pollArgs : EventLoop σ Conn → List (Option Addr) → Option (List PollFd) :=
  pollArgsWith Conn.wantRead Conn.wantWrite

def serveReady (exec : Executor σ) (loop : EventLoop σ Conn) (fd nowMs : Nat) (ready : Ready)
    (read : ReadResult) (write write' : WriteCall) : Option (EventLoop σ Conn) :=
  serveReadyWith (fun io db => handleReadyCall exec io db ready read write write') loop fd nowMs

end Loop

/-- The runs of `main` with their traffic, as far as the process is not ended: no handler writes
outside a block, no assertion fails and no `write` meets a connection that has been reset. -/
inductive TrafficRun : EventLoop Server Conn → LoopPhase → Nat → Traffic → Prop where
  | start {fd : Addr → Nat} {io : Addr → Conn} {lastActiveMs : Addr → Nat} {db : Server}
      {clock : Nat} (initial : db.Initial) (bound : clock < 2 ^ 63) :
      TrafficRun { fd := fd, io := io, lastActiveMs := lastActiveMs, db := db } .top clock {}
  | poll {loop : EventLoop Server Conn} {clock : Nat} {traffic : Traffic}
      (before : TrafficRun loop .top clock traffic) {args : List PollFd}
      (prepared : pollArgs loop loop.fd2conn = some args) {results : List (Nat × Option Ready)}
      (polls : Polls args results) : TrafficRun loop (.polled results) clock traffic
  | pass {loop : EventLoop Server Conn} {clock : Nat} {traffic : Traffic}
      {results : List (Nat × Option Ready)}
      (before : TrafficRun loop (.polled results) clock traffic) :
      TrafficRun loop (.serving results) clock traffic
  | accept {loop loop' : EventLoop Server Conn} {clock now : Nat} {traffic : Traffic}
      {results : List (Nat × Option Ready)}
      (before : TrafficRun loop (.polled results) clock traffic) (later : clock ≤ now)
      (bound : now < 2 ^ 63) {conn : Addr} (fresh : conn ∉ loop.live) {connfd : Nat}
      (unopened : ∀ other ∈ loop.live, loop.fd other ≠ connfd)
      (run : handleAccept loop conn connfd now = some loop') :
      TrafficRun loop' (.serving results) now (traffic.accept conn)
  | quiet {loop : EventLoop Server Conn} {clock fd : Nat} {traffic : Traffic}
      {results : List (Nat × Option Ready)}
      (before : TrafficRun loop (.serving ((fd, none) :: results)) clock traffic) :
      TrafficRun loop (.serving results) clock traffic
  | serve {loop loop' : EventLoop Server Conn} {clock now now' fd : Nat} {ready : Ready}
      {traffic : Traffic} {results : List (Nat × Option Ready)}
      (before : TrafficRun loop (.serving ((fd, some ready) :: results)) clock traffic)
      (later : clock ≤ now) (bound : now' < 2 ^ 63) {envs left : List Env}
      (readings : (now :: (envs.map Env.now ++ [now'])).Pairwise (· ≤ ·))
      (read : ReadResult) (write write' : WriteCall)
      (run : serveReady execEach (loop.withDb (some loop.db, envs)) fd now ready read write write' =
        some (loop'.withDb (some loop'.db, left))) {conn : Addr}
      (slot : loop.fd2conn[fd]? = some (some conn)) {io : Option Conn} {written : Bytes}
      {db : Option Server × List Env} {events : List ServerEvent}
      (handled : handleReadyCall (execRecorded (traffic.client conn)) (loop.io conn)
        ((some loop.db, envs), []) ready read write write' = some (io, (db, events), written)) :
      TrafficRun loop' (.serving results) now' (traffic.serve (traffic.client conn)
        (if ready.pollIn then read.data else []) written events)
  | timers {loop loop' : EventLoop Server Conn} {clock : Nat} {traffic : Traffic}
      (before : TrafficRun loop (.serving []) clock traffic) (env : Env) (later : clock ≤ env.now)
      (run : loop.processTimers env = some loop') :
      TrafficRun loop' .top env.now (traffic.expire env)
  | worker {loop : EventLoop Server Conn} {phase : LoopPhase} {clock : Nat} {traffic : Traffic}
      (before : TrafficRun loop phase clock traffic) (ent : Addr) {db : Server}
      (run : runTask loop.db ent = some db) : TrafficRun (loop.withDb db) phase clock traffic

/-- The queues which the buffers hold. -/
def Conn.queues (conn : Conn) : MiniRedis.Conn where
  wantRead := conn.wantRead
  wantWrite := conn.wantWrite
  wantClose := conn.wantClose
  incoming := conn.incoming.data
  outgoing := conn.outgoing.data

theorem Conn.Matches.eq_queues {conn : Conn} {queues : MiniRedis.Conn}
    (matched : conn.Matches queues) : queues = conn.queues := by
  obtain ⟨wantRead, wantWrite, wantClose, incoming, outgoing⟩ := queues
  rw [Conn.queues, MiniRedis.Conn.mk.injEq]
  exact ⟨matched.wantRead.symm, matched.wantWrite.symm, matched.wantClose.symm,
    matched.incoming.data.symm, matched.outgoing.data.symm⟩

/-! ## Rounds which return -/

section Handlers

variable {σ : Type} {exec : Executor σ} {values : MiniRedis.Executor σ} {conn : Conn} {db : σ}
  {ready : Ready} {read : ReadResult} {write write' : WriteCall}

/-- A result of the call, where it returns. -/
def WriteCall.result : WriteCall → WriteResult
  | .returns result => result
  | .brokenPipe => .again

theorem handleWriteCall_result {call : WriteCall} {result : Conn × Bytes}
    (run : handleWriteCall conn call = some result) :
    handleWrite conn call.result = some result := by
  cases call with
  | returns _ => exact run
  | brokenPipe => cases run

/-- Reading fails whatever `write` does, or does not call it, or calls it at the end. -/
theorem handleReadWith_shape (exec : Executor σ) (conn : Conn) (db : σ) (read : ReadResult) :
    (∀ write, handleReadWith exec conn db read write = none) ∨
    (∃ conn' db', (conn.outgoing.size = 0 → conn'.outgoing.size = 0) ∧
      ∀ write, handleReadWith exec conn db read write = some (conn', db', [])) ∨
    ∃ conn' db', 0 < conn'.outgoing.size ∧ ∀ write, handleReadWith exec conn db read write =
      (write conn').map fun result => (result.1, db', result.2) := by
  cases read with
  | again => exact .inr (.inl ⟨conn, db, id, fun _ => rfl⟩)
  | error => exact .inr (.inl ⟨{ conn with wantClose := true }, db, id, fun _ => rfl⟩)
  | eof => exact .inr (.inl ⟨{ conn with wantClose := true }, db, id, fun _ => rfl⟩)
  | bytes data =>
      cases appended : bufAppend conn.incoming data with
      | none => exact .inl fun write => by simp [handleReadWith, appended]
      | some incoming =>
          cases loop : Conn.requestLoop { conn with incoming := incoming } exec db with
          | none => exact .inl fun write => by simp [handleReadWith, appended, loop]
          | some result =>
              obtain ⟨conn', db'⟩ := result
              by_cases pending : conn'.outgoing.size > 0
              · refine .inr (.inr ⟨{ conn' with
                  wantRead := false
                  wantWrite := true }, db', pending,
                  fun write => ?_⟩)
                simp only [handleReadWith, appended, loop, pending, if_true, Option.bind_eq_bind,
                  Option.bind_some]
                cases write { conn' with wantRead := false, wantWrite := true } <;> rfl
              · refine .inr (.inl ⟨conn', db', fun _ => by omega, fun write => ?_⟩)
                simp [handleReadWith, appended, loop, pending]

theorem handleReadWith_mono {write write' : Conn → Option (Conn × Bytes)}
    (same : ∀ conn result, write conn = some result → write' conn = some result)
    {result : Conn × σ × Bytes} (run : handleReadWith exec conn db read write = some result) :
    handleReadWith exec conn db read write' = some result := by
  obtain fails | ⟨conn', db', -, returns⟩ | ⟨conn', db', -, calls⟩ :=
    handleReadWith_shape exec conn db read
  · rw [fails] at run
    cases run
  · rw [returns] at run ⊢
    exact run
  · rw [calls] at run ⊢
    obtain ⟨written, wrote, rfl⟩ := Option.map_eq_some_iff.mp run
    rw [same _ _ wrote, Option.map_some]

/-- A round which returns has met no broken pipe. -/
theorem handleReadyCall_result {result : Option Conn × σ × Bytes}
    (run : handleReadyCall exec conn db ready read write write' = some result) :
    handleReady exec conn db ready read write.result write'.result = some result := by
  rw [handleReadyCall, handleReadyWith] at run
  rw [handleReady, handleReadyWith]
  obtain ⟨pollIn, pollOut, pollErr⟩ := ready
  cases pollIn with
  | false =>
      cases pollOut with
      | false => exact run
      | true =>
          obtain ⟨_, wanted, run⟩ := Option.bind_eq_some_iff.mp run
          obtain ⟨last, wrote, run⟩ := Option.bind_eq_some_iff.mp run
          exact Option.bind_eq_some_iff.mpr ⟨(), wanted,
            Option.bind_eq_some_iff.mpr ⟨last, handleWriteCall_result wrote, run⟩⟩
  | true =>
      obtain ⟨_, wanted, run⟩ := Option.bind_eq_some_iff.mp run
      obtain ⟨middle, first, run⟩ := Option.bind_eq_some_iff.mp run
      refine Option.bind_eq_some_iff.mpr ⟨(), wanted, Option.bind_eq_some_iff.mpr ⟨middle,
        handleReadWith_mono (fun _ _ => handleWriteCall_result) first, ?_⟩⟩
      cases pollOut with
      | false => exact run
      | true =>
          obtain ⟨_, wanted, run⟩ := Option.bind_eq_some_iff.mp run
          obtain ⟨last, wrote, run⟩ := Option.bind_eq_some_iff.mp run
          exact Option.bind_eq_some_iff.mpr ⟨(), wanted,
            Option.bind_eq_some_iff.mpr ⟨last, handleWriteCall_result wrote, run⟩⟩

/-- The round does the same to the queues. -/
theorem handleReadyCall_queues (appends : exec.Appends values) (matched : conn.Matches conn.queues)
    (steady : conn.queues.Steady) (polled : ready.Polled conn.queues) {io : Option Conn} {db' : σ}
    {written : Bytes}
    (run : handleReadyCall exec conn db ready read write write' = some (io, db', written)) :
    MiniRedis.handleReady values conn.queues db ready read write.result write'.result =
        some (io.map Conn.queues, db', written) ∧
      ∀ kept, io = some kept → kept.Matches kept.queues := by
  obtain ⟨fails, -⟩ | ⟨-, io', queues, db₁, written', run', run'', both⟩ :=
    handleReady_matches appends matched steady db polled read write.result write'.result
  · rw [handleReadyCall_result run] at fails
    cases fails
  · rw [handleReadyCall_result run] at run'
    cases run'
    cases both with
    | none => exact ⟨run'', nofun⟩
    | some kept =>
        obtain rfl := kept.eq_queues
        refine ⟨run'', ?_⟩
        rintro _ ⟨⟩
        exact kept

theorem handleWrite_again (pending : 0 < conn.outgoing.size) :
    handleWrite conn .again = some (conn, []) := by
  simp [handleWrite, pending]

/-- Bytes which have been read lead to a call of `write` exactly if they complete a command. -/
theorem handleReadWith_calls (appends : exec.Appends values) (matched : conn.Matches conn.queues)
    (steady : conn.queues.Steady) (reads : conn.wantRead = true)
    (spacious : ¬∃ data, read = .bytes data ∧ conn.incoming.Crowded data.length) :
    ∃ cmds rest, Framed (conn.incoming.data ++ read.data) cmds rest ∧
      (cmds = [] ∧ (∃ result, ∀ write, handleReadWith exec conn db read write = some result) ∨
        cmds ≠ [] ∧ ∃ conn' db', ∀ write, handleReadWith exec conn db read write =
          (write conn').map fun result => (result.1, db', result.2)) := by
  have quiet := steady.alternates.reading.mp reads
  obtain ⟨-, data, rfl, crowded⟩ | ⟨conn', queues', db', written, run, run', matched', -⟩ :=
    handleRead_matches appends matched quiet db read .again
  · exact absurd ⟨data, rfl, crowded⟩ spacious
  obtain ⟨_, _, _, cmds, run'', serves, -⟩ := @handleRead_spec _ values _ db steady.waiting
    steady.alternates steady.opened reads read .again
  rw [run'] at run''
  cases run''
  refine ⟨cmds, _, serves.framed, ?_⟩
  have answered := serves.answered
  rw [quiet, List.nil_append] at answered
  rw [handleRead] at run
  obtain fails | ⟨last, db₁, silent, returns⟩ | ⟨last, db₁, pending, calls⟩ :=
    handleReadWith_shape exec conn db read
  · rw [fails] at run
    cases run
  · -- what is still unsent would have been written
    refine .inl ⟨?_, _, returns⟩
    rw [returns] at run
    cases run
    have empty := silent (matched.outgoing.size.trans (by rw [quiet]; rfl))
    rw [matched'.outgoing.size, List.length_eq_zero_iff] at empty
    rw [empty] at answered
    cases cmds with
    | nil => rfl
    | cons cmd cmds =>
        have length := congrArg List.length answered
        simp only [runRequests, frame, List.length_append, LittleEndian.length_encode,
          List.length_nil] at length
        omega
  · refine .inr ⟨?_, last, db₁, calls⟩
    rw [calls, handleWrite_again pending] at run
    cases run
    rintro rfl
    rw [matched'.outgoing.size] at pending
    simp only [List.nil_append, runRequests] at answered
    rw [answered] at pending
    exact absurd pending (lt_irrefl 0)

/-- A round returns unless it reads into a crowded buffer or writes to a connection which the peer
has reset. -/
theorem handleReadyCall_iff (appends : exec.Appends values) (matched : conn.Matches conn.queues)
    (steady : conn.queues.Steady) (polled : ready.Polled conn.queues) {cmds : List (List Bytes)}
    {rest : Bytes}
    (framed : Framed (conn.incoming.data ++ if ready.pollIn then read.data else []) cmds rest) :
    (∃ result, handleReadyCall exec conn db ready read write write' = some result) ↔
      ¬conn.Overrun ready read ∧ ¬(ready.pollIn = true ∧ cmds ≠ [] ∧ write = .brokenPipe) ∧
        ¬(ready.pollOut = true ∧ write' = .brokenPipe) := by
  obtain ⟨pollIn, pollOut, pollErr⟩ := ready
  obtain ⟨reading, writing⟩ := polled
  -- the decision whether to close the connection does not fail
  have ends : ∀ (last : Conn) (db' : σ) (out : Bytes), ∃ result,
      (if pollErr = true ∨ last.wantClose = true then some (none, db', out)
        else some (some last, db', out)) = some result := by
    intro last db' out
    split <;> exact ⟨_, rfl⟩
  cases pollIn with
  | true =>
      have reads : conn.wantRead = true := reading rfl
      have quiet := steady.alternates.reading.mp reads
      obtain rfl : pollOut = false := by
        by_contra both
        exact steady.alternates.writing.mp (writing (by simpa using both)) quiet
      have only : (∃ result, handleReadyCall exec conn db ⟨true, false, pollErr⟩ read write write' =
          some result) ↔ ∃ result, handleReadWith exec conn db read (handleWriteCall · write) =
            some result := by
        rw [handleReadyCall, handleReadyWith]
        simp only [if_true, reads, guard_true, Option.pure_def, Option.bind_eq_bind,
          Option.bind_some]
        cases handleReadWith exec conn db read (handleWriteCall · write) with
        | none => simp
        | some result => exact iff_of_true (ends _ _ _) ⟨_, rfl⟩
      rw [only]
      by_cases crowded : ∃ data, read = .bytes data ∧ conn.incoming.Crowded data.length
      · refine iff_of_false ?_ fun within => within.1 ⟨rfl, crowded⟩
        rintro ⟨result, run⟩
        have run := handleReadWith_mono (fun _ _ => handleWriteCall_result) run
        obtain ⟨fails, -⟩ | ⟨_, _, _, _, -, -, -, spacious⟩ :=
          handleRead_matches appends matched quiet db read write.result
        · rw [handleRead, run] at fails
          cases fails
        · exact spacious crowded
      obtain ⟨_, _, framed', ⟨rfl, result, returns⟩ | ⟨executed, conn', db', calls⟩⟩ :=
        @handleReadWith_calls _ _ _ _ db read appends matched steady reads crowded
      · obtain ⟨rfl, -⟩ := framed.unique framed'
        exact iff_of_true ⟨result, returns _⟩ ⟨fun overrun => crowded overrun.2, by simp, by simp⟩
      · obtain ⟨rfl, -⟩ := framed.unique framed'
        cases write with
        | brokenPipe =>
            refine iff_of_false ?_ fun unbroken => unbroken.2.1 ⟨rfl, executed, rfl⟩
            rintro ⟨result, run⟩
            rw [calls] at run
            cases run
        | returns write =>
            obtain ⟨-, crowded'⟩ | ⟨_, _, _, _, run, -⟩ :=
              handleRead_matches appends matched quiet db read write
            · exact absurd crowded' crowded
            · exact iff_of_true ⟨_, run⟩ ⟨fun overrun => crowded overrun.2, by simp, by simp⟩
  | false =>
      have within : ¬conn.Overrun ⟨false, pollOut, pollErr⟩ read := fun overrun =>
        Bool.false_ne_true overrun.1
      rw [handleReadyCall, handleReadyWith]
      simp only [within]
      cases pollOut with
      | false =>
          simp only [Bool.false_eq_true, if_false, Option.bind_eq_bind, Option.bind_some]
          exact iff_of_true (ends _ _ _) (by simp)
      | true =>
          have writes : conn.wantWrite = true := writing rfl
          simp only [Bool.false_eq_true, if_false, if_true, writes, guard_true, Option.pure_def,
            Option.bind_eq_bind, Option.bind_some]
          cases write' with
          | brokenPipe => simp [handleWriteCall]
          | returns write' =>
              obtain ⟨last, _, out, wrote, -⟩ := handleWrite_matches matched
                (steady.alternates.writing.mp (writing rfl)) write'
              refine iff_of_true ?_ (by simp)
              rw [handleWriteCall, wrote]
              exact ends _ _ _

end Handlers

/-! ## Runs of the queues -/

variable {loop loop' : EventLoop Server Conn} {phase : LoopPhase} {clock : Nat} {traffic : Traffic}

/-- The buffers of every open connection hold their queues. -/
def Sized (loop : EventLoop Server Conn) : Prop :=
  ∀ conn ∈ loop.live, (loop.io conn).Matches (loop.io conn).queues

section Rounds

variable {σ : Type} {loop loop' : EventLoop σ Conn} {exec : Executor σ}
  {values : MiniRedis.Executor σ} {fd now : Nat} {ready : Ready} {read : ReadResult}
  {write write' : WriteCall} {conn : Addr}

/-- Where the handlers return, the loop over buffers goes on as the loop over queues. -/
theorem serveReady_mapIo (appends : exec.Appends values)
    (slot : loop.fd2conn[fd]? = some (some conn))
    (matched : (loop.io conn).Matches (loop.io conn).queues)
    (steady : (loop.io conn).queues.Steady) (polled : ready.Polled (loop.io conn).queues)
    {result : Option Conn × σ × Bytes}
    (handled : handleReadyCall exec (loop.io conn) loop.db ready read write write' = some result) :
    MiniRedis.serveReady values (loop.mapIo Conn.queues) fd now ready read write.result write'.result =
      (serveReady exec loop fd now ready read write write').map (EventLoop.mapIo Conn.queues) := by
  obtain ⟨io, db, written⟩ := result
  obtain ⟨handled', -⟩ := handleReadyCall_queues appends matched steady polled handled
  refine serveReadyWith_mapIo slot ?_
  rw [handled', handled, Option.map_some]

/-- A round over the buffers is a round over the queues, for every executor. -/
theorem serveReady_queues (appends : exec.Appends values)
    (slot : loop.fd2conn[fd]? = some (some conn))
    (matched : (loop.io conn).Matches (loop.io conn).queues)
    (steady : (loop.io conn).queues.Steady) (polled : ready.Polled (loop.io conn).queues)
    (run : serveReady exec loop fd now ready read write write' = some loop') :
    MiniRedis.serveReady values (loop.mapIo Conn.queues) fd now ready read write.result write'.result =
        some (loop'.mapIo Conn.queues) ∧
      (conn ∈ loop'.live → (loop'.io conn).Matches (loop'.io conn).queues) := by
  obtain ⟨io, written, handled, -, -, -, -, -, stays⟩ := serveReadyWith_effect run slot
  obtain ⟨-, holds⟩ := handleReadyCall_queues appends matched steady polled handled
  refine ⟨?_, fun kept => holds _ (stays kept)⟩
  rw [serveReady_mapIo appends slot matched steady polled handled, run, Option.map_some]

end Rounds

/-- Every run over buffers is a run over the queues which they hold. -/
theorem TrafficRun.queues (run : TrafficRun loop phase clock traffic) :
    MiniRedis.TrafficRun (loop.mapIo Conn.queues) phase clock traffic ∧ Sized loop := by
  induction run with
  | start initial bound => exact ⟨.start initial bound, fun conn live => by simp at live⟩
  | poll before prepared polls ih =>
      refine ⟨ih.1.poll ?_ polls, ih.2⟩
      rw [MiniRedis.pollArgs, pollArgsWith_mapIo]
      exact prepared
  | pass before ih => exact ⟨ih.1.pass, ih.2⟩
  | @accept loop loop' clock now traffic results before later bound conn fresh connfd unopened run ih =>
      have accepts := @handleAcceptWith_mapIo _ _ _ Conn.queues .accepted loop conn connfd now
      rw [show handleAcceptWith .accepted loop conn connfd now = some loop' from run] at accepts
      refine ⟨ih.1.accept later bound fresh unopened accepts, fun other live => ?_⟩
      obtain ⟨idleList, -, run⟩ := Option.bind_eq_some_iff.mp run
      cases run
      by_cases newest : other = conn
      · rw [newest]
        simp only [Function.update_self]
        exact Conn.accepted_matches
      · simp only [Function.update_of_ne newest]
        exact ih.2 other (Finset.mem_of_mem_insert_of_ne live newest)
  | quiet before ih => exact ⟨ih.1.quiet, ih.2⟩
  | @serve loop loop' clock now now' fd ready traffic results before later bound envs left readings
      read write write' run conn slot io written db events handled ih =>
      obtain ⟨queues, sized⟩ := ih
      obtain ⟨-, ⟨idle, invariant, awaits⟩, -⟩ := queues.process.sound
      obtain ⟨other, live, rfl, polled⟩ := awaits.requested _ List.mem_cons_self
      obtain rfl : other = conn := by
        have slot' := (invariant.mapped _ other).mpr ⟨live, rfl⟩
        rw [show (loop.mapIo Conn.queues).fd2conn = loop.fd2conn from rfl] at slot'
        exact Option.some.inj (Option.some.inj (slot'.symm.trans slot))
      have steady := invariant.steady other live
      have matched := sized other live
      obtain ⟨run', kept⟩ := @serveReady_queues _ (loop.withDb (some loop.db, envs)) _ _ _ _
        _ _ _ _ _ _ execEach_appends slot matched steady (polled _ rfl) run
      obtain ⟨handled', -⟩ := handleReadyCall_queues (execRecorded_appends (traffic.client other))
        matched steady (polled _ rfl) handled
      have run'' : MiniRedis.serveReady MiniRedis.execEach
          ((loop.mapIo Conn.queues).withDb (some loop.db, envs)) (loop.fd other) now ready read
          write.result write'.result =
          some ((loop'.mapIo Conn.queues).withDb (some loop'.db, left)) := run'
      refine ⟨queues.serve later bound readings read write.result write'.result run'' slot handled',
        fun third live' => ?_⟩
      obtain ⟨_, _, -, -, fewer, -, others, -⟩ := serveReadyWith_effect run slot
      by_cases served : third = other
      · rw [served] at live' ⊢
        exact kept live'
      · have same : loop'.io third = loop.io third := others third served
        rw [same]
        exact sized third (fewer live')
  | @timers loop loop' clock traffic before env later run ih =>
      refine ⟨ih.1.timers env later ?_, fun conn live => ?_⟩
      · rw [processTimers_mapIo, run, Option.map_some]
      · obtain ⟨closed, closes, run⟩ := Option.bind_eq_some_iff.mp run
        obtain ⟨db, -, run⟩ := Option.bind_eq_some_iff.mp run
        cases run
        obtain ⟨io, fewer⟩ := closeIdle_effect closes
        rw [show (EventLoop.mk .. : EventLoop Server Conn).io = loop.io from io]
        exact ih.2 conn (fewer live)
  | worker before ent run ih => exact ⟨ih.1.worker ent run, ih.2⟩

/-- The connection for which `poll` has reported something, as its buffers and its queues are. -/
theorem TrafficRun.polled {fd : Nat} {ready : Ready} {results : List (Nat × Option Ready)}
    (run : TrafficRun loop (.serving ((fd, some ready) :: results)) clock traffic) :
    ∃ conn ∈ loop.live, loop.fd conn = fd ∧ loop.fd2conn[fd]? = some (some conn) ∧
      (loop.io conn).Matches (loop.io conn).queues ∧ (loop.io conn).queues.Steady ∧
      ready.Polled (loop.io conn).queues := by
  obtain ⟨queues, sized⟩ := run.queues
  obtain ⟨-, ⟨idle, invariant, awaits⟩, -⟩ := queues.process.sound
  obtain ⟨conn, live, rfl, polled⟩ := awaits.requested _ List.mem_cons_self
  exact ⟨conn, live, rfl, (invariant.mapped _ conn).mpr ⟨live, rfl⟩, sized conn live,
    invariant.steady conn live, polled _ rfl⟩

/-! ## What ends a round -/

/-- What a round does not survive: bytes written outside a block, a failed assertion, or a `write`
to a connection which the peer has reset. -/
inductive Fatal (conn : Conn) (ready : Ready) (read : ReadResult) (write write' : WriteCall)
    (cmds : List (List Bytes)) : Prop where
  | overrun (crowded : conn.Overrun ready read)
  | assertion {cmd : List Bytes} (member : cmd ∈ cmds) (negative : NegativeTtl cmd)
  | answering (polled : ready.pollIn = true) (executed : cmds ≠ []) (broken : write = .brokenPipe)
  | writing (polled : ready.pollOut = true) (broken : write' = .brokenPipe)

/-- A round of the connection which `poll` has reported. -/
theorem TrafficRun.serves_iff {fd : Nat} {ready : Ready} {results : List (Nat × Option Ready)}
    (run : TrafficRun loop (.serving ((fd, some ready) :: results)) clock traffic) :
    ∃ conn ∈ loop.live, loop.fd conn = fd ∧
      ∀ now envs, (clock :: now :: envs.map Env.now).Pairwise (· ≤ ·) → ∀ read write write',
        ∃ cmds rest, Framed ((loop.io conn).incoming.data ++
            if ready.pollIn then read.data else []) cmds rest ∧
          (cmds.length ≤ envs.length →
            ((∃ loop' state left, serveReady execEach
              (loop.withDb (some loop.db, envs)) fd now ready
                read write write' = some loop' ∧ loop'.db = (some state, left)) ↔
              ¬Fatal (loop.io conn) ready read write write' cmds)) := by
  obtain ⟨queues, -⟩ := run.queues
  obtain ⟨-, -, -, -, -, serves⟩ := queues.process.aborts_iff
  obtain ⟨conn, live, rfl, slot, matched, steady, polled⟩ := run.polled
  refine ⟨conn, live, rfl, fun now envs readings read write write' => ?_⟩
  obtain ⟨queues', served, other, member, same, cmds, rest, framed, aborts⟩ :=
    serves _ _ _ rfl now envs readings read write.result write'.result
  obtain rfl : other = conn := by
    obtain ⟨-, ⟨idle, invariant, -⟩, -⟩ := queues.process.sound
    have slot' := (invariant.mapped _ other).mpr ⟨member, same⟩
    exact Option.some.inj (Option.some.inj (slot'.symm.trans slot))
  have returns := @handleReadyCall_iff _ _ _ _ (some loop.db, envs) _ read write write'
    execEach_appends matched steady polled _ _ framed
  refine ⟨cmds, rest, framed, fun enough => ⟨?_, fun survives => ?_⟩⟩
  · rintro ⟨loop', state, left, run, stored⟩ fatal
    obtain ⟨io, written, handled, -⟩ := serveReadyWith_effect run slot
    obtain ⟨within, answered, written⟩ := returns.mp ⟨_, handled⟩
    cases fatal with
    | overrun crowded => exact within crowded
    | assertion inside negative =>
        have aborted := (aborts enough).mpr ⟨_, inside, negative⟩
        have follows := (serveReady_queues execEach_appends slot matched steady polled run).1
        obtain rfl := Option.some.inj (served.symm.trans follows)
        rw [show (loop'.mapIo Conn.queues).db = loop'.db from rfl, stored] at aborted
        cases aborted
    | answering polled executed broken => exact answered ⟨polled, executed, broken⟩
    | writing polled broken => exact written ⟨polled, broken⟩
  · obtain ⟨result, handled⟩ := returns.mpr ⟨fun crowded => survives (.overrun crowded),
      fun ⟨polled, executed, broken⟩ => survives (.answering polled executed broken),
      fun ⟨polled, broken⟩ => survives (.writing polled broken)⟩
    have follows := served
    rw [show (loop.mapIo Conn.queues).withDb (some (loop.mapIo Conn.queues).db, envs) =
        (loop.withDb (some loop.db, envs)).mapIo Conn.queues from rfl,
      @serveReady_mapIo _ (loop.withDb (some loop.db, envs)) _ _ _ _ _ _ _ _ _ execEach_appends slot
        matched steady polled _ handled] at follows
    obtain ⟨loop', run, rfl⟩ := Option.map_eq_some_iff.mp follows
    have stored : loop'.db.1 ≠ none := fun aborted => by
      obtain ⟨cmd, inside, negative⟩ := (aborts enough).mp aborted
      exact survives (.assertion inside negative)
    obtain ⟨state, some⟩ := Option.ne_none_iff_exists'.mp stored
    exact ⟨loop', state, loop'.db.2, run, Prod.ext some rfl⟩

/-! ## A run with two clients -/

/-- The handlers of a round which returns may be recorded. -/
theorem TrafficRun.exists_serve {now now' fd : Nat} {ready : Ready}
    {results : List (Nat × Option Ready)}
    (before : TrafficRun loop (.serving ((fd, some ready) :: results)) clock traffic)
    (later : clock ≤ now) (bound : now' < 2 ^ 63) {envs left : List Env}
    (readings : (now :: (envs.map Env.now ++ [now'])).Pairwise (· ≤ ·))
    {read : ReadResult} {write write' : WriteCall}
    (run : serveReady execEach (loop.withDb (some loop.db, envs)) fd now ready read write write' =
      some (loop'.withDb (some loop'.db, left))) :
    ∃ conn ∈ loop.live, loop.fd conn = fd ∧ loop'.live ⊆ loop.live ∧ loop'.fd = loop.fd ∧
      (∀ other, other ≠ conn → loop'.io other = loop.io other) ∧ ∃ written events,
      TrafficRun loop' (.serving results) now' (traffic.serve (traffic.client conn)
        (if ready.pollIn then read.data else []) written events) := by
  obtain ⟨conn, live, rfl, slot, matched, steady, polled⟩ := before.polled
  obtain ⟨io, written, handled, -, fewer, files, others, -⟩ := serveReadyWith_effect run slot
  obtain ⟨_, _, _, cmds, _, rest, -, serves, -⟩ := handleReady_spec MiniRedis.execEach
    (some loop.db, envs) steady polled read write.result write'.result
  -- whether a round returns does not depend on the executor
  have returns := (@handleReadyCall_iff _ _ _ _ (some loop.db, envs) _ read write write'
    execEach_appends matched steady polled _ _ serves.framed).mp ⟨_, handled⟩
  obtain ⟨⟨io', ⟨db, events⟩, written'⟩, recorded⟩ :=
    (@handleReadyCall_iff _ _ _ _ ((some loop.db, envs), []) _ read write write'
      (execRecorded_appends (traffic.client conn)) matched steady polled _ _ serves.framed).mpr returns
  exact ⟨conn, live, rfl, fewer, files, others, written', events,
    before.serve later bound readings read write write' run slot recorded⟩

/-- A client whose connection is fresh sends some commands, and they are executed. -/
theorem TrafficRun.asks {fd : Nat} {results : List (Nat × Option Ready)}
    (run : TrafficRun loop (.serving ((fd, some ⟨true, false, false⟩) :: results)) clock traffic)
    (fresh : ∀ conn ∈ loop.live, loop.fd conn = fd → loop.io conn = .accepted)
    {cmds : List (List Bytes)} (valid : ∀ cmd ∈ cmds, ValidRequest cmd)
    (harmless : ∀ cmd ∈ cmds, ¬NegativeTtl cmd) {envs : List Env}
    (same : ∀ env ∈ envs, env.now = clock) (enough : cmds.length ≤ envs.length)
    (write : WriteResult) :
    ∃ conn ∈ loop.live, loop.fd conn = fd ∧ ∃ loop' written events,
      loop'.live ⊆ loop.live ∧ loop'.fd = loop.fd ∧
      (∀ other, other ≠ conn → loop'.io other = loop.io other) ∧
      TrafficRun loop' (.serving results) clock
        (traffic.serve (traffic.client conn) (cmds.flatMap requestFrame) written events) := by
  obtain ⟨bound, -⟩ := run.queues.1.process.sound
  have equal : ∀ reading ∈ clock :: clock :: (envs.map Env.now ++ [clock]), reading = clock := by
    intro reading inside
    simp only [List.mem_cons, List.mem_append, List.mem_map, List.not_mem_nil, or_false] at inside
    obtain rfl | rfl | ⟨env, inside, rfl⟩ | rfl := inside
    · rfl
    · rfl
    · exact same env inside
    · rfl
  have readings : (clock :: clock :: (envs.map Env.now ++ [clock])).Pairwise (· ≤ ·) := by
    apply List.pairwise_of_forall_mem_list
    intro first inside second inside'
    rw [equal first inside, equal second inside']
  have prior : (clock :: clock :: envs.map Env.now).Pairwise (· ≤ ·) :=
    readings.sublist (by simp)
  have stream : Framed ([] ++ cmds.flatMap requestFrame) cmds [] :=
    ⟨by simp, valid, .inl incomplete_nil⟩
  obtain ⟨conn, live, found, rounds⟩ := run.serves_iff
  obtain ⟨cmds', rest, framed, survives⟩ := rounds clock envs prior
    (.bytes (cmds.flatMap requestFrame)) (.returns write) (.returns .again)
  have accepted := fresh conn live found
  rw [accepted] at framed survives
  obtain ⟨rfl, rfl⟩ := framed.unique stream
  obtain ⟨served, state, left, serves, stored⟩ := (survives enough).mpr fun fatal => by
    cases fatal with
    | overrun crowded =>
        obtain ⟨-, data, -, crowded⟩ := crowded
        exact not_crowded_empty _ crowded
    | assertion member negative => exact harmless _ member negative
    | answering _ _ broken => cases broken
    | writing polled _ => cases polled
  have whole : (served.withDb state).withDb (some state, left) = served := by
    rw [← stored]
    rfl
  rw [← whole] at serves
  obtain ⟨other, live', found', fewer, files, others, written, events, run'⟩ :=
    run.exists_serve le_rfl bound (List.pairwise_cons.mp readings).2 serves
  exact ⟨other, live', found', served.withDb state, written, events, fewer, files, others, run'⟩

/-- Two clients have connected, and `poll` reports data for both of them. -/
theorem TrafficRun.connected : ∃ first loop : EventLoop Server Conn,
    AcceptsTwo .accepted {} Server.start 0 first loop ∧ TrafficRun loop
      (.serving [(4, some ⟨true, false, false⟩), (5, some ⟨true, false, false⟩)]) 0
      (((Traffic.expire (Traffic.accept {} 7) Env.counting).accept 8).expire Env.counting) := by
  obtain ⟨first, second, two⟩ := exists_acceptsTwo Conn.accepted ({} : Conn) Server.start 0
  have nothing : MiniRedis.processTimers Env.counting Server.start = some Server.start := by
    simp [MiniRedis.processTimers, kMaxWorks, expireFrom, Server.start]
  have started : TrafficRun (.initial {} Server.start) .top 0 {} :=
    .start Server.start_initial (by norm_num)
  have one := (started.poll rfl .nil).accept le_rfl (by norm_num) (by simp [EventLoop.initial])
    (by simp [EventLoop.initial]) two.one
  have pass : first.processTimers Env.counting = some first := by
    have kept : first.closeIdle Env.counting.now = some first := two.closeIdle_first
    rw [← two.dbOne] at nothing
    simp [EventLoop.processTimers, kept, nothing]
  have waiting := one.timers Env.counting le_rfl pass
  have args : pollArgs first first.fd2conn = some [⟨4, true, false⟩] := by
    simp [two.slotsOne, pollArgs, pollArgsWith, two.liveOne, two.ioOne, two.fdOne, Conn.accepted]
  have polls : Polls [⟨4, true, false⟩] [(4, none)] := .cons ⟨rfl, by simp⟩ .nil
  have both := ((waiting.poll args polls).accept le_rfl Env.counting.nowBound
      (by simp [two.liveOne])
    (by simp [two.liveOne, two.fdOne]) two.two).quiet
  have pass' : second.processTimers Env.counting = some second := by
    have kept : second.closeIdle Env.counting.now = some second := two.closeIdle_second (by decide)
    rw [← two.dbTwo] at nothing
    simp [EventLoop.processTimers, kept, nothing]
  have args' : pollArgs second second.fd2conn = some [⟨4, true, false⟩, ⟨5, true, false⟩] := by
    simp [two.slotsTwo, pollArgs, pollArgsWith, two.liveTwo, two.ioTwo, two.ioOne, two.fdTwo,
      two.fdOne, Conn.accepted]
  have polls' : Polls [⟨4, true, false⟩, ⟨5, true, false⟩]
      [(4, some ⟨true, false, false⟩), (5, some ⟨true, false, false⟩)] :=
    .cons ⟨rfl, by simp⟩ (.cons ⟨rfl, by simp⟩ .nil)
  exact ⟨first, second, two, ((both.timers Env.counting le_rfl pass').poll args' polls').pass⟩

/-! ## What every client sees -/

/-- One history of commands and timer passes, each command answered by the map in front of
it, explains the whole run. Every connection has received exactly the frames of its own
commands in that order, and has sent a beginning of its own responses; as long as it is
open, its buffers hold the rest of them and an unfinished frame. -/
theorem clients_serialized (run : TrafficRun loop phase clock traffic) :
    (∃ clock' ≤ clock, SpecRun traffic.history loop.db.contents clock') ∧
    (∀ client, traffic.accepted ≤ client → exchanges client traffic.history = []) ∧
    ∀ client, ∃ rest, Framed (traffic.received client) (commandsOf client traffic.history) rest ∧
      traffic.sent client <+: responsesOf client traffic.history ∧
      ∀ conn ∈ loop.live, traffic.client conn = client →
        ∃ unsent, (loop.io conn).outgoing.Holds unsent ∧
          traffic.sent client ++ unsent = responsesOf client traffic.history ∧
          (loop.io conn).incoming.Holds rest ∧ Incomplete rest := by
  obtain ⟨queues, sized⟩ := run.queues
  obtain ⟨spec, unaccepted, accounts⟩ := queues.serialized
  refine ⟨spec, unaccepted, fun client => ?_⟩
  obtain ⟨rest, framed, sent, states⟩ := accounts client
  refine ⟨rest, framed, sent, fun conn live same => ?_⟩
  obtain ⟨answered, waiting, unfinished⟩ := states conn live same
  have matched := sized conn live
  exact ⟨_, matched.outgoing, answered, waiting ▸ matched.incoming, unfinished⟩

/-- One of two clients sets a key, and the other reads it. -/
theorem clients_serialized_two : ∃ loop traffic, TrafficRun loop (.serving []) 0 traffic ∧
    commandsOf 0 traffic.history = [[ascii "set", [107], [118]]] ∧
    commandsOf 1 traffic.history = [[ascii "get", [107]]] ∧
    ∃ clock' ≤ 0, SpecRun traffic.history loop.db.contents clock' := by
  obtain ⟨first, loop, two, connected⟩ := TrafficRun.connected
  have members : ∀ conn ∈ loop.live, conn = 8 ∨ conn = 7 := by simp [two.liveTwo]
  obtain ⟨fd7, fd8⟩ : loop.fd 7 = 4 ∧ loop.fd 8 = 5 := by simp [two.fdTwo, two.fdOne]
  obtain ⟨io7, io8⟩ : loop.io 7 = .accepted ∧ loop.io 8 = .accepted := by
    simp [two.ioTwo, two.ioOne]
  have sets : Framed (requestFrame [ascii "set", [107], [118]]) [[ascii "set", [107], [118]]] [] :=
    ⟨by simp, by simpa using ⟨by decide, by decide⟩, .inl incomplete_nil⟩
  have gets : Framed (requestFrame [ascii "get", [107]]) [[ascii "get", [107]]] [] :=
    ⟨by simp, by simpa using ⟨by decide, by decide⟩, .inl incomplete_nil⟩
  obtain ⟨conn, member, same, loop', written, events, fewer, files, others, first⟩ :=
    @TrafficRun.asks _ _ _ _ _ connected
      (fun conn member same => by obtain rfl | rfl := members conn member <;> assumption)
      _ sets.valid (by simpa using not_negativeTtl (by decide)) [Env.counting]
      (by simp [Env.counting]) le_rfl .again
  obtain rfl : conn = 7 := by
    obtain rfl | rfl := members conn member
    · rw [fd8] at same
      cases same
    · rfl
  have fresh : ∀ conn ∈ loop'.live, loop'.fd conn = 5 → loop'.io conn = .accepted := by
    intro conn member same
    obtain rfl | rfl := members conn (fewer member)
    · rw [others 8 (by decide), io8]
    · rw [files, fd7] at same
      cases same
  obtain ⟨conn, member, same, last, written', events', -, -, -, second⟩ :=
    @TrafficRun.asks _ _ _ _ _ first fresh _ gets.valid
      (by simpa using not_negativeTtl (by decide)) [Env.counting]
      (by simp [Env.counting]) le_rfl .again
  obtain rfl : conn = 8 := by
    obtain rfl | rfl := members conn (fewer member)
    · rfl
    · rw [files, fd7] at same
      cases same
  obtain ⟨traffic, run, received, received'⟩ : ∃ traffic, TrafficRun last (.serving []) 0 traffic ∧
      traffic.received 0 = requestFrame [ascii "set", [107], [118]] ∧
      traffic.received 1 = requestFrame [ascii "get", [107]] :=
    ⟨_, second, by simp [Traffic.serve, Traffic.expire, Traffic.accept],
      by simp [Traffic.serve, Traffic.expire, Traffic.accept]⟩
  obtain ⟨spec, -, accounts⟩ := clients_serialized run
  obtain ⟨_, framed, -⟩ := accounts 0
  obtain ⟨_, framed', -⟩ := accounts 1
  rw [received] at framed
  rw [received'] at framed'
  exact ⟨last, traffic, run, (framed.unique sets).1, (framed'.unique gets).1, spec⟩

/-! ## What ends the process -/

/-- In every state of every run the arguments and the timeout of `poll` are computed, a connection
is accepted, and the timers and the workers do their work. A round of a connection returns with a
database unless one of these happens: it reads into a crowded buffer, the bytes which it reads
complete the request of a `pexpire` with a negative time to live, or it writes to a connection
which the peer has reset. -/
theorem process_ends_iff (run : TrafficRun loop phase clock traffic) :
    (∃ args, pollArgs loop loop.fd2conn = some args) ∧
    (∀ now, ∃ timeout, loop.nextTimerMs now = some timeout) ∧
    (∀ conn ∉ loop.live, ∀ connfd, (∀ other ∈ loop.live, loop.fd other ≠ connfd) →
      ∀ now, clock ≤ now → ∃ loop', handleAccept loop conn connfd now = some loop') ∧
    (∀ env, clock ≤ env.now → ∃ loop', loop.processTimers env = some loop') ∧
    (∀ ent ∈ loop.db.tasks, ∃ state, runTask loop.db ent = some state) ∧
    ∀ fd ready results, phase = .serving ((fd, some ready) :: results) →
      ∃ conn ∈ loop.live, loop.fd conn = fd ∧
      ∀ now envs, (clock :: now :: envs.map Env.now).Pairwise (· ≤ ·) → ∀ read write write',
        ∃ cmds rest, Framed ((loop.io conn).incoming.data ++
            if ready.pollIn then read.data else []) cmds rest ∧
          (cmds.length ≤ envs.length →
            ((∃ loop' state left, serveReady execEach
              (loop.withDb (some loop.db, envs)) fd now ready
                read write write' = some loop' ∧ loop'.db = (some state, left)) ↔
              ¬Fatal (loop.io conn) ready read write write' cmds)) := by
  obtain ⟨queues, -⟩ := run.queues
  obtain ⟨⟨args, prepared⟩, timeout, accepts, timers, tasks, -⟩ := queues.process.aborts_iff
  refine ⟨⟨args, ?_⟩, timeout, fun conn fresh connfd unopened now later => ?_, fun env later => ?_,
    tasks, ?_⟩
  · rw [MiniRedis.pollArgs, pollArgsWith_mapIo] at prepared
    exact prepared
  · obtain ⟨_, accepted⟩ := accepts conn fresh connfd unopened now later
    rw [MiniRedis.handleAccept, Conn.accepted_matches.eq_queues, handleAcceptWith_mapIo] at accepted
    obtain ⟨loop', accepted, -⟩ := Option.map_eq_some_iff.mp accepted
    exact ⟨loop', accepted⟩
  · obtain ⟨_, passes⟩ := timers env later
    rw [processTimers_mapIo] at passes
    obtain ⟨loop', passes, -⟩ := Option.map_eq_some_iff.mp passes
    exact ⟨loop', passes⟩
  · rintro fd ready results rfl
    exact run.serves_iff

/-- A client asks for the keys, and the process goes on, unless the connection has been reset when
the answer is written; a negative time to live ends it. -/
theorem process_ends_iff_asks : ∃ loop traffic,
    TrafficRun loop (.serving [(4, some ⟨true, false, false⟩), (5, some ⟨true, false, false⟩)]) 0
      traffic ∧
    (∃ loop' state left, serveReady execEach (loop.withDb (some loop.db, [Env.counting])) 4 0
      ⟨true, false, false⟩ (.bytes (requestFrame [ascii "keys"])) (.returns .again)
      (.returns .again) = some loop' ∧ loop'.db = (some state, left)) ∧
    ¬(∃ loop' state left, serveReady execEach (loop.withDb (some loop.db, [Env.counting])) 4 0
      ⟨true, false, false⟩ (.bytes (requestFrame [ascii "keys"])) .brokenPipe
      (.returns .again) = some loop' ∧ loop'.db = (some state, left)) ∧
    ¬∃ loop' state left, serveReady execEach (loop.withDb (some loop.db, [Env.counting])) 4 0
      ⟨true, false, false⟩ (.bytes (requestFrame [ascii "pexpire", [122], ascii "-1"]))
      (.returns .again) (.returns .again) = some loop' ∧ loop'.db = (some state, left) := by
  obtain ⟨first, loop, two, run⟩ := TrafficRun.connected
  obtain ⟨fd8, io7⟩ : loop.fd 8 = 5 ∧ loop.io 7 = .accepted := by
    simp [two.fdTwo, two.ioTwo, two.ioOne]
  obtain ⟨-, -, -, -, -, rounds⟩ := process_ends_iff run
  obtain ⟨conn, member, same, rounds⟩ := rounds _ _ _ rfl
  obtain rfl : conn = 7 := by
    obtain rfl | rfl : conn = 8 ∨ conn = 7 := by simpa [two.liveTwo] using member
    · rw [fd8] at same
      cases same
    · rfl
  have asks : Framed (requestFrame [ascii "keys"]) [[ascii "keys"]] [] :=
    ⟨by simp, by simpa using ⟨by decide, by decide⟩, .inl incomplete_nil⟩
  have limits : Framed (requestFrame [ascii "pexpire", [122], ascii "-1"])
      [[ascii "pexpire", [122], ascii "-1"]] [] :=
    ⟨by simp, by simpa using ⟨by decide, by decide⟩, .inl incomplete_nil⟩
  rw [io7] at rounds
  refine ⟨loop, _, run, ?_, ?_, ?_⟩
  · obtain ⟨_, _, framed, returns⟩ := rounds 0 [Env.counting] (by decide)
      (.bytes (requestFrame [ascii "keys"])) (.returns .again) (.returns .again)
    obtain ⟨rfl, rfl⟩ := framed.unique asks
    refine (returns le_rfl).mpr fun fatal => ?_
    cases fatal with
    | overrun crowded =>
        obtain ⟨-, data, -, crowded⟩ := crowded
        exact not_crowded_empty _ crowded
    | assertion member negative =>
        obtain rfl := List.mem_singleton.mp member
        exact not_negativeTtl (by decide) negative
    | answering _ _ broken => cases broken
    | writing polled _ => cases polled
  · obtain ⟨_, _, framed, returns⟩ := rounds 0 [Env.counting] (by decide)
      (.bytes (requestFrame [ascii "keys"])) .brokenPipe (.returns .again)
    obtain ⟨rfl, rfl⟩ := framed.unique asks
    exact fun goes => (returns le_rfl).mp goes (.answering rfl (by simp) rfl)
  · obtain ⟨_, _, framed, returns⟩ := rounds 0 [Env.counting] (by decide)
      (.bytes (requestFrame [ascii "pexpire", [122], ascii "-1"])) (.returns .again)
      (.returns .again)
    obtain ⟨rfl, rfl⟩ := framed.unique limits
    have negative : NegativeTtl [ascii "pexpire", [122], ascii "-1"] :=
      ⟨_, _, -1, rfl, by decide, by decide⟩
    exact fun goes => (returns le_rfl).mp goes (.assertion (by simp) negative)

end Buffers

end MiniRedis
