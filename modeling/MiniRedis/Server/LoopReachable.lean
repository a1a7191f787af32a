import MiniRedis.Server.IdleList

/-!
# Idle connections and intentions over whole runs
-/

namespace MiniRedis

variable {σ : Type} {loop loop' : EventLoop σ Conn} {phase : LoopPhase} {clock : Nat}

/-! ## The parts of a step -/

/-- What a round leaves of the connections: all but the one it serves are untouched. -/
theorem serveReadyWith_effect {κ : Type} {loop loop' : EventLoop σ κ}
    {handle : κ → σ → Option (Option κ × σ × Bytes)} {fd now : Nat}
    (run : serveReadyWith handle loop fd now = some loop') {conn : Addr}
    (slot : loop.fd2conn[fd]? = some (some conn)) :
    ∃ io written, handle (loop.io conn) loop.db = some (io, loop'.db, written) ∧
      conn ∈ loop.live ∧ loop'.live ⊆ loop.live ∧
      loop'.fd = loop.fd ∧ (∀ other, other ≠ conn → loop'.io other = loop.io other) ∧
      (io ≠ none → loop'.live = loop.live) ∧ (conn ∈ loop'.live → io = some (loop'.io conn)) := by
  obtain ⟨slot', found, run⟩ := Option.bind_eq_some_iff.mp run
  obtain rfl : some conn = slot' := Option.some.inj (slot.symm.trans found)
  obtain ⟨_, same, run⟩ := Option.bind_eq_some_iff.mp run
  cases same
  obtain ⟨_, live, run⟩ := Option.bind_eq_some_iff.mp run
  obtain ⟨detached, -, run⟩ := Option.bind_eq_some_iff.mp run
  obtain ⟨idleList, -, run⟩ := Option.bind_eq_some_iff.mp run
  obtain ⟨⟨io, db, written⟩, handled, run⟩ := Option.bind_eq_some_iff.mp run
  have member : conn ∈ loop.live := by simpa [guard] using live
  cases io with
  | some io =>
      cases run
      exact ⟨some io, written, handled, member, subset_rfl, rfl,
        fun other distinct => Function.update_of_ne distinct .., fun _ => rfl, fun _ => by simp⟩
  | none =>
      obtain ⟨_, -, run⟩ := Option.bind_eq_some_iff.mp run
      obtain ⟨list, -, run⟩ := Option.bind_eq_some_iff.mp run
      cases run
      exact ⟨none, written, handled, member, Finset.erase_subset _ _, rfl, fun _ _ => rfl,
        fun kept => absurd rfl kept, fun stays => absurd rfl (Finset.mem_erase.mp stays).1⟩

theorem serveReady_effect {exec : Executor σ} {fd now : Nat} {ready : Ready} {read : ReadResult}
    {write write' : WriteResult}
    (run : serveReady exec loop fd now ready read write write' = some loop') {conn : Addr}
    (slot : loop.fd2conn[fd]? = some (some conn)) :
    ∃ io written, handleReady exec (loop.io conn) loop.db ready read write write' =
        some (io, loop'.db, written) ∧ conn ∈ loop.live ∧ loop'.live ⊆ loop.live ∧
      loop'.fd = loop.fd ∧ (∀ other, other ≠ conn → loop'.io other = loop.io other) ∧
      (io ≠ none → loop'.live = loop.live) ∧ (conn ∈ loop'.live → io = some (loop'.io conn)) :=
  serveReadyWith_effect run slot

theorem connDestroy_effect {κ : Type} {loop loop' : EventLoop σ κ} {conn : Addr}
    (run : connDestroy loop conn = some loop') : loop'.io = loop.io ∧ loop'.live ⊆ loop.live := by
  obtain ⟨_, -, run⟩ := Option.bind_eq_some_iff.mp run
  obtain ⟨idleList, -, run⟩ := Option.bind_eq_some_iff.mp run
  cases run
  exact ⟨rfl, Finset.erase_subset _ _⟩

/-- One round of the loop over the idle connections. -/
theorem closeIdle_of_front {κ : Type} {loop : EventLoop σ κ} {nowMs : Nat} {conn : Addr}
    (occupied : ¬dlistEmpty loop.idleList none = true)
    (front : loop.idleList.next none = some (some conn)) (live : conn ∈ loop.live) :
    loop.closeIdle nowMs =
      if (loop.lastActiveMs conn + kIdleTimeoutMs) % 2 ^ 64 > nowMs then some loop
      else (connDestroy loop conn).bind fun closed => closed.closeIdle nowMs := by
  rw [EventLoop.closeIdle, if_neg occupied, front]
  simp only [Option.bind_eq_bind, Option.bind_some, live, guard_true, Option.pure_def]

/-- The timers close connections and change no buffer. -/
theorem closeIdle_effect {κ : Type} {loop loop' : EventLoop σ κ} {now : Nat}
    (run : loop.closeIdle now = some loop') : loop'.io = loop.io ∧ loop'.live ⊆ loop.live := by
  refine EventLoop.closeIdle.partial_correctness now
    (fun loop loop' => loop'.io = loop.io ∧ loop'.live ⊆ loop.live)
    (fun closeIdle ih loop loop' run => ?_) loop loop' run
  split at run
  · cases run
    exact ⟨rfl, subset_rfl⟩
  · simp only [Option.bind_eq_bind, Option.bind_eq_some_iff] at run
    obtain ⟨_, -, conn, -, _, -, run⟩ := run
    split at run
    · cases run
      exact ⟨rfl, subset_rfl⟩
    · obtain ⟨closed, destroyed, run⟩ := Option.bind_eq_some_iff.mp run
      obtain ⟨io, live⟩ := connDestroy_effect destroyed
      obtain ⟨io', live'⟩ := ih closed loop' run
      exact ⟨io'.trans io, live'.trans live⟩

/-! ## Runs -/

/-- The results of `poll` still to be handled. -/
def LoopPhase.results : LoopPhase → List (Nat × Option Ready)
  | .top => []
  | .polled results => results
  | .serving results => results

/-- Results stay good while their connections are left alone. -/
theorem EventLoop.Awaits.keep {results : List (Nat × Option Ready)} (awaits : loop.Awaits results)
    (kept : ∀ conn ∈ loop.live, loop.fd conn ∈ results.map Prod.fst →
      conn ∈ loop'.live ∧ loop'.fd conn = loop.fd conn ∧ loop'.io conn = loop.io conn) :
    loop'.Awaits results where
  distinct := awaits.distinct
  requested result member := by
    obtain ⟨conn, live, fd, events⟩ := awaits.requested result member
    obtain ⟨live', fd', io⟩ := kept conn live (fd ▸ List.mem_map_of_mem member)
    exact ⟨conn, live', fd'.trans fd, io ▸ events⟩

theorem EventLoop.Awaits.tail {result : Nat × Option Ready} {results : List (Nat × Option Ready)}
    (awaits : loop.Awaits (result :: results)) : loop.Awaits results where
  distinct := (List.nodup_cons.mp awaits.distinct).2
  requested other member := awaits.requested other (List.mem_cons_of_mem _ member)

/-- The connection of the result in front is not the one of a result behind. -/
theorem EventLoop.Awaits.ne_of_tail {result : Nat × Option Ready}
    {results : List (Nat × Option Ready)} (awaits : loop.Awaits (result :: results))
    {conn other : Addr}
    (front : loop.fd conn = result.1) (behind : loop.fd other ∈ results.map Prod.fst) :
    other ≠ conn := by
  rintro rfl
  exact (List.nodup_cons.mp awaits.distinct).1 (front ▸ behind)

theorem EventLoop.Awaits.nil : loop.Awaits [] := ⟨List.nodup_nil, nofun⟩

/-- The connections are in order, and so are the results of `poll` still to be handled. -/
def EventLoop.Sound (loop : EventLoop σ Conn) (phase : LoopPhase) (clock : Nat) : Prop :=
  ∃ idle, loop.Invariant clock idle ∧ loop.Awaits phase.results

namespace EventLoop.Sound

theorem start {fd : Addr → Nat} {io : Addr → Conn} {lastActiveMs : Addr → Nat} {db : σ} :
    EventLoop.Sound { fd := fd, io := io, lastActiveMs := lastActiveMs, db := db } .top clock :=
  ⟨[], ⟨dlistInit_spec _ _, by simp, .nil, nofun, by simp, by simp⟩, .nil⟩

theorem poll (sound : loop.Sound .top clock) {args : List PollFd}
    (prepared : pollArgs loop loop.fd2conn = some args) {results : List (Nat × Option Ready)}
    (polls : Polls args results) : loop.Sound (.polled results) clock := by
  obtain ⟨idle, invariant, -⟩ := sound
  exact ⟨idle, invariant, invariant.awaits prepared polls⟩

theorem accept {results : List (Nat × Option Ready)} (sound : loop.Sound (.polled results) clock)
    {now : Nat} (later : clock ≤ now) {conn : Addr} (fresh : conn ∉ loop.live) {connfd : Nat}
    (unopened : ∀ other ∈ loop.live, loop.fd other ≠ connfd)
    (run : handleAccept loop conn connfd now = some loop') :
    loop'.Sound (.serving results) now := by
  obtain ⟨idle, invariant, awaits⟩ := sound
  obtain ⟨_, run', invariant', live, others⟩ := invariant.handleAccept later fresh unopened
  rw [run] at run'
  cases run'
  refine ⟨_, invariant', awaits.keep fun conn member _ => ⟨?_, others conn member⟩⟩
  rw [live]
  exact Finset.mem_insert_of_mem member

theorem quiet {result : Nat × Option Ready} {results : List (Nat × Option Ready)}
    (sound : loop.Sound (.serving (result :: results)) clock) :
    loop.Sound (.serving results) clock := by
  obtain ⟨idle, invariant, awaits⟩ := sound
  exact ⟨idle, invariant, awaits.tail⟩

/-- Handling the result in front executes the frames which its bytes complete. -/
theorem serve {fd : Nat} {ready : Ready} {results : List (Nat × Option Ready)}
    (sound : loop.Sound (.serving ((fd, some ready) :: results)) clock) {now : Nat}
    (later : clock ≤ now) (exec : Executor σ) (read : ReadResult) (write write' : WriteResult) :
    ∃ loop', serveReady exec loop fd now ready read write write' = some loop' ∧
      loop'.Sound (.serving results) now ∧ ∃ conn ∈ loop.live, loop.fd conn = fd ∧
      (ready.pollErr → loop'.live = loop.live.erase conn) ∧
      ∃ cmds rest, Framed ((loop.io conn).incoming ++ if ready.pollIn then read.data else []) cmds
        rest ∧ loop'.db = (runRequests exec loop.db cmds).1 := by
  obtain ⟨idle, invariant, awaits⟩ := sound
  obtain ⟨conn, live, rfl, events⟩ := awaits.requested _ List.mem_cons_self
  obtain ⟨loop', idle', run, invariant', others, executed⟩ :=
    invariant.serveReady later live (events _ rfl) exec read write write'
  have awaits' : loop'.Awaits results := awaits.tail.keep fun other member behind =>
    others other member (awaits.ne_of_tail rfl behind)
  exact ⟨loop', run, ⟨idle', invariant', awaits'⟩, conn, live, rfl, executed⟩

/-- The timers close connections and leave the others as they are. -/
theorem closeIdle (sound : loop.Sound phase clock) {now : Nat} (later : clock ≤ now)
    (bound : now < 2 ^ 63) :
    ∃ loop', loop.closeIdle now = some loop' ∧ loop'.Sound .top now ∧ loop'.db = loop.db := by
  obtain ⟨idle, invariant, -⟩ := sound
  obtain ⟨loop', run, invariant', -, -, db⟩ := closeIdle_spec invariant later bound
  exact ⟨loop', run, ⟨_, invariant'.later later, .nil⟩, db⟩

/-- The database is beside the connections. -/
theorem withDb {τ : Type} (sound : loop.Sound phase clock) (db : τ) :
    (loop.withDb db).Sound phase clock := by
  obtain ⟨idle, invariant, awaits⟩ := sound
  refine ⟨idle, ?_, awaits.distinct, awaits.requested⟩
  exact ⟨invariant.ring, invariant.listed, invariant.sorted, invariant.past, invariant.mapped,
    invariant.steady⟩

end EventLoop.Sound

/-- The connections are in order at every point of every run. -/
theorem LoopRun.invariant (run : LoopRun loop phase clock) :
    ∃ idle, loop.Invariant clock idle ∧ loop.Awaits phase.results := by
  change loop.Sound phase clock
  induction run with
  | start => exact .start
  | poll before prepared polls ih => exact ih.poll prepared polls
  | pass before ih => exact ih
  | accept before later bound fresh unopened run ih => exact ih.accept later fresh unopened run
  | quiet before ih => exact ih.quiet
  | serve before later bound exec read write write' run ih =>
      obtain ⟨_, run', sound, -⟩ := ih.serve later exec read write write'
      rw [run] at run'
      cases run'
      exact sound
  | timers before later bound run db ih =>
      obtain ⟨_, run', sound, -⟩ := ih.closeIdle later bound
      rw [run] at run'
      cases run'
      exact sound.withDb db

/-- At every point of every run the idle list is well linked and holds exactly the live
connections, each once and the stalest first; the results of `poll` belong to live
connections; and the timers close exactly the connections which have timed out. -/
theorem idle_list_reachable (run : LoopRun loop phase clock) :
    ∃ idle : List Addr, loop.idleList.Ring none (idle.map some) ∧ idle.Nodup ∧
      (∀ conn, conn ∈ idle ↔ ∃ fd : Nat, loop.fd2conn[fd]? = some (some conn)) ∧
      (∀ conn, conn ∈ idle ↔ conn ∈ loop.live) ∧
      (idle.Pairwise fun earlier later => loop.lastActiveMs earlier ≤ loop.lastActiveMs later) ∧
      (∀ result ∈ phase.results, ∃ conn ∈ loop.live,
        loop.fd2conn[result.1]? = some (some conn)) ∧
      (∀ now conn connfd, clock ≤ now → conn ∉ loop.live →
        (∀ other ∈ loop.live, loop.fd other ≠ connfd) →
        ∃ loop', handleAccept loop conn connfd now = some loop') ∧
      ∀ now, clock ≤ now → now < 2 ^ 63 → ∃ loop', loop.closeIdle now = some loop' ∧
        ∀ (fd : Nat) (conn : Addr), loop'.fd2conn[fd]? = some (some conn) ↔
          loop.fd2conn[fd]? = some (some conn) ∧ now < loop.lastActiveMs conn + kIdleTimeoutMs := by
  obtain ⟨idle, invariant, awaits⟩ := run.invariant
  refine ⟨idle, invariant.ring, invariant.nodup, fun conn => ?_, invariant.listed, invariant.sorted,
    fun result member => ?_, fun now conn connfd later fresh unopened => ?_,
    fun now later bound => ?_⟩
  · rw [invariant.listed, ← invariant.mem_fd2conn, List.mem_iff_getElem?]
  · obtain ⟨conn, live, fd, -⟩ := awaits.requested result member
    exact ⟨conn, live, (invariant.mapped _ conn).mpr ⟨live, fd⟩⟩
  · obtain ⟨loop', accepted, -⟩ := invariant.handleAccept later fresh unopened
    exact ⟨loop', accepted⟩
  · obtain ⟨loop', closed, invariant', fd', -⟩ := closeIdle_spec invariant later bound
    refine ⟨loop', closed, fun fd conn => ?_⟩
    rw [invariant'.mapped, ← invariant'.listed, mem_dropWhile_timedOut invariant.sorted,
      invariant.listed, invariant.mapped, fd']
    tauto

/-- The loop in front of its first iteration. -/
def EventLoop.initial {κ : Type} (blank : κ) (db : σ) : EventLoop σ κ where
  fd := fun _ => 0
  io := fun _ => blank
  lastActiveMs := fun _ => 0
  db := db

/-- Two clients are accepted, the second one at some time after the first. -/
structure AcceptsTwo {κ : Type} (accepted blank : κ) (db : σ) (now : Nat)
    (first second : EventLoop σ κ) : Prop where
  one : handleAcceptWith accepted (.initial blank db) 7 4 0 = some first
  slotsOne : first.fd2conn = [none, none, none, none, some 7]
  liveOne : first.live = {7}
  frontOne : first.idleList.next none = some (some 7)
  two : handleAcceptWith accepted first 8 5 now = some second
  slotsTwo : second.fd2conn = [none, none, none, none, some 7, some 8]
  liveTwo : second.live = {8, 7}
  frontTwo : second.idleList.next none = some (some 7)
  fdOne : first.fd = Function.update (fun _ => 0) 7 4
  fdTwo : second.fd = Function.update first.fd 8 5
  ioOne : first.io = Function.update (fun _ => blank) 7 accepted
  ioTwo : second.io = Function.update first.io 8 accepted
  activeOne : first.lastActiveMs = Function.update (fun _ => 0) 7 0
  activeTwo : second.lastActiveMs = Function.update first.lastActiveMs 8 now
  dbOne : first.db = db
  dbTwo : second.db = db

theorem exists_acceptsTwo {κ : Type} (accepted blank : κ) (db : σ) (now : Nat) :
    ∃ first second, AcceptsTwo accepted blank db now first second :=
  ⟨_, _, rfl, rfl, rfl, rfl, rfl, rfl, rfl, rfl, rfl, rfl, rfl, rfl, rfl, rfl, rfl, rfl⟩

namespace AcceptsTwo

variable {κ : Type} {accepted blank : κ} {db : σ} {now : Nat} {first second : EventLoop σ κ}

/-- The timers close neither connection if the first one has just been accepted. -/
theorem closeIdle_first (two : AcceptsTwo accepted blank db now first second) :
    first.closeIdle 0 = some first := by
  rw [closeIdle_of_front (by simp [dlistEmpty, two.frontOne]) two.frontOne (by simp [two.liveOne]),
    two.activeOne, if_pos (by simp [kIdleTimeoutMs])]

theorem closeIdle_second (two : AcceptsTwo accepted blank db now first second) {later : Nat}
    (early : later < kIdleTimeoutMs) : second.closeIdle later = some second := by
  rw [closeIdle_of_front (by simp [dlistEmpty, two.frontTwo]) two.frontTwo (by simp [two.liveTwo]),
    two.activeTwo, two.activeOne, if_pos]
  rw [Function.update_of_ne (by decide), Function.update_self, Nat.zero_add,
    Nat.mod_eq_of_lt (by decide)]
  exact early

end AcceptsTwo

/-- Two clients connect, the second one a millisecond after the first. -/
theorem loopRun_two : ∃ first second : EventLoop Nat Conn,
    AcceptsTwo .accepted {} 0 1 first second ∧ LoopRun second (.serving []) 1 := by
  obtain ⟨first, second, two⟩ := @exists_acceptsTwo Nat Conn .accepted {} 0 1
  have started : LoopRun (.initial ({} : Conn) 0) .top 0 := .start (by norm_num)
  have one := ((started.poll rfl .nil).accept le_rfl (by norm_num) (by simp [EventLoop.initial])
    (by simp [EventLoop.initial]) two.one).timers le_rfl (by norm_num) two.closeIdle_first first.db
  have args : pollArgs first first.fd2conn = some [⟨4, true, false⟩] := by
    simp [two.slotsOne, pollArgs, pollArgsWith, two.liveOne, two.ioOne, two.fdOne, Conn.accepted]
  have polls : Polls [⟨4, true, false⟩] [(4, none)] := .cons ⟨rfl, by simp⟩ .nil
  exact ⟨first, second, two, ((one.poll args polls).accept (Nat.zero_le 1) (by norm_num)
    (by simp [two.liveOne]) (by simp [two.liveOne, two.fdOne]) two.two).quiet⟩

/-- The older connection is in front, and a pass a minute after its arrival closes only that one. -/
theorem idle_list_reachable_two : ∃ loop loop' : EventLoop Nat Conn,
    LoopRun loop (.serving []) 1 ∧ loop.idleList.Ring none [some 7, some 8] ∧
    loop.closeIdle 60000 = some loop' ∧ loop'.fd2conn[4]? ≠ some (some 7) ∧
    loop'.fd2conn[5]? = some (some 8) := by
  obtain ⟨first, loop, two, run⟩ := loopRun_two
  obtain ⟨idle, ring, nodup, -, listed, sorted, -, -, timers⟩ := idle_list_reachable run
  obtain ⟨loop', pass, closed⟩ := timers 60000 (by decide) (by norm_num)
  have active : loop.lastActiveMs 7 = 0 ∧ loop.lastActiveMs 8 = 1 := by
    simp [two.activeTwo, two.activeOne]
  obtain rfl : idle = [7, 8] := by
    have perm : idle.Perm [7, 8] := by
      rw [List.perm_ext_iff_of_nodup nodup (by decide)]
      simp [listed, two.liveTwo, or_comm]
    obtain rfl | rfl := List.perm_pair.mp perm
    · rfl
    · have order := List.rel_of_pairwise_cons sorted List.mem_cons_self
      omega
  refine ⟨loop, loop', run, ring, pass, fun open' => ?_,
    (closed 5 8).mpr ⟨by simp [two.slotsTwo], ?_⟩⟩
  · have early := ((closed 4 7).mp open').2
    rw [active.1] at early
    exact absurd early (by decide)
  · rw [active.2]
    decide

/-- A client's request has been answered, but the socket has taken one byte only. -/
theorem loopRun_pending : ∃ loop : EventLoop Nat Conn, LoopRun loop (.serving []) 1 ∧
    loop.live = {8, 7} ∧ loop.fd 7 = 4 ∧ (loop.io 7).outgoing = [0, 0, 0] := by
  obtain ⟨first, loop, two, run⟩ := loopRun_two
  have args : pollArgs loop loop.fd2conn = some [⟨4, true, false⟩, ⟨5, true, false⟩] := by
    simp [two.slotsTwo, pollArgs, pollArgsWith, two.liveTwo, two.ioTwo, two.ioOne, two.fdTwo,
      two.fdOne, Conn.accepted]
  have polls : Polls [⟨4, true, false⟩, ⟨5, true, false⟩]
      [(4, some ⟨true, false, false⟩), (5, none)] :=
    .cons ⟨rfl, by simp⟩ (.cons ⟨rfl, by simp⟩ .nil)
  have waiting := ((run.timers le_rfl (by norm_num) (two.closeIdle_second (by decide))
    loop.db).poll args polls).pass
  -- the request, and the one byte of its response
  have valid : ValidRequest [ascii "keys"] := ⟨by decide, by decide⟩
  have answered : handleReady (fun count _ => (count + 1, [])) (loop.io 7) loop.db
      ⟨true, false, false⟩ (.bytes (requestFrame [ascii "keys"])) (.accepted 1) .again =
      some (some { wantWrite := true, outgoing := [0, 0, 0] }, loop.db + 1, [0]) := by
    have requests : Conn.requestLoop { wantRead := true, incoming := requestFrame [ascii "keys"] }
        (fun count _ => (count + 1, [])) loop.db =
        some ({ wantRead := true, outgoing := [0, 0, 0, 0] }, loop.db + 1) := by
      have response : frame (limitResponse []) = [0, 0, 0, 0] := rfl
      rw [Conn.requestLoop, tryOneRequest_frame _ _ valid (List.append_nil _).symm]
      simp only [response, List.nil_append, Option.bind_eq_bind, Option.bind_some, if_true]
      rw [Conn.requestLoop, tryOneRequest_incomplete _ _ incomplete_nil]
      rfl
    simp [handleReady, two.ioTwo, two.ioOne, Conn.accepted, handleRead, requests, handleWrite]
  obtain ⟨served, serves, -⟩ := EventLoop.Sound.serve waiting.invariant le_rfl
    (fun count _ => (count + 1, [])) (.bytes (requestFrame [ascii "keys"])) (.accepted 1) .again
  obtain ⟨io, written, handled, -, -, fd, -, kept, stays⟩ :=
    @serveReady_effect _ _ _ _ _ _ _ _ _ _ serves 7 (by simp [two.slotsTwo])
  rw [answered] at handled
  obtain rfl : _ = io := (Prod.mk.inj (Option.some.inj handled)).1
  have live : served.live = {8, 7} := (kept (by simp)).trans two.liveTwo
  have io := Option.some.inj (stays (by simp [live]))
  refine ⟨served, (waiting.serve le_rfl (by norm_num) _ _ _ _ serves).quiet, live, ?_, by rw [← io]⟩
  rw [fd, two.fdTwo, two.fdOne]
  rfl

/-- Between two iterations and within one, every live connection is open and waits for
exactly one direction, for writing when a response is pending. No assertion fails when a
result of `poll` is handled, and a pending response is polled for writability. -/
theorem intentions_reachable (run : LoopRun loop phase clock) :
    (∀ conn ∈ loop.live, (loop.io conn).wantClose = false ∧
      (loop.io conn).wantRead = !(loop.io conn).wantWrite ∧
      ((loop.io conn).wantWrite = true ↔ (loop.io conn).outgoing ≠ [])) ∧
    (∀ fd ready results, phase = .serving ((fd, some ready) :: results) →
      ∀ (exec : Executor σ) (now : Nat) (read : ReadResult) (write write' : WriteResult),
        clock ≤ now → ∃ loop', serveReady exec loop fd now ready read write write' = some loop') ∧
    ∃ args, pollArgs loop loop.fd2conn = some args ∧ ∀ conn ∈ loop.live, ∃ arg ∈ args,
      arg.fd = loop.fd conn ∧ ((loop.io conn).outgoing ≠ [] → arg.pollOut = true) := by
  obtain ⟨idle, invariant, awaits⟩ := run.invariant
  refine ⟨fun conn live => ?_, ?_, _, invariant.pollArgs.1, fun conn live => ?_⟩
  · obtain ⟨opened, alternates, -⟩ := invariant.steady conn live
    refine ⟨opened, ?_, alternates.writing⟩
    have reading := alternates.reading
    have writing := alternates.writing
    cases read : (loop.io conn).wantRead <;> cases write : (loop.io conn).wantWrite <;>
      simp_all
  · rintro fd ready results rfl exec now read write write' later
    have sound : loop.Sound (.serving ((fd, some ready) :: results)) clock :=
      ⟨idle, invariant, awaits⟩
    obtain ⟨loop', served, -⟩ := sound.serve later exec read write write'
    exact ⟨loop', served⟩
  · refine ⟨loop.pollFd conn, ?_, rfl, (invariant.steady conn live).alternates.writing.mpr⟩
    apply List.mem_map_of_mem
    simpa using invariant.mem_fd2conn.mpr live

/-- A connection whose response is partly written waits for writing and is polled for it. -/
theorem intentions_reachable_pending :
    ∃ (loop : EventLoop Nat Conn) (args : List PollFd) (arg : PollFd),
    LoopRun loop (.serving []) 1 ∧ (loop.io 7).outgoing = [0, 0, 0] ∧
    (loop.io 7).wantWrite = true ∧ (loop.io 7).wantRead = false ∧
    pollArgs loop loop.fd2conn = some args ∧ arg ∈ args ∧ arg.fd = 4 ∧ arg.pollOut = true := by
  obtain ⟨loop, run, live, fd, pending⟩ := loopRun_pending
  obtain ⟨intends, -, args, prepared, polled⟩ := intentions_reachable run
  obtain ⟨-, direction, writing⟩ := intends 7 (by simp [live])
  obtain ⟨arg, listed, same, requested⟩ := polled 7 (by simp [live])
  have unsent : (loop.io 7).outgoing ≠ [] := by simp [pending]
  have writes := writing.mpr unsent
  rw [writes] at direction
  exact ⟨loop, args, arg, run, pending, writes, direction, prepared, listed, same.trans fd,
    requested unsent⟩

end MiniRedis
