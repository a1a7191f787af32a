import MiniRedis.Server.EventLoop
import MiniRedis.Server.Serving

/-!
# The event loop over whole runs

The idle list, the map of descriptors and the set of live connections describe the same
connections in every state, and every live connection is steady.
-/

namespace MiniRedis

variable {σ : Type}

/-- What holds of the connections at any moment; `idle` lists them from the stalest on. -/
structure EventLoop.Invariant (loop : EventLoop σ Conn) (clock : Nat) (idle : List Addr) : Prop where
  ring : loop.idleList.Ring none (idle.map some)
  listed : ∀ conn, conn ∈ idle ↔ conn ∈ loop.live
  sorted : idle.Pairwise fun earlier later =>
    loop.lastActiveMs earlier ≤ loop.lastActiveMs later
  past : ∀ conn ∈ idle, loop.lastActiveMs conn ≤ clock
  mapped : ∀ fd conn, loop.fd2conn[fd]? = some (some conn) ↔ conn ∈ loop.live ∧ loop.fd conn = fd
  steady : ∀ conn ∈ loop.live, (loop.io conn).Steady

/-- Each result of `poll` still to be handled belongs to a live connection of its own, which
has requested what it reports. -/
structure EventLoop.Awaits (loop : EventLoop σ Conn) (results : List (Nat × Option Ready)) : Prop where
  distinct : (results.map Prod.fst).Nodup
  requested : ∀ result ∈ results, ∃ conn ∈ loop.live, loop.fd conn = result.1 ∧
    ∀ ready ∈ result.2, ready.Polled (loop.io conn)

/-- The connection at the back is active now, the others were earlier. -/
theorem touch_sorted {lastActiveMs : Addr → Nat} {idle : List Addr} {conn : Addr} {clock now : Nat}
    (unlisted : conn ∉ idle)
    (sorted : idle.Pairwise fun earlier later => lastActiveMs earlier ≤ lastActiveMs later)
    (past : ∀ other ∈ idle, lastActiveMs other ≤ clock) (later : clock ≤ now) :
    ((idle ++ [conn]).Pairwise fun earlier later =>
        Function.update lastActiveMs conn now earlier ≤ Function.update lastActiveMs conn now later) ∧
      ∀ other ∈ idle ++ [conn], Function.update lastActiveMs conn now other ≤ now := by
  have unchanged : ∀ other ∈ idle, Function.update lastActiveMs conn now other = lastActiveMs other := by
    intro other member
    apply Function.update_of_ne
    rintro rfl
    exact unlisted member
  have before : ∀ other ∈ idle, Function.update lastActiveMs conn now other ≤ now := by
    intro other member
    rw [unchanged other member]
    exact (past other member).trans later
  constructor
  · rw [List.pairwise_append]
    refine ⟨sorted.imp_of_mem fun {a b} left right less => ?_, List.pairwise_singleton _ _, ?_⟩
    · rwa [unchanged a left, unchanged b right]
    · intro a left b right
      rw [List.mem_singleton] at right
      rw [right, Function.update_self]
      exact before a left
  · intro other member
    rcases List.mem_append.mp member with old | new
    · exact before other old
    · rw [List.mem_singleton.mp new, Function.update_self]

/-- Growing the map leaves the connections where they are. -/
theorem fd2connResize_spec (fd2conn : List (Option Addr)) (fd : Nat) :
    fd < (fd2connResize fd2conn fd).length ∧ ∀ (slot : Nat) (conn : Addr),
      (fd2connResize fd2conn fd)[slot]? = some (some conn) ↔ fd2conn[slot]? = some (some conn) := by
  rw [fd2connResize]
  split
  next short =>
    refine ⟨by simp; omega, fun slot conn => ?_⟩
    by_cases inside : slot < fd2conn.length
    · rw [List.getElem?_append_left inside]
    · rw [List.getElem?_append_right (by omega), List.getElem?_replicate,
        List.getElem?_eq_none (by omega)]
      split <;> simp
  next long => exact ⟨by omega, fun _ _ => Iff.rfl⟩

namespace EventLoop.Invariant

variable {loop : EventLoop σ Conn} {clock now : Nat} {idle front back : List Addr} {conn : Addr}

theorem nodup (invariant : loop.Invariant clock idle) : idle.Nodup :=
  (List.nodup_cons.mp invariant.ring.distinct).2.of_map some

theorem later (invariant : loop.Invariant clock idle) (later : clock ≤ now) :
    loop.Invariant now idle :=
  { invariant with past := fun conn member => (invariant.past conn member).trans later }

/-- Equal descriptors belong to one connection. -/
theorem fd_injective (invariant : loop.Invariant clock idle) {other : Addr}
    (live : conn ∈ loop.live) (live' : other ∈ loop.live) (same : loop.fd conn = loop.fd other) :
    conn = other := by
  have slot := (invariant.mapped _ conn).mpr ⟨live, rfl⟩
  rw [same, (invariant.mapped _ other).mpr ⟨live', rfl⟩] at slot
  simpa using slot.symm

/-- `conn_destroy` takes a connection out of the list, the map and the memory. -/
theorem connDestroy (invariant : loop.Invariant clock (front ++ conn :: back)) :
    ∃ loop', MiniRedis.connDestroy loop conn = some loop' ∧
      loop'.Invariant clock (front ++ back) ∧ loop'.live = loop.live.erase conn ∧
      loop'.fd = loop.fd ∧ loop'.io = loop.io ∧ loop'.lastActiveMs = loop.lastActiveMs ∧
      loop'.db = loop.db := by
  have live : conn ∈ loop.live := (invariant.listed conn).mp (by simp)
  have slot := (invariant.mapped _ conn).mpr ⟨live, rfl⟩
  have inside := (List.getElem?_eq_some_iff.mp slot).1
  have ring := invariant.ring
  rw [List.map_append, List.map_cons] at ring
  obtain ⟨idleList, run, ring'⟩ := dlistDetach_spec ring
  have once : conn ∉ front ++ back := by
    have nodup := invariant.nodup
    rw [List.nodup_middle, List.nodup_cons] at nodup
    exact nodup.1
  have sublist : (front ++ back).Sublist (front ++ conn :: back) := by simp
  refine ⟨{ loop with
      fd2conn := loop.fd2conn.set (loop.fd conn) none
      idleList := idleList
      live := loop.live.erase conn }, ?_, ?_, rfl, rfl, rfl, rfl, rfl⟩
  · simp [MiniRedis.connDestroy, live, inside, run]
  · constructor
    · rwa [List.map_append]
    · intro other
      have listed := invariant.listed other
      simp only [Finset.mem_erase, ← listed, List.mem_append, List.mem_cons] at once ⊢
      grind
    · exact invariant.sorted.sublist sublist
    · exact fun other member => invariant.past other (sublist.subset member)
    · intro fd other
      simp only [List.getElem?_set, Finset.mem_erase]
      split
      next same =>
        subst same
        constructor
        · nofun
        · rintro ⟨⟨distinct, live'⟩, same⟩
          exact absurd (invariant.fd_injective live' live same) distinct
      next different =>
        rw [invariant.mapped]
        constructor
        · rintro ⟨live', rfl⟩
          exact ⟨⟨fun same => different (by rw [same]), live'⟩, rfl⟩
        · rintro ⟨⟨-, live'⟩, same⟩
          exact ⟨live', same⟩
    · exact fun other member => invariant.steady other (Finset.mem_of_mem_erase member)

/-- `handle_accept` puts a new connection at the back. -/
theorem handleAccept (invariant : loop.Invariant clock idle) (later : clock ≤ now)
    (fresh : conn ∉ loop.live) {connfd : Nat}
    (unopened : ∀ other ∈ loop.live, loop.fd other ≠ connfd) :
    ∃ loop', MiniRedis.handleAccept loop conn connfd now = some loop' ∧
      loop'.Invariant now (idle ++ [conn]) ∧ loop'.live = insert conn loop.live ∧
      ∀ other ∈ loop.live, loop'.fd other = loop.fd other ∧ loop'.io other = loop.io other := by
  have unlisted : conn ∉ idle := fun member => fresh ((invariant.listed conn).mp member)
  obtain ⟨idleList, run, ring⟩ := @dlistInsertBefore_spec _ _ _ _ _ (some conn) invariant.ring
    (by simpa using unlisted)
  have others : ∀ other ∈ loop.live, other ≠ conn := fun other live same => fresh (same ▸ live)
  have listedOthers : ∀ other ∈ idle, other ≠ conn := fun other member same =>
    unlisted (same ▸ member)
  obtain ⟨sorted, past⟩ := touch_sorted unlisted invariant.sorted invariant.past later
  obtain ⟨inside, grown⟩ := fd2connResize_spec loop.fd2conn connfd
  refine ⟨_, by simp [MiniRedis.handleAccept, handleAcceptWith, run]; rfl, ?_, rfl, ?_⟩
  · constructor
    · simpa using ring
    · intro other
      simp [invariant.listed, or_comm]
    · exact sorted
    · exact past
    · intro fd other
      by_cases new : other = conn
      · subst new
        simp only [List.getElem?_set, Finset.mem_insert_self, Function.update_self, true_and]
        split
        next same => simp [same]
        next different =>
          rw [grown, invariant.mapped]
          simp [fresh, different]
      · simp only [List.getElem?_set, Finset.mem_insert, new, false_or, Function.update_of_ne new]
        split
        next same =>
          subst same
          constructor
          · intro taken
            simp [Ne.symm new] at taken
          · rintro ⟨live, same⟩
            exact absurd same (unopened other live)
        next different => rw [grown, invariant.mapped]
    · intro other live
      rcases Finset.mem_insert.mp live with rfl | live
      · simpa using Conn.accepted_steady
      · simpa [others other live] using invariant.steady other live
  · intro other live
    exact ⟨Function.update_of_ne (others other live) .., Function.update_of_ne (others other live) ..⟩

/-- Moving a connection to the back as it becomes active. -/
theorem touch (invariant : loop.Invariant clock (front ++ conn :: back)) (later : clock ≤ now) :
    ∃ detached idleList, dlistDetach loop.idleList (some conn) = some detached ∧
      dlistInsertBefore detached none (some conn) = some idleList ∧
      EventLoop.Invariant { loop with
        lastActiveMs := Function.update loop.lastActiveMs conn now
        idleList := idleList } now (front ++ back ++ [conn]) := by
  have ring := invariant.ring
  rw [List.map_append, List.map_cons] at ring
  obtain ⟨detached, detach, ring⟩ := dlistDetach_spec ring
  have nodup := invariant.nodup
  rw [List.nodup_middle, List.nodup_cons] at nodup
  obtain ⟨unlisted, -⟩ := nodup
  obtain ⟨idleList, insert, ring⟩ := @dlistInsertBefore_spec _ _ _ _ _ (some conn) ring
    (by simpa using unlisted)
  have sublist : (front ++ back).Sublist (front ++ conn :: back) := by simp
  obtain ⟨sorted, past⟩ := touch_sorted unlisted (invariant.sorted.sublist sublist)
    (fun other member => invariant.past other (sublist.subset member)) later
  refine ⟨detached, idleList, detach, insert, ?_, ?_, sorted, past, invariant.mapped,
    invariant.steady⟩
  · simpa using ring
  · intro other
    rw [← invariant.listed other]
    simp only [List.mem_append, List.mem_cons, List.not_mem_nil, or_false]
    tauto

/-- A handler leaves its connection steady. -/
theorem setIo (invariant : loop.Invariant clock idle) {io : Conn} (steady : io.Steady) (db : σ) :
    EventLoop.Invariant { loop with io := Function.update loop.io conn io, db := db } clock idle :=
  { invariant with
    steady := fun other live => by
      by_cases same : other = conn
      · subst same
        simpa using steady
      · simpa [same] using invariant.steady other live }

/-- One ready connection is served without a failed assertion or a bad pointer. The frames
which its bytes complete are executed, and an error closes it. -/
theorem serveReady (invariant : loop.Invariant clock idle) (later : clock ≤ now)
    (live : conn ∈ loop.live) {ready : Ready} (polled : ready.Polled (loop.io conn))
    (exec : Executor σ) (read : ReadResult) (write write' : WriteResult) :
    ∃ loop' idle',
      MiniRedis.serveReady exec loop (loop.fd conn) now ready read write write' = some loop' ∧
      loop'.Invariant now idle' ∧
      (∀ other ∈ loop.live, other ≠ conn →
        other ∈ loop'.live ∧ loop'.fd other = loop.fd other ∧ loop'.io other = loop.io other) ∧
      (ready.pollErr → loop'.live = loop.live.erase conn) ∧
      ∃ cmds rest, Framed ((loop.io conn).incoming ++ if ready.pollIn then read.data else []) cmds
        rest ∧ loop'.db = (runRequests exec loop.db cmds).1 := by
  have slot := (invariant.mapped _ conn).mpr ⟨live, rfl⟩
  obtain ⟨front, back, rfl⟩ := List.append_of_mem ((invariant.listed conn).mpr live)
  obtain ⟨detached, idleList, detach, insert, touched⟩ := invariant.touch later
  obtain ⟨io, db, written, cmds, unsent, rest, run, serves, failed, steady⟩ :=
    handleReady_spec exec loop.db (invariant.steady conn live) polled read write write'
  cases io with
  | some io =>
      refine ⟨_, _, ?_, touched.setIo (steady io rfl).1 db, fun other live' distinct =>
        ⟨live', rfl, Function.update_of_ne distinct ..⟩, fun error => ?_, cmds, rest, serves.framed,
        serves.executed⟩
      · simp [MiniRedis.serveReady, serveReadyWith, slot, live, detach, insert, run]
      · cases failed error
  | none =>
      have served : EventLoop.Invariant { loop with
          lastActiveMs := Function.update loop.lastActiveMs conn now
          idleList := idleList
          db := db } now (front ++ back ++ conn :: []) := { touched with }
      obtain ⟨loop', destroy, invariant', live', fd', io', -, db'⟩ := served.connDestroy
      refine ⟨loop', _, ?_, invariant', fun other live'' distinct => ?_, fun _ => live', cmds, rest,
        serves.framed, db'.trans serves.executed⟩
      · simp [MiniRedis.serveReady, serveReadyWith, slot, live, detach, insert, run, destroy]
      · rw [live', fd', io']
        exact ⟨Finset.mem_erase.mpr ⟨distinct, live''⟩, rfl, rfl⟩

end EventLoop.Invariant

/-! ## Timers -/

/-- The test of `process_timers` on one connection. -/
def EventLoop.TimedOut (loop : EventLoop σ Conn) (now : Nat) (conn : Addr) : Bool :=
  loop.lastActiveMs conn + kIdleTimeoutMs ≤ now

/-- One round of the loop, which looks at the stalest connection. -/
theorem closeIdle_cons {loop : EventLoop σ Conn} {clock now : Nat} {conn : Addr} {rest : List Addr}
    (invariant : loop.Invariant clock (conn :: rest)) (later : clock ≤ now) (bound : now < 2 ^ 63) :
    loop.closeIdle now =
      if loop.lastActiveMs conn + kIdleTimeoutMs > now then some loop
      else (connDestroy loop conn).bind fun loop => loop.closeIdle now := by
  have empty := dlistEmpty_spec invariant.ring
  have first : loop.idleList.next none = some (some conn) := invariant.ring.first
  have live := (invariant.listed conn).mp List.mem_cons_self
  have active := invariant.past conn List.mem_cons_self
  have unwrapped : (loop.lastActiveMs conn + kIdleTimeoutMs) % 2 ^ 64 =
      loop.lastActiveMs conn + kIdleTimeoutMs := by
    apply Nat.mod_eq_of_lt
    rw [kIdleTimeoutMs]
    omega
  rw [EventLoop.closeIdle]
  simp only [empty, List.map_cons, List.isEmpty_cons, Bool.false_eq_true, if_false, first,
    Option.bind_eq_bind, Option.bind_some]
  rw [guard, if_pos live, Option.pure_def, Option.bind_some, unwrapped]

/-- The loop closes connections from the front up to the first which has not timed out. -/
theorem closeIdle_spec {loop : EventLoop σ Conn} {clock now : Nat} {idle : List Addr}
    (invariant : loop.Invariant clock idle) (later : clock ≤ now) (bound : now < 2 ^ 63) :
    ∃ loop', loop.closeIdle now = some loop' ∧
      loop'.Invariant clock (idle.dropWhile (loop.TimedOut now)) ∧ loop'.fd = loop.fd ∧
      loop'.lastActiveMs = loop.lastActiveMs ∧ loop'.db = loop.db := by
  induction idle generalizing loop with
  | nil =>
      have empty := dlistEmpty_spec invariant.ring
      exact ⟨loop, by simp [EventLoop.closeIdle, empty], invariant, rfl, rfl, rfl⟩
  | cons conn rest ih =>
      have step := closeIdle_cons invariant later bound
      by_cases expired : loop.lastActiveMs conn + kIdleTimeoutMs ≤ now
      · have front : loop.Invariant clock ([] ++ conn :: rest) := invariant
        obtain ⟨loop', destroy, invariant', -, fd, -, lastActive, db⟩ := front.connDestroy
        obtain ⟨last, run, invariant'', fd', lastActive', db'⟩ := ih invariant'
        have goes : loop.TimedOut now conn = true := by simpa [EventLoop.TimedOut] using expired
        have same : loop'.TimedOut now = loop.TimedOut now := by
          ext other
          rw [EventLoop.TimedOut, lastActive, EventLoop.TimedOut]
        refine ⟨last, ?_, ?_, fd'.trans fd, lastActive'.trans lastActive, db'.trans db⟩
        · rw [step, if_neg (Nat.not_lt.mpr expired), destroy]
          exact run
        · rw [List.dropWhile_cons, goes]
          rwa [same] at invariant''
      · refine ⟨loop, by rw [step, if_pos (Nat.not_le.mp expired)], ?_, rfl, rfl, rfl⟩
        have stays : loop.TimedOut now conn = false := by simpa [EventLoop.TimedOut] using expired
        rwa [List.dropWhile_cons, stays]

/-- In a sorted list the connections which have timed out are in front. -/
theorem mem_dropWhile_timedOut {loop : EventLoop σ Conn} {idle : List Addr}
    (sorted : idle.Pairwise fun earlier later =>
      loop.lastActiveMs earlier ≤ loop.lastActiveMs later) (now : Nat) (conn : Addr) :
    conn ∈ idle.dropWhile (loop.TimedOut now) ↔
      conn ∈ idle ∧ now < loop.lastActiveMs conn + kIdleTimeoutMs := by
  induction idle with
  | nil => simp
  | cons first rest ih =>
      obtain ⟨stalest, sorted⟩ := List.pairwise_cons.mp sorted
      by_cases expired : loop.TimedOut now first = true
      · rw [List.dropWhile_cons, if_pos expired, ih sorted, List.mem_cons]
        simp only [EventLoop.TimedOut, decide_eq_true_eq] at expired
        constructor
        · rintro ⟨member, open'⟩
          exact ⟨.inr member, open'⟩
        · rintro ⟨rfl | member, open'⟩
          · omega
          · exact ⟨member, open'⟩
      · rw [List.dropWhile_cons, if_neg expired]
        simp only [EventLoop.TimedOut, decide_eq_true_eq, Nat.not_le] at expired
        constructor
        · intro member
          refine ⟨member, ?_⟩
          rcases List.mem_cons.mp member with rfl | behind
          · exact expired
          · have later := stalest conn behind
            omega
        · exact And.left

/-! ## Polling -/

/-- The argument of `poll` for a connection. -/
def EventLoop.pollFd (loop : EventLoop σ Conn) (conn : Addr) : PollFd where
  fd := loop.fd conn
  pollIn := (loop.io conn).wantRead
  pollOut := (loop.io conn).wantWrite

theorem pollArgs_spec (loop : EventLoop σ Conn) {slots : List (Option Addr)}
    (live : ∀ conn, some conn ∈ slots → conn ∈ loop.live) :
    pollArgs loop slots = some ((slots.filterMap id).map loop.pollFd) := by
  induction slots with
  | nil => rfl
  | cons slot rest ih =>
      have inRest := ih fun conn member => live conn (List.mem_cons_of_mem _ member)
      cases slot with
      | none => simpa [pollArgs, pollArgsWith] using inRest
      | some conn =>
          rw [pollArgs] at inRest ⊢
          simp [pollArgsWith, inRest, live conn List.mem_cons_self, EventLoop.pollFd]

/-- The results come in the order of the arguments. -/
theorem Polls.matches {loop : EventLoop σ Conn} {conns : List Addr} {results : List (Nat × Option Ready)}
    (polls : Polls (conns.map loop.pollFd) results) :
    results.map Prod.fst = conns.map loop.fd ∧ ∀ result ∈ results, ∃ conn ∈ conns,
      loop.fd conn = result.1 ∧ ∀ ready ∈ result.2, ready.Polled (loop.io conn) := by
  induction conns generalizing results with
  | nil =>
      cases polls
      exact ⟨rfl, nofun⟩
  | cons conn rest ih =>
      cases polls with
      | cons answer behind =>
          obtain ⟨fds, requested⟩ := ih behind
          obtain ⟨fd, events⟩ := answer
          refine ⟨by rw [List.map_cons, List.map_cons, fds, fd]; rfl, fun result member => ?_⟩
          rcases List.mem_cons.mp member with rfl | member
          · exact ⟨conn, List.mem_cons_self, fd.symm, events⟩
          · obtain ⟨other, inRest, rest⟩ := requested result member
            exact ⟨other, List.mem_cons_of_mem _ inRest, rest⟩

namespace EventLoop.Invariant

variable {loop : EventLoop σ Conn} {clock : Nat} {idle : List Addr}

theorem mem_fd2conn (invariant : loop.Invariant clock idle) {conn : Addr} :
    some conn ∈ loop.fd2conn ↔ conn ∈ loop.live := by
  rw [List.mem_iff_getElem?]
  constructor
  · rintro ⟨fd, slot⟩
    exact ((invariant.mapped fd conn).mp slot).1
  · intro live
    exact ⟨_, (invariant.mapped _ conn).mpr ⟨live, rfl⟩⟩

/-- Every live connection is polled once, with the events it wants. -/
theorem pollArgs (invariant : loop.Invariant clock idle) :
    MiniRedis.pollArgs loop loop.fd2conn = some ((loop.fd2conn.filterMap id).map loop.pollFd) ∧
      ((loop.fd2conn.filterMap id).map loop.fd).Nodup := by
  refine ⟨pollArgs_spec loop fun conn member => invariant.mem_fd2conn.mp member, ?_⟩
  rw [List.Nodup, List.pairwise_map, List.pairwise_filterMap, List.pairwise_iff_getElem]
  intro i j insideI insideJ less conn atI other atJ same
  have slotI := List.getElem?_eq_getElem insideI
  have slotJ := List.getElem?_eq_getElem insideJ
  simp only [id] at atI atJ
  rw [atI, invariant.mapped] at slotI
  rw [atJ, invariant.mapped] at slotJ
  omega

/-- The results of `poll` are those of live connections. -/
theorem awaits (invariant : loop.Invariant clock idle) {args : List PollFd}
    (prepared : MiniRedis.pollArgs loop loop.fd2conn = some args)
    {results : List (Nat × Option Ready)} (polls : Polls args results) : loop.Awaits results := by
  obtain ⟨prepared', nodup⟩ := invariant.pollArgs
  rw [prepared] at prepared'
  cases prepared'
  obtain ⟨fds, requested⟩ := Polls.matches polls
  refine ⟨by rwa [fds], fun result member => ?_⟩
  obtain ⟨conn, listed, events⟩ := requested result member
  exact ⟨conn, invariant.mem_fd2conn.mp (by simpa using listed), events⟩

end EventLoop.Invariant

end MiniRedis
