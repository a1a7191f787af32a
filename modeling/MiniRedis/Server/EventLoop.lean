import MiniRedis.Common.List
import MiniRedis.Server.State
import MiniRedis.Server.Connection

/-!
# The event loop of `main` (`server.cpp`)

A `Conn` object is named by its address, which also names its `idle_node`. `none` is a
failed assertion, a null pointer or a pointer to an object which has been deleted.
Clock readings are milliseconds since boot, far below `2 ^ 63`.
-/

namespace MiniRedis

variable {σ κ : Type}

/-- `GlobalData`, and the fields of every `Conn`; `io` holds the intentions and the buffers. -/
structure EventLoop (σ κ : Type) where
  fd2conn : List (Option Addr) := []
  /-- The node `none` is the dummy head `g_data.idle_list`. -/
  idleList : DList (Option Addr) := dlistInit {} none
  fd : Addr → Nat
  io : Addr → κ
  lastActiveMs : Addr → Nat
  live : Finset Addr := ∅
  db : σ

/-- The same connections beside another database. -/
def EventLoop.withDb {τ : Type} (loop : EventLoop σ κ) (db : τ) : EventLoop τ κ where
  fd2conn := loop.fd2conn
  idleList := loop.idleList
  fd := loop.fd
  io := loop.io
  lastActiveMs := loop.lastActiveMs
  live := loop.live
  db := db

def kIdleTimeoutMs : Nat := 60000

/-- The conditional `fd2conn.resize(fd + 1)`; new pointers are null. -/
def fd2connResize (fd2conn : List (Option Addr)) (fd : Nat) : List (Option Addr) :=
  if fd2conn.length ≤ fd then fd2conn ++ List.replicate (fd + 1 - fd2conn.length) none
  else fd2conn

/-- `handle_accept` once `accept` has returned `connfd`, with the object at the address
which `new` returned and the fields which it starts with. -/
def handleAcceptWith (accepted : κ) (loop : EventLoop σ κ) (conn : Addr) (connfd nowMs : Nat) :
    Option (EventLoop σ κ) := do
  let idleList ← dlistInsertBefore loop.idleList none (some conn)
  return {
    fd2conn := (fd2connResize loop.fd2conn connfd).set connfd (some conn)
    idleList := idleList
    fd := Function.update loop.fd conn connfd
    io := Function.update loop.io conn accepted
    lastActiveMs := Function.update loop.lastActiveMs conn nowMs
    live := insert conn loop.live
    db := loop.db }

def handleAccept : EventLoop σ Conn → Addr → Nat → Nat → Option (EventLoop σ Conn) :=
  handleAcceptWith .accepted

def connDestroy (loop : EventLoop σ κ) (conn : Addr) : Option (EventLoop σ κ) := do
  guard (conn ∈ loop.live ∧ loop.fd conn < loop.fd2conn.length)
  let idleList ← dlistDetach loop.idleList (some conn)
  return { loop with
    fd2conn := loop.fd2conn.set (loop.fd conn) none
    idleList := idleList
    live := loop.live.erase conn }

/-- `struct pollfd`, with the requested events. -/
structure PollFd where
  fd : Nat
  pollIn : Bool
  pollOut : Bool

/-- The loop which prepares the arguments of `poll` behind the listening socket. -/
def pollArgsWith (wantRead wantWrite : κ → Bool) (loop : EventLoop σ κ) :
    List (Option Addr) → Option (List PollFd)
  | [] => some []
  | none :: rest => pollArgsWith wantRead wantWrite loop rest
  | some conn :: rest => do
    guard (conn ∈ loop.live)
    let args ← pollArgsWith wantRead wantWrite loop rest
    return ⟨loop.fd conn, wantRead (loop.io conn), wantWrite (loop.io conn)⟩ :: args

def pollArgs : EventLoop σ Conn → List (Option Addr) → Option (List PollFd) :=
  pollArgsWith Conn.wantRead Conn.wantWrite

/-- The body of the loop over the ready connections, around the handlers of the connection. -/
def serveReadyWith (handle : κ → σ → Option (Option κ × σ × Bytes)) (loop : EventLoop σ κ)
    (fd nowMs : Nat) : Option (EventLoop σ κ) := do
  let slot ← loop.fd2conn[fd]?
  let conn ← slot
  guard (conn ∈ loop.live)
  let idleList ← dlistDetach loop.idleList (some conn)
  let idleList ← dlistInsertBefore idleList none (some conn)
  let loop := { loop with
    lastActiveMs := Function.update loop.lastActiveMs conn nowMs
    idleList := idleList }
  let (io, db, _) ← handle (loop.io conn) loop.db
  match io with
  | some io => return { loop with io := Function.update loop.io conn io, db := db }
  | none => connDestroy { loop with db := db } conn

def serveReady (exec : Executor σ) (loop : EventLoop σ Conn) (fd nowMs : Nat) (ready : Ready)
    (read : ReadResult) (write write' : WriteResult) : Option (EventLoop σ Conn) :=
  serveReadyWith (fun io db => handleReady exec io db ready read write write') loop fd nowMs

/-- The loop of `process_timers` over the idle connections. -/
def EventLoop.closeIdle (loop : EventLoop σ κ) (nowMs : Nat) : Option (EventLoop σ κ) :=
  if dlistEmpty loop.idleList none then some loop
  else do
    let node ← loop.idleList.next none
    let conn ← node
    guard (conn ∈ loop.live)
    let nextMs := (loop.lastActiveMs conn + kIdleTimeoutMs) % 2 ^ 64
    if nextMs > nowMs then some loop
    else do
      let loop ← connDestroy loop conn
      loop |>.closeIdle nowMs
partial_fixpoint

/-! ## Runs -/

/-- `poll` answers for each argument in turn: no event, or events of which reading and
writing were requested. -/
def Polls (args : List PollFd) (results : List (Nat × Option Ready)) : Prop :=
  List.Forall₂ (fun arg result => result.1 = arg.fd ∧ ∀ ready ∈ result.2,
    (ready.pollIn → arg.pollIn) ∧ (ready.pollOut → arg.pollOut)) args results

/-- Where `main` is in its loop: at the top, behind `poll`, or with some results of `poll`
left to handle. -/
inductive LoopPhase where
  | top
  | polled (results : List (Nat × Option Ready))
  | serving (results : List (Nat × Option Ready))

/-- The states of any run with the last clock reading. Commands are executed by any function
of the database; expiry may leave any database. -/
inductive LoopRun : EventLoop σ Conn → LoopPhase → Nat → Prop where
  | start {fd : Addr → Nat} {io : Addr → Conn} {lastActiveMs : Addr → Nat} {db : σ} {clock : Nat}
      (bound : clock < 2 ^ 63) :
      LoopRun { fd := fd, io := io, lastActiveMs := lastActiveMs, db := db } .top clock
  | poll {loop : EventLoop σ Conn} {clock : Nat} (before : LoopRun loop .top clock) {args : List PollFd}
      (prepared : pollArgs loop loop.fd2conn = some args) {results : List (Nat × Option Ready)}
      (polls : Polls args results) : LoopRun loop (.polled results) clock
  /-- The listening socket is not ready, or `accept` fails. -/
  | pass {loop : EventLoop σ Conn} {clock : Nat} {results : List (Nat × Option Ready)}
      (before : LoopRun loop (.polled results) clock) : LoopRun loop (.serving results) clock
  | accept {loop loop' : EventLoop σ Conn} {clock now : Nat} {results : List (Nat × Option Ready)}
      (before : LoopRun loop (.polled results) clock) (later : clock ≤ now) (bound : now < 2 ^ 63)
      {conn : Addr} (fresh : conn ∉ loop.live) {connfd : Nat}
      (unopened : ∀ other ∈ loop.live, loop.fd other ≠ connfd)
      (run : handleAccept loop conn connfd now = some loop') : LoopRun loop' (.serving results) now
  | quiet {loop : EventLoop σ Conn} {clock fd : Nat} {results : List (Nat × Option Ready)}
      (before : LoopRun loop (.serving ((fd, none) :: results)) clock) :
      LoopRun loop (.serving results) clock
  | serve {loop loop' : EventLoop σ Conn} {clock now fd : Nat} {ready : Ready}
      {results : List (Nat × Option Ready)}
      (before : LoopRun loop (.serving ((fd, some ready) :: results)) clock) (later : clock ≤ now)
      (bound : now < 2 ^ 63) (exec : Executor σ) (read : ReadResult) (write write' : WriteResult)
      (run : serveReady exec loop fd now ready read write write' = some loop') :
      LoopRun loop' (.serving results) now
  | timers {loop loop' : EventLoop σ Conn} {clock now : Nat}
      (before : LoopRun loop (.serving []) clock) (later : clock ≤ now) (bound : now < 2 ^ 63)
      (run : loop.closeIdle now = some loop') (db : σ) :
      LoopRun { loop' with db := db } .top now

end MiniRedis
