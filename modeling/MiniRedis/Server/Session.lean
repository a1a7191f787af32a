import MiniRedis.Server.Serving

/-!
# A connection over whole runs

The bytes received so far determine what has been executed and what is owed to the
client, whatever the reads and writes that carried them.
-/

namespace MiniRedis

variable {σ : Type}

/-! ## What a connection has done -/

/-- The executed commands are those of the frames received, in order, and the bytes sent
and unsent are their responses. -/
structure Served (exec : Executor σ) (initial db : σ) (received sent unsent : Bytes)
    (cmds : List (List Bytes)) (rest : Bytes) : Prop where
  framed : Framed received cmds rest
  executed : db = (runRequests exec initial cmds).1
  answered : sent ++ unsent = (runRequests exec initial cmds).2

variable {exec : Executor σ} {initial db : σ} {received sent : Bytes} {cmds : List (List Bytes)}
  {conn : Conn}

/-- A round continues what the connection has done. -/
theorem Served.serve (served : Served exec initial db received sent conn.outgoing cmds conn.incoming)
    {db' : σ} {data written unsent rest : Bytes} {more : List (List Bytes)}
    (serves : Serves exec conn db db' data written unsent more rest) :
    Served exec initial db' (received ++ data) (sent ++ written) unsent (cmds ++ more) rest := by
  have total := runRequests_append exec initial cmds more
  rw [← served.executed] at total
  constructor
  · exact served.framed.append serves.framed
  · rw [total, serves.executed]
  · rw [total, ← served.answered, List.append_assoc, List.append_assoc, serves.answered]

/-! ## Runs -/

/-- A connection, `none` once it is closed, with the database and the bytes which its
socket has passed in each direction. -/
structure Session (σ : Type) where
  conn : Option Conn
  db : σ
  received : Bytes
  sent : Bytes

/-- A `read` into the buffer of `handle_read` returns between 1 and 65536 bytes. -/
def ReadResult.Chunk (read : ReadResult) : Prop :=
  ∀ data, read = .bytes data → 1 ≤ data.length ∧ data.length ≤ 64 * 1024

/-- The runs of one connection: it is accepted, served whenever `poll` reports it, and may
be closed as idle. -/
inductive SessionRun (exec : Executor σ) (initial : σ) : Session σ → Prop
  | accept : SessionRun exec initial ⟨some .accepted, initial, [], []⟩
  | serve {session : Session σ} {conn : Conn} {ready : Ready} {read : ReadResult}
      {write write' : WriteResult} {conn' : Option Conn} {db' : σ} {written : Bytes}
      (before : SessionRun exec initial session) (live : session.conn = some conn)
      (polled : ready.Polled conn) (chunk : read.Chunk)
      (run : handleReady exec conn session.db ready read write write' = some (conn', db', written)) :
      SessionRun exec initial
        ⟨conn', db', session.received ++ if ready.pollIn then read.data else [],
          session.sent ++ written⟩
  | idle {session : Session σ} (before : SessionRun exec initial session) :
      SessionRun exec initial { session with conn := none }

/-- What holds of the commands received and the rest in every state of a run. -/
structure Session.Accounted (exec : Executor σ) (initial : σ) (session : Session σ)
    (cmds : List (List Bytes)) (rest unsent : Bytes) : Prop where
  served : Served exec initial session.db session.received session.sent unsent cmds rest
  live : ∀ conn, session.conn = some conn →
    conn.Steady ∧ conn.outgoing = unsent ∧ conn.incoming = rest

theorem Incomplete.length_lt {stream : Bytes} (waiting : Incomplete stream) :
    stream.length < 4 + kMaxMsg := by
  obtain ⟨payload, more, small, nonempty, whole⟩ := waiting
  have positive := List.length_pos_of_ne_nil nonempty
  have length := congrArg List.length whole
  rw [List.length_append, length_frame] at length
  omega

theorem Served.start (exec : Executor σ) (initial : σ) : Served exec initial initial [] [] [] [] [] where
  framed := ⟨rfl, by simp, .inl incomplete_nil⟩
  executed := rfl
  answered := rfl

theorem SessionRun.accounted {session : Session σ} (run : SessionRun exec initial session) :
    ∃ cmds rest unsent, session.Accounted exec initial cmds rest unsent := by
  induction run with
  | accept =>
      refine ⟨[], [], [], .start exec initial, fun conn live => ?_⟩
      obtain rfl := Option.some.inj live
      exact ⟨Conn.accepted_steady, rfl, rfl⟩
  | @serve session conn ready read write write' conn' db' written before live polled chunk run ih =>
      obtain ⟨cmds, rest, unsent, served, states⟩ := ih
      obtain ⟨steady, rfl, rfl⟩ := states conn live
      obtain ⟨next, db, bytes, more, unsent', rest', run', serves, -, steady'⟩ :=
        handleReady_spec exec session.db steady polled read write write'
      rw [run] at run'
      simp only [Option.some.injEq, Prod.mk.injEq] at run'
      obtain ⟨rfl, rfl, rfl⟩ := run'
      exact ⟨cmds ++ more, rest', unsent', served.serve serves, steady'⟩
  | idle before ih =>
      obtain ⟨cmds, rest, unsent, served, states⟩ := ih
      exact ⟨cmds, rest, unsent, served, fun conn live => nomatch live⟩

/-- However the stream is cut into reads and the responses into writes, exactly the commands
framed in front of the first bad frame have run, and their responses are sent or pending.
As `exec` is any function, the database may also be a record of the executed commands. -/
theorem session_reachable {session : Session σ} (run : SessionRun exec initial session) :
    ∃ cmds rest, Framed session.received cmds rest ∧
      (∀ cmds' rest', Framed session.received cmds' rest' → cmds' = cmds ∧ rest' = rest) ∧
      session.db = (runRequests exec initial cmds).1 ∧
      session.sent <+: (runRequests exec initial cmds).2 ∧
      ∀ conn, session.conn = some conn →
        session.sent ++ conn.outgoing = (runRequests exec initial cmds).2 ∧
        conn.incoming = rest ∧ Incomplete rest ∧
        (conn.wantRead = true → session.sent = (runRequests exec initial cmds).2 ∧
          conn.incoming.length < 4 + kMaxMsg) ∧
        ∀ ready : Ready, ready.Polled conn → ∀ read write write',
          ∃ result, handleReady exec conn session.db ready read write write' = some result := by
  obtain ⟨cmds, rest, unsent, served, live⟩ := run.accounted
  refine ⟨cmds, rest, served.framed, fun _ _ framed' => framed'.unique served.framed,
    served.executed, ⟨unsent, served.answered⟩, fun conn same => ?_⟩
  obtain ⟨steady, rfl, rfl⟩ := live conn same
  refine ⟨served.answered, rfl, steady.waiting, fun reads => ⟨?_, steady.waiting.length_lt⟩, ?_⟩
  · have quiet := steady.alternates.reading.mp reads
    rw [← served.answered, quiet, List.append_nil]
  · intro ready polled read write write'
    obtain ⟨conn', db', written, _, _, _, progress, -⟩ :=
      handleReady_spec exec session.db steady polled read write write'
    exact ⟨_, progress⟩

/-- One read brings the frame of `keys`; it is executed once. -/
theorem session_reachable_keys :
    ∃ session : Session Nat, SessionRun (fun count _ => (count + 1, [])) 0 session ∧
      session.received = requestFrame [ascii "keys"] ∧ session.db = 1 := by
  have valid : ValidRequest [ascii "keys"] := ⟨by decide, by decide⟩
  have polled : (⟨true, false, false⟩ : Ready).Polled .accepted := ⟨fun _ => rfl, nofun⟩
  have chunk : (ReadResult.bytes (requestFrame [ascii "keys"])).Chunk := by
    intro data same
    obtain rfl := ReadResult.bytes.inj same
    decide
  obtain ⟨conn', db', written, _, _, _, run, -⟩ := handleReady_spec
    (fun count _ => (count + 1, [])) 0 Conn.accepted_steady polled
    (.bytes (requestFrame [ascii "keys"])) .again .again
  have reached := SessionRun.serve .accept rfl polled chunk run
  refine ⟨_, reached, rfl, ?_⟩
  obtain ⟨cmds, rest, -, unique, executed, -⟩ := session_reachable reached
  have framed : Framed (requestFrame [ascii "keys"]) [[ascii "keys"]] [] :=
    ⟨rfl, by simpa using valid, .inl incomplete_nil⟩
  obtain ⟨rfl, -⟩ := unique _ _ framed
  exact executed

end MiniRedis
