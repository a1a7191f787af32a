import MiniRedis.Server.Request

/-!
# Connections and the event loop (`server.cpp`)

The buffers of a connection are byte queues, and `exec_cmd` is a function of the
database and the command. `none` is a failed assertion or a loop which does not end.
-/

namespace MiniRedis

/-- `Conn`, with the bytes which its buffers hold. The buffers themselves, and what a write behind
their blocks would do, are in `Buffers.Conn`. -/
structure Conn where
  wantRead : Bool := false
  wantWrite : Bool := false
  wantClose : Bool := false
  incoming : Bytes := []
  outgoing : Bytes := []

/-- The result of one `read`. -/
inductive ReadResult where
  | bytes (data : Bytes)
  | eof
  | again
  | error

/-- The result of one `write` to a socket which takes up to `room` bytes. -/
inductive WriteResult where
  | accepted (room : Nat)
  | again
  | error

/-- `exec_cmd`: the database it leaves and the value it appends. -/
abbrev Executor (σ : Type) := σ → List Bytes → σ × Bytes

variable {σ : Type}

/-- The connection which `handle_accept` creates. -/
def Conn.accepted : Conn := { wantRead := true }

/-- `handle_write`, with the bytes that the socket has taken, if `write` returns. That it may end
the process instead, by `SIGPIPE`, is in `Buffers.handleWriteCall`. -/
def handleWrite (conn : Conn) (result : WriteResult) : Option (Conn × Bytes) := do
  guard (conn.outgoing.length > 0)
  match result with
  | .again => return (conn, [])
  | .error => return ({ conn with wantClose := true }, [])
  | .accepted room =>
    let rv := min room conn.outgoing.length
    let written := conn.outgoing.take rv
    let conn := { conn with outgoing := conn.outgoing.drop rv }
    if conn.outgoing.length = 0 then
      return ({ conn with wantRead := true, wantWrite := false }, written)
    else return (conn, written)

/-- `try_one_request`; the flag is its result. -/
def tryOneRequest (exec : Executor σ) (conn : Conn) (db : σ) : Option (Bool × Conn × σ) :=
  if conn.incoming.length < 4 then some (false, conn, db)
  else
    let len := readU32At conn.incoming 0
    if len > kMaxMsg then some (false, { conn with wantClose := true }, db)
    else if 4 + len > conn.incoming.length then some (false, conn, db)
    else
      let request := (conn.incoming.drop 4).take len
      match parseReq request with
      | none => some (false, { conn with wantClose := true }, db)
      | some cmd => do
        let (out, headerPos) := responseBegin conn.outgoing
        let (db, value) := exec db cmd
        let out ← responseEnd (out ++ value) headerPos
        return (true, { conn with
          incoming := conn.incoming.drop (4 + len)
          outgoing := out }, db)

/-- The loop `while (try_one_request(conn))`. -/
def Conn.requestLoop (conn : Conn) (exec : Executor σ) (db : σ) : Option (Conn × σ) := do
  let (more, conn, db) ← tryOneRequest exec conn db
  if more then conn |>.requestLoop exec db else some (conn, db)
partial_fixpoint

/-- `handle_read`; it may write at once. -/
def handleRead (exec : Executor σ) (conn : Conn) (db : σ) (read : ReadResult)
    (write : WriteResult) : Option (Conn × σ × Bytes) :=
  match read with
  | .again => some (conn, db, [])
  | .error => some ({ conn with wantClose := true }, db, [])
  | .eof => some ({ conn with wantClose := true }, db, [])
  | .bytes data => do
    let conn := { conn with incoming := conn.incoming ++ data }
    let (conn, db) ← conn.requestLoop exec db
    if conn.outgoing.length > 0 then
      let conn := { conn with wantRead := false, wantWrite := true }
      let (conn, written) ← handleWrite conn write
      return (conn, db, written)
    else return (conn, db, [])

/-- The events which `poll` reports for a connection. -/
structure Ready where
  pollIn : Bool
  pollOut : Bool
  pollErr : Bool

/-- `poll` reports reading and writing only where they were asked for. -/
def Ready.Polled (ready : Ready) (conn : Conn) : Prop :=
  (ready.pollIn → conn.wantRead) ∧ (ready.pollOut → conn.wantWrite)

/-- The body of the event loop for one ready connection; it may end in `conn_destroy`. -/
def handleReady (exec : Executor σ) (conn : Conn) (db : σ) (ready : Ready) (read : ReadResult)
    (write write' : WriteResult) : Option (Option Conn × σ × Bytes) := do
  let (conn, db, written) ←
    if ready.pollIn then do
      guard conn.wantRead
      handleRead exec conn db read write
    else some (conn, db, [])
  let (conn, written') ←
    if ready.pollOut then do
      guard conn.wantWrite
      handleWrite conn write'
    else some (conn, [])
  if ready.pollErr ∨ conn.wantClose then return (none, db, written ++ written')
  else return (some conn, db, written ++ written')

/-! ## The reference -/

/-- The database and the responses after some commands, in order. -/
def runRequests (exec : Executor σ) (db : σ) : List (List Bytes) → σ × Bytes
  | [] => (db, [])
  | cmd :: cmds =>
    let (db, value) := exec db cmd
    let (db, out) := runRequests exec db cmds
    (db, frame (limitResponse value) ++ out)

theorem runRequests_append (exec : Executor σ) (db : σ) (front back : List (List Bytes)) :
    runRequests exec db (front ++ back) =
      ((runRequests exec (runRequests exec db front).1 back).1,
        (runRequests exec db front).2 ++ (runRequests exec (runRequests exec db front).1 back).2) := by
  induction front generalizing db with
  | nil => rfl
  | cons cmd cmds ih => simp [runRequests, ih]

/-! ## One request -/

/-- The three kinds of streams: an unfinished frame, the frame of a valid command, or neither. -/
theorem tryOneRequest_incomplete (exec : Executor σ) {conn : Conn} (db : σ)
    (waiting : Incomplete conn.incoming) : tryOneRequest exec conn db = some (false, conn, db) := by
  rw [incomplete_iff] at waiting
  rw [tryOneRequest]
  by_cases header : conn.incoming.length < 4
  · rw [if_pos header]
  · obtain ⟨small, short⟩ := waiting.resolve_left header
    rw [if_neg header]
    simp only [gt_iff_lt, Nat.not_lt.mpr small, if_false, short, if_true]

/-- The frame of a valid command is executed and its response appended. -/
theorem tryOneRequest_frame (exec : Executor σ) {conn : Conn} (db : σ) {cmd : List Bytes}
    {rest : Bytes} (valid : ValidRequest cmd) (stream : conn.incoming = requestFrame cmd ++ rest) :
    tryOneRequest exec conn db = some (true, { conn with
      incoming := rest
      outgoing := conn.outgoing ++ frame (limitResponse (exec db cmd).2) }, (exec db cmd).1) := by
  have field : readU32At conn.incoming 0 = (encodeRequest cmd).length := by
    rw [stream]
    exact readU32At_frame valid.size rest
  have header : (requestFrame cmd).length = 4 + (encodeRequest cmd).length := length_frame _
  have long : conn.incoming.length = 4 + (encodeRequest cmd).length + rest.length := by
    rw [stream, List.length_append, header]
  have payload : (conn.incoming.drop 4).take (encodeRequest cmd).length = encodeRequest cmd := by
    rw [stream, requestFrame, frame, List.append_assoc,
      List.drop_left' (LittleEndian.length_encode 4 _), List.take_left]
  have behind : conn.incoming.drop (4 + (encodeRequest cmd).length) = rest := by
    rw [stream, ← header, List.drop_left]
  have parsed := (parseReq_eq_some_iff valid.size).mpr ⟨rfl, valid⟩
  have ended := responseEnd_spec conn.outgoing (exec db cmd).2
  rw [tryOneRequest, if_neg (by omega)]
  simp only [field, gt_iff_lt, Nat.not_lt.mpr valid.size, if_false, payload, parsed, behind, ended]
  rw [if_neg (by omega)]
  rfl

/-- A stream which is oversized or malformed closes the connection. -/
theorem tryOneRequest_refused (exec : Executor σ) {conn : Conn} (db : σ)
    (waiting : ¬Incomplete conn.incoming)
    (frameless : ¬∃ cmd rest, ValidRequest cmd ∧ conn.incoming = requestFrame cmd ++ rest) :
    tryOneRequest exec conn db = some (false, { conn with wantClose := true }, db) ∧
      (Oversized conn.incoming ∨ Malformed conn.incoming) := by
  rw [incomplete_iff, not_or, not_and_or] at waiting
  obtain ⟨header, size⟩ := waiting
  rw [tryOneRequest, if_neg header]
  by_cases large : kMaxMsg < readU32At conn.incoming 0
  · exact ⟨by simp [large], .inl ⟨by omega, large⟩⟩
  · have small := Nat.not_lt.mp large
    obtain ⟨payload, rest, payloadEq, -, length, split⟩ :=
      @exists_frame conn.incoming (by omega) (by omega)
    have undecodable : ¬∃ cmd, ValidRequest cmd ∧ payload = encodeRequest cmd := by
      rintro ⟨cmd, valid, rfl⟩
      exact frameless ⟨cmd, rest, valid, split⟩
    have fails : parseReq payload = none := by
      cases parsed : parseReq payload with
      | none => rfl
      | some cmd =>
          obtain ⟨same, valid⟩ := (parseReq_eq_some_iff (by omega)).mp parsed
          exact absurd ⟨cmd, valid, same⟩ undecodable
    refine ⟨?_, .inr ⟨payload, rest, by omega, split, undecodable⟩⟩
    simp only [gt_iff_lt, large, if_false, ← payloadEq, fails]
    rw [if_neg (by omega)]

end MiniRedis
