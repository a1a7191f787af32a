import MiniRedis.Server.Buffers

/-!
# How much a connection holds

A connection is not read while a response is pending, so one read bounds what it can have asked
for without taking the answers, and one frame bounds what it can have sent without being answered.
-/

namespace MiniRedis

variable {σ : Type}

/-! ## The commands in one read -/

/-- A frame has its own size and the number of its strings in front. -/
theorem le_length_requestFrame (cmd : List Bytes) : 8 ≤ (requestFrame cmd).length := by
  rw [requestFrame, length_frame, encodeRequest, List.length_append, LittleEndian.length_encode]
  omega

/-- A request has eight bytes at least. -/
theorem le_length_flatMap_requestFrame (cmds : List (List Bytes)) :
    8 * cmds.length ≤ (cmds.flatMap requestFrame).length := by
  induction cmds with
  | nil => simp
  | cons cmd cmds ih =>
      have first := le_length_requestFrame cmd
      rw [List.flatMap_cons, List.length_append, List.length_cons]
      omega

/-- The frame in front of an unfinished one is not finished without new bytes, and the others are
made of new bytes alone. -/
theorem Framed.count {incoming data rest : Bytes} {cmds : List (List Bytes)}
    (framed : Framed (incoming ++ data) cmds rest) (waiting : Incomplete incoming) :
    8 * cmds.length ≤ data.length + 7 := by
  cases cmds with
  | nil => simp
  | cons cmd cmds =>
      have longer : incoming.length < (requestFrame cmd).length := by
        by_contra short
        have split := framed.split
        rw [List.flatMap_cons, List.append_assoc] at split
        obtain ⟨tail, same⟩ := List.prefix_of_prefix_length_le
          (split ▸ List.prefix_append (requestFrame cmd) _) (List.prefix_append incoming data)
          (Nat.not_lt.mp short)
        exact not_stop_requestFrame (framed.valid cmd List.mem_cons_self) tail
          (.inl (same ▸ waiting))
      have whole := congrArg List.length framed.split
      have others := le_length_flatMap_requestFrame cmds
      simp only [List.flatMap_cons, List.length_append, List.length_cons] at whole ⊢
      omega

/-- A response has a frame at most. -/
theorem length_runRequests_le (exec : Executor σ) (db : σ) (cmds : List (List Bytes)) :
    (runRequests exec db cmds).2.length ≤ cmds.length * (4 + kMaxMsg) := by
  induction cmds generalizing db with
  | nil => simp [runRequests]
  | cons cmd cmds ih =>
      have first := limitResponse_length (exec db cmd).2
      have others := ih (exec db cmd).1
      rw [runRequests, List.length_append, length_frame, List.length_cons, Nat.succ_mul]
      omega

/-! ## The responses which are pending -/

variable {exec : Executor σ} {initial : σ} {session : Session σ}

/-- The responses which are not sent completely belong to the last commands, which have come in
one read. -/
theorem SessionRun.backlog (run : SessionRun exec initial session) :
    ∃ front pending rest, Framed session.received (front ++ pending) rest ∧
      (runRequests exec initial front).2 <+: session.sent ∧ pending.length ≤ 8 * 1024 := by
  induction run with
  | accept =>
      exact ⟨[], [], [], ⟨rfl, by simp, .inl incomplete_nil⟩, by simp [runRequests], by simp⟩
  | @serve session conn ready read write write' conn' db' written before live polled chunk run ih =>
      obtain ⟨cmds, rest, unsent, served, states⟩ := before.accounted
      obtain ⟨steady, rfl, rfl⟩ := states conn live
      obtain ⟨_, _, _, more, unsent', rest', run', serves, -, -⟩ :=
        handleReady_spec exec session.db steady polled read write write'
      rw [run] at run'
      cases run'
      have framed := served.framed.append serves.framed
      cases reads : ready.pollIn with
      | true =>
          -- nothing was pending
          have quiet := steady.alternates.reading.mp (polled.1 reads)
          have answered := served.answered
          rw [quiet, List.append_nil] at answered
          refine ⟨cmds, more, rest', by simpa [reads] using framed, ?_, ?_⟩
          · rw [← answered]
            exact List.prefix_append ..
          · have count := serves.framed.count steady.waiting
            cases read with
            | bytes data =>
                have most := (chunk data rfl).2
                simp only [reads, if_true, ReadResult.data] at count
                omega
            | eof | again | error =>
                simp only [reads, if_true, ReadResult.data, List.length_nil] at count
                omega
      | false =>
          obtain ⟨front, pending, rest, framed', sent, few⟩ := ih
          refine ⟨front, pending, rest, by simpa using framed', ?_, few⟩
          exact sent.trans (List.prefix_append ..)
  | idle before ih => exact ih

/-! ## The blocks -/

variable {buf buf' : Buffer} {n : Nat}

/-- Doubling stops when there is room. -/
theorem growCapacity_le (newCapacity needed : Nat) :
    growCapacity newCapacity needed ≤ max newCapacity (2 * needed) := by
  induction newCapacity using growCapacity.induct needed with
  | case1 newCapacity short ih =>
      rw [growCapacity, if_pos short]
      omega
  | case2 newCapacity large =>
      rw [growCapacity, if_neg large]
      exact le_max_left ..

/-- A block grows to less than twice of what it is to hold. -/
theorem bufMakeRoom_capacity (run : bufMakeRoom buf n = some buf') :
    buf'.capacity ≤ max (max 64 buf.capacity) (2 * (buf.size + n)) := by
  rw [bufMakeRoom] at run
  split at run
  next =>
    dsimp only at run
    split at run
    next =>
      obtain ⟨block, copied, same⟩ := Option.bind_eq_some_iff.mp run
      cases same
      have length := length_copyAt copied
      simp only [Buffer.capacity, length]
      omega
    next grows =>
      cases run
      have bound := growCapacity_le (if buf.capacity = 0 then 64 else buf.capacity * 2)
          (buf.size + n)
      have doubled : (if buf.capacity = 0 then 64 else buf.capacity * 2) ≤
          max 64 (2 * (buf.size + n)) := by
        split <;> omega
      simp only [Buffer.capacity, reallocBlock, List.length_append, List.length_take,
        List.length_replicate] at bound doubled ⊢
      omega
  next =>
    cases run
    omega

/-- `buf_append` reallocates only a block which is too small for the data. -/
theorem bufAppend_capacity {data : Bytes} (run : bufAppend buf data = some buf') :
    buf'.capacity ≤ max (max 64 buf.capacity) (2 * (buf.size + data.length)) := by
  rw [bufAppend] at run
  split at run
  next =>
    cases run
    omega
  next =>
    obtain ⟨room, makes, run⟩ := Option.bind_eq_some_iff.mp run
    obtain ⟨block, copied, same⟩ := Option.bind_eq_some_iff.mp run
    cases same
    have bound := bufMakeRoom_capacity makes
    have length := length_copyAt copied
    simpa only [Buffer.capacity, length] using bound

/-- `buf_consume` does not reallocate. -/
theorem bufConsume_block (run : bufConsume buf n = some buf') : buf'.block = buf.block := by
  obtain ⟨_, -, run⟩ := Option.bind_eq_some_iff.mp run
  split at run <;> cases run <;> rfl

end MiniRedis

namespace MiniRedis.Buffers

variable {σ : Type}

section Handlers

variable {exec : Executor σ} {conn conn' : Conn} {db db' : σ}

/-- So a request leaves the block of `incoming` as it is. -/
theorem tryOneRequest_block {more : Bool}
    (run : tryOneRequest exec conn db = some (more, conn', db')) :
    conn'.incoming.block = conn.incoming.block := by
  rw [tryOneRequest] at run
  split at run
  · cases run
    rfl
  · dsimp only at run
    split at run
    · cases run
      rfl
    · split at run
      · cases run
        rfl
      · split at run
        · cases run
          rfl
        · obtain ⟨⟨begun, headerPos⟩, -, run⟩ := Option.bind_eq_some_iff.mp run
          obtain ⟨written, -, run⟩ := Option.bind_eq_some_iff.mp run
          obtain ⟨ended, -, run⟩ := Option.bind_eq_some_iff.mp run
          obtain ⟨incoming, consumed, run⟩ := Option.bind_eq_some_iff.mp run
          cases run
          exact bufConsume_block consumed

/-- Requests are taken from the front of the block; nothing moves. -/
theorem requestLoop_block (run : conn.requestLoop exec db = some (conn', db')) :
    conn'.incoming.block = conn.incoming.block := by
  have kept : ∀ (conn : Conn) (db : σ) (result : Conn × σ),
      conn.requestLoop exec db = some result → result.1.incoming.block = conn.incoming.block := by
    apply Conn.requestLoop.partial_correctness
    intro loop ih conn db result run
    obtain ⟨⟨more, middle, db₁⟩, first, run⟩ := Option.bind_eq_some_iff.mp run
    have same := tryOneRequest_block first
    cases more with
    | true => exact (ih middle db₁ result run).trans same
    | false =>
        cases run
        exact same
  exact kept conn db _ run

/-- The block grows with what has been read alone. -/
theorem handleRead_capacity {read : ReadResult} {write : WriteResult} {written : Bytes}
    (run : handleRead exec conn db read write = some (conn', db', written)) :
    conn'.incoming.capacity ≤ max (max 64 conn.incoming.capacity)
      (2 * (conn.incoming.size + read.data.length)) := by
  cases read with
  | again | error | eof =>
      cases run
      simp
  | bytes data =>
      obtain ⟨incoming, appended, run⟩ := Option.bind_eq_some_iff.mp run
      obtain ⟨⟨looped, db₁⟩, loop, run⟩ := Option.bind_eq_some_iff.mp run
      have grown := bufAppend_capacity appended
      have same := requestLoop_block loop
      rw [Buffer.capacity, ← same] at grown
      dsimp only at run
      split at run
      · obtain ⟨⟨wrote, bytes⟩, writes, run⟩ := Option.bind_eq_some_iff.mp run
        cases run
        rw [(handleWrite_keeps writes).1]
        exact grown
      · cases run
        exact grown

/-- A round lets the block grow only for the bytes which it reads. -/
theorem handleReady_capacity {ready : Ready} {read : ReadResult} {write write' : WriteResult}
    {written : Bytes}
    (run : handleReady exec conn db ready read write write' = some (some conn', db', written)) :
    conn'.incoming.capacity ≤ max (max 64 conn.incoming.capacity)
      (2 * (conn.incoming.size + read.data.length)) := by
  obtain ⟨middle, last, first, second, closes⟩ := handleReady_cases run
  obtain rfl : last = conn' := by
    split at closes
    · cases closes
    · exact (Option.some.inj closes).symm
  have same : last.incoming = middle.incoming := by
    obtain ⟨-, out, second⟩ | ⟨-, rfl⟩ := second
    · exact (handleWrite_keeps second).1
    · rfl
  rw [same]
  obtain ⟨-, out, first⟩ | ⟨-, rfl, -⟩ := first
  · exact handleRead_capacity first
  · omega

end Handlers

/-! ## Every connection -/

variable {exec : Executor σ} {values : MiniRedis.Executor σ} {initial : σ} {session : Session σ}

/-- The queues which the buffers of an open connection hold. -/
theorem SessionRun.steady (run : SessionRun exec initial session) (appends : exec.Appends values)
    {conn : Conn} (live : session.conn = some conn) :
    ∃ queues : MiniRedis.Conn, MiniRedis.SessionRun values initial
        ⟨some queues, session.db, session.received, session.sent⟩ ∧
      conn.Matches queues ∧ queues.Steady := by
  obtain ⟨queues, run', matched⟩ := run.queues appends
  rw [live] at matched
  cases matched with
  | @some _ queues matched =>
      obtain ⟨_, _, _, -, states⟩ := run'.accounted
      exact ⟨queues, run', matched, (states queues rfl).1⟩

/-- What waits is not a whole request. -/
theorem SessionRun.size_lt (run : SessionRun exec initial session) (appends : exec.Appends values)
    {conn : Conn} (live : session.conn = some conn) : conn.incoming.size < 4 + kMaxMsg := by
  obtain ⟨queues, -, matched, steady⟩ := run.steady appends live
  rw [matched.incoming.size]
  exact steady.waiting.length_lt

/-- The block has grown for less than a request and one read. -/
theorem SessionRun.capacity_lt (run : SessionRun exec initial session)
    (appends : exec.Appends values) {conn : Conn} (live : session.conn = some conn) :
    conn.incoming.capacity < 2 * (4 + kMaxMsg + 64 * 1024) := by
  induction run generalizing conn with
  | accept =>
      cases live
      decide
  | @serve session conn ready read write write' conn' db' written before live' reads writes chunk run ih =>
      cases live
      have small := before.size_lt appends live'
      have bound := ih live'
      have grown := handleReady_capacity run
      have most : read.data.length ≤ 64 * 1024 := by
        cases read with
        | bytes data => exact (chunk data rfl).2
        | again | error | eof => exact Nat.zero_le _
      omega
  | idle before ih => cases live

/-- An open connection holds less than one frame of requests, in a block of less than twice a
frame and a read; and at most one response for each eight bytes of one read. These are the
responses to the last commands, and those to all commands before have been sent. -/
theorem session_bounded (run : SessionRun exec initial session) (appends : exec.Appends values)
    {conn : Conn} (live : session.conn = some conn) :
    conn.incoming.size < 4 + kMaxMsg ∧
    conn.incoming.capacity < 2 * (4 + kMaxMsg + 64 * 1024) ∧
    ∃ front pending, Framed session.received (front ++ pending) conn.incoming.data ∧
      session.sent ++ conn.outgoing.data = (runRequests values initial (front ++ pending)).2 ∧
      (runRequests values initial front).2 <+: session.sent ∧ pending.length ≤ 8 * 1024 ∧
      conn.outgoing.size ≤ pending.length * (4 + kMaxMsg) := by
  refine ⟨run.size_lt appends live, run.capacity_lt appends live, ?_⟩
  obtain ⟨queues, run', matched, -⟩ := run.steady appends live
  obtain ⟨cmds, rest, unsent, served, states⟩ := run'.accounted
  obtain ⟨-, rfl, rfl⟩ := states queues rfl
  obtain ⟨front, pending, rest, framed, sent, few⟩ := run'.backlog
  obtain ⟨rfl, rfl⟩ := framed.unique served.framed
  rw [matched.incoming.data, matched.outgoing.data, matched.outgoing.size]
  refine ⟨front, pending, framed, served.answered, sent, few, ?_⟩
  -- what is unsent is an end of the responses to the pending commands
  have total := congrArg List.length served.answered
  have most := length_runRequests_le values (runRequests values initial front).1 pending
  rw [runRequests_append] at total
  simp only [List.length_append] at total
  have length := sent.length_le
  dsimp only at length
  omega

/-- The socket takes nothing of the first response. -/
theorem session_bounded_pending : ∃ session conn, SessionRun counting 0 session ∧
    session.conn = some conn ∧ conn.incoming.size = 10 ∧ conn.outgoing.size = 4 ∧
      ∃ front pending, Framed session.received (front ++ pending) conn.incoming.data ∧
        4 ≤ pending.length * (4 + kMaxMsg) := by
  obtain ⟨out, holds, loop⟩ := requestLoop_pipelined true
  have four : out.size = 4 := holds.size
  have length : pipelined.length = 64 := by decide
  have written : handleWrite { wantWrite := true, incoming := ⟨pipelined, 54, 64⟩, outgoing := out }
      .again =
      some ({ wantWrite := true, incoming := ⟨pipelined, 54, 64⟩, outgoing := out }, []) := by
    simp [handleWrite, four]
  have round : handleReady counting .accepted 0 ⟨true, false, false⟩
      (.bytes pipelined) .again .again =
      some (some { wantWrite := true, incoming := ⟨pipelined, 54, 64⟩, outgoing := out }, 1, []) := by
    simp [handleReady, handleReadyWith, handleReadWith, Conn.accepted, bufAppend_first length, loop,
      four, written]
  have chunk : (ReadResult.bytes pipelined).Chunk := by
    rintro _ ⟨⟩
    rw [length]
    decide
  have run := SessionRun.accept.serve rfl (fun _ => rfl) (by simp) chunk round
  obtain ⟨-, -, front, pending, framed, -, -, -, most⟩ :=
    session_bounded run (Executor.appending_appends _) rfl
  exact ⟨_, _, run, rfl, rfl, four, front, pending, framed, four.ge.trans most⟩

end MiniRedis.Buffers
