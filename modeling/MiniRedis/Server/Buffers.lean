import MiniRedis.Client.ReadRes
import MiniRedis.Server.Along
import MiniRedis.Server.Session

/-!
# Connections with their buffers (`server.cpp`)

The handlers of a connection over the buffers of `common.cpp`; `none` is also a write
outside a block. They do what the handlers over byte queues do, as long as no bytes are read
into a crowded buffer.
-/

namespace MiniRedis.Buffers

/-! ## Serialization -/

/-- `buf_append_u8`. -/
def bufAppendU8 (buf : Buffer) (data : UInt8) : Option Buffer := bufAppend buf [data]

/-- `buf_append_u32`, little endian. -/
def bufAppendU32 (buf : Buffer) (data : Nat) : Option Buffer :=
  bufAppend buf (LittleEndian.encode 4 data)

/-- `buf_append_i64`, in two's complement. -/
def bufAppendI64 (buf : Buffer) (data : Int) : Option Buffer :=
  bufAppend buf (LittleEndian.encode 8 (data % 2 ^ 64).toNat)

/-- `buf_append_dbl`, the bits of the number. -/
def bufAppendDbl (buf : Buffer) (data : Binary64.Double) : Option Buffer :=
  bufAppend buf (LittleEndian.encode 8 data.bits.toNat)

/-- The `out_` functions append tag, length and data with one call for each. -/
def outNil (out : Buffer) : Option Buffer := bufAppendU8 out Tag.nil.byte

def outStr (out : Buffer) (s : Bytes) : Option Buffer := do
  let out ← bufAppendU8 out Tag.str.byte
  let out ← bufAppendU32 out s.length
  bufAppend out s

def outInt (out : Buffer) (val : Int) : Option Buffer := do
  let out ← bufAppendU8 out Tag.int.byte
  bufAppendI64 out val

def outDbl (out : Buffer) (val : Binary64.Double) : Option Buffer := do
  let out ← bufAppendU8 out Tag.dbl.byte
  bufAppendDbl out val

def outErr (out : Buffer) (code : ErrCode) (msg : String) : Option Buffer := do
  let out ← bufAppendU8 out Tag.err.byte
  let out ← bufAppendU32 out code.toNat
  let out ← bufAppendU32 out (ascii msg).length
  bufAppend out (ascii msg)

def outArr (out : Buffer) (n : Nat) : Option Buffer := do
  let out ← bufAppendU8 out Tag.arr.byte
  bufAppendU32 out n

/-- `out_begin_arr`: an array whose length is left open, and the offset at which it belongs. -/
def outBeginArr (out : Buffer) : Option (Buffer × Nat) := do
  let out ← bufAppendU8 out Tag.arr.byte
  let out ← bufAppendU32 out 0
  return (out, out.size - 4)

/-- `out_end_arr` asserts that it finds the tag in front of the length. -/
def outEndArr (out : Buffer) (sizePos n : Nat) : Option Buffer := do
  guard (0 < sizePos ∧ out.data[sizePos - 1]? = some Tag.arr.byte)
  out.store sizePos (LittleEndian.encode 4 n)

/-! ## Responses -/

/-- `response_begin`: four bytes for the length, and their offset. -/
def responseBegin (out : Buffer) : Option (Buffer × Nat) := do
  let headerPos := out.size
  let out ← bufAppendU32 out 0
  return (out, headerPos)

/-- `response_size`. -/
def responseSize (out : Buffer) (headerPos : Nat) : Nat := out.size - headerPos - 4

/-- `response_end`: a response which is too large gives way to an error; then the length is
stored. -/
def responseEnd (out : Buffer) (headerPos : Nat) : Option Buffer := do
  let out ←
    if responseSize out headerPos > kMaxMsg then do
      let out ← bufResize out (headerPos + 4)
      outErr out .tooBig "response is too big."
    else some out
  out.store headerPos (LittleEndian.encode 4 (responseSize out headerPos))

/-! ## Handlers -/

/-- `Conn`, with its two buffers as they are in memory. -/
structure Conn where
  wantRead : Bool := false
  wantWrite : Bool := false
  wantClose : Bool := false
  incoming : Buffer := {}
  outgoing : Buffer := {}

/-- `exec_cmd`: the database and the buffer which it leaves. -/
abbrev Executor (σ : Type) := σ → List Bytes → Buffer → Option (σ × Buffer)

variable {σ : Type}

/-- A new connection is read first. -/
def Conn.accepted : Conn := { wantRead := true }

/-- `handle_write`, if `write` returns: as much as the socket takes is consumed. -/
def handleWrite (conn : Conn) (result : WriteResult) : Option (Conn × Bytes) := do
  guard (conn.outgoing.size > 0)
  match result with
  | .again => return (conn, [])
  | .error => return ({ conn with wantClose := true }, [])
  | .accepted room =>
    let rv := min room conn.outgoing.size
    let written := conn.outgoing.data.take rv
    let outgoing ← bufConsume conn.outgoing rv
    let conn := { conn with outgoing := outgoing }
    if conn.outgoing.size = 0 then
      return ({ conn with wantRead := true, wantWrite := false }, written)
    else return (conn, written)

/-- `try_one_request`: the first request is parsed, executed and consumed, if all of it is there. -/
def tryOneRequest (exec : Executor σ) (conn : Conn) (db : σ) : Option (Bool × Conn × σ) :=
  if conn.incoming.size < 4 then some (false, conn, db)
  else
    let len := readU32At conn.incoming.data 0
    if len > kMaxMsg then some (false, { conn with wantClose := true }, db)
    else if 4 + len > conn.incoming.size then some (false, conn, db)
    else
      let request := (conn.incoming.data.drop 4).take len
      match parseReq request with
      | none => some (false, { conn with wantClose := true }, db)
      | some cmd => do
        let (out, headerPos) ← responseBegin conn.outgoing
        let (db, out) ← exec db cmd out
        let out ← responseEnd out headerPos
        let incoming ← bufConsume conn.incoming (4 + len)
        return (true, { conn with
          incoming := incoming
          outgoing := out }, db)

/-- `while (try_one_request(conn))`. -/
def Conn.requestLoop (conn : Conn) (exec : Executor σ) (db : σ) : Option (Conn × σ) := do
  let (more, conn, db) ← tryOneRequest exec conn db
  if more then conn |>.requestLoop exec db else some (conn, db)
partial_fixpoint

/-- `handle_read`, around the call of `handle_write` at its end. -/
def handleReadWith (exec : Executor σ) (conn : Conn) (db : σ) (read : ReadResult)
    (write : Conn → Option (Conn × Bytes)) : Option (Conn × σ × Bytes) :=
  match read with
  | .again => some (conn, db, [])
  | .error => some ({ conn with wantClose := true }, db, [])
  | .eof => some ({ conn with wantClose := true }, db, [])
  | .bytes data => do
    let incoming ← bufAppend conn.incoming data
    let (conn, db) ← { conn with incoming := incoming } |>.requestLoop exec db
    if conn.outgoing.size > 0 then
      let (conn, written) ← write { conn with
        wantRead := false
        wantWrite := true }
      return (conn, db, written)
    else return (conn, db, [])

/-- `handle_read`: what was read is appended, and all whole requests are executed. -/
def handleRead (exec : Executor σ) (conn : Conn) (db : σ) (read : ReadResult)
    (write : WriteResult) : Option (Conn × σ × Bytes) :=
  handleReadWith exec conn db read (handleWrite · write)

/-- The body of the event loop for one ready connection, around both calls of `handle_write`. -/
def handleReadyWith (exec : Executor σ) (conn : Conn) (db : σ) (ready : Ready) (read : ReadResult)
    (write write' : Conn → Option (Conn × Bytes)) : Option (Option Conn × σ × Bytes) := do
  let (conn, db, written) ←
    if ready.pollIn then do
      guard conn.wantRead
      handleReadWith exec conn db read write
    else some (conn, db, [])
  let (conn, written') ←
    if ready.pollOut then do
      guard conn.wantWrite
      write' conn
    else some (conn, [])
  if ready.pollErr ∨ conn.wantClose then return (none, db, written ++ written')
  else return (some conn, db, written ++ written')

/-- The round of one connection, if each `write` returns. -/
def handleReady (exec : Executor σ) (conn : Conn) (db : σ) (ready : Ready) (read : ReadResult)
    (write write' : WriteResult) : Option (Option Conn × σ × Bytes) :=
  handleReadyWith exec conn db ready read (handleWrite · write) (handleWrite · write')

/-! ## What is written -/

variable {buf : Buffer} {queue : Bytes}

/-- The buffer holds a queue, and nothing has been consumed from it. -/
structure Fresh (buf : Buffer) (queue : Bytes) : Prop where
  holds : buf.Holds queue
  front : buf.dataBegin = 0

/-- The bytes are appended to any buffer which nothing has been consumed from. -/
def Writes (write : Buffer → Option Buffer) (bytes : Bytes) : Prop :=
  ∀ buf queue, Fresh buf queue → ∃ buf', write buf = some buf' ∧ Fresh buf' (queue ++ bytes)

/-- `buf_append` to a buffer of which nothing has been consumed. -/
theorem writes_append (data : Bytes) : Writes (fun buf => bufAppend buf data) data := by
  intro buf queue fresh
  obtain ⟨buf', run, holds, front⟩ := fresh.holds.appendFront fresh.front data
  exact ⟨buf', run, holds, front⟩

/-- Two writes in a row. -/
theorem Writes.bind {first second : Buffer → Option Buffer} {bytes more : Bytes}
    (writes : Writes first bytes) (next : Writes second more) :
    Writes (fun buf => first buf >>= second) (bytes ++ more) := by
  intro buf queue fresh
  obtain ⟨middle, run, fresh⟩ := writes buf queue fresh
  obtain ⟨last, run', fresh⟩ := next middle _ fresh
  refine ⟨last, by simp [run, run'], ?_⟩
  rwa [← List.append_assoc]

/-- Each `out_` function writes the encoding of its value. -/
theorem outNil_writes : Writes outNil WireValue.nil.encode := writes_append [Tag.nil.byte]

theorem outStr_writes (s : Bytes) : Writes (outStr · s) (WireValue.str s).encode :=
  (writes_append _).bind ((writes_append _).bind (writes_append s))

theorem outInt_writes (val : Int) : Writes (outInt · val) (WireValue.int val).encode :=
  (writes_append _).bind (writes_append _)

theorem outDbl_writes (val : Binary64.Double) : Writes (outDbl · val) (WireValue.dbl val).encode :=
  (writes_append _).bind (writes_append _)

theorem outErr_writes (code : ErrCode) (msg : String) :
    Writes (outErr · code msg) (errValue code msg).encode := by
  have pieces := (writes_append [Tag.err.byte]).bind
      ((writes_append (LittleEndian.encode 4 code.toNat)).bind
    ((writes_append (LittleEndian.encode 4 (ascii msg).length)).bind (writes_append (ascii msg))))
  simpa [errValue, WireValue.encode, outErr, bufAppendU8, bufAppendU32] using pieces

theorem outArr_writes (n : Nat) : Writes (outArr · n) (Tag.arr.byte :: LittleEndian.encode 4 n) :=
  (writes_append _).bind (writes_append _)

/-- Bytes behind a position are written over. -/
theorem Fresh.store {front back : Bytes} {n : Nat}
    (fresh : Fresh buf (front ++ (LittleEndian.encode 4 0 ++ back))) :
    ∃ buf', buf.store front.length (LittleEndian.encode 4 n) = some buf' ∧
      Fresh buf' (front ++ (LittleEndian.encode 4 n ++ back)) := by
  obtain ⟨buf', run, holds, same⟩ := @Buffer.Holds.store (LittleEndian.encode 4 n) _ _ fresh.holds
    front.length (by simp)
  refine ⟨buf', run, ?_, same.trans fresh.front⟩
  have behind : (front ++ (LittleEndian.encode 4 0 ++ back)).drop
      (front.length + (LittleEndian.encode 4 n).length) = back := by
    rw [← List.drop_drop, List.drop_left]
    exact List.drop_left' (by simp)
  rwa [List.take_left, behind] at holds

/-- The offset is the place of the open length. -/
theorem outBeginArr_fresh (fresh : Fresh buf queue) :
    ∃ buf', outBeginArr buf = some (buf', queue.length + 1) ∧
      Fresh buf' (queue ++ Tag.arr.byte :: LittleEndian.encode 4 0) := by
  obtain ⟨buf', run, fresh'⟩ := outArr_writes 0 buf queue fresh
  refine ⟨buf', ?_, fresh'⟩
  simp only [outArr, Option.bind_eq_bind, Option.bind_eq_some_iff] at run
  obtain ⟨tagged, tag, count⟩ := run
  simp [outBeginArr, tag, count, fresh'.holds.size]

/-- The count of an array is filled in when its items have been written. -/
theorem outEndArr_fresh {bytes : Bytes}
    (fresh : Fresh buf (queue ++ Tag.arr.byte :: (LittleEndian.encode 4 0 ++ bytes))) (n : Nat) :
    ∃ buf', outEndArr buf (queue.length + 1) n = some buf' ∧
      Fresh buf' (queue ++ Tag.arr.byte :: (LittleEndian.encode 4 n ++ bytes)) := by
  have split : ∀ count : Bytes, queue ++ Tag.arr.byte :: (count ++ bytes) =
      (queue ++ [Tag.arr.byte]) ++ (count ++ bytes) := by simp
  have tagged : buf.data[queue.length + 1 - 1]? = some Tag.arr.byte := by
    rw [fresh.holds.data]
    simp
  rw [split] at fresh
  obtain ⟨buf', stored, fresh'⟩ := @Fresh.store _ _ _ n fresh
  rw [List.length_append, List.length_singleton] at stored
  refine ⟨buf', ?_, split _ ▸ fresh'⟩
  rw [outEndArr, tagged, stored]
  simp

/-- So it is in front of a response. -/
theorem responseBegin_fresh (fresh : Fresh buf queue) :
    ∃ buf', responseBegin buf = some (buf', queue.length) ∧
    Fresh buf' (queue ++ LittleEndian.encode 4 0) := by
  obtain ⟨buf', run, fresh'⟩ := writes_append (LittleEndian.encode 4 0) buf queue fresh
  simp only at run
  refine ⟨buf', ?_, fresh'⟩
  rw [responseBegin, bufAppendU32, run, fresh.holds.size]
  rfl

/-- The size is filled in. -/
theorem Fresh.frame {payload : Bytes}
    (fresh : Fresh buf (queue ++ (LittleEndian.encode 4 0 ++ payload))) :
    ∃ buf', buf.store queue.length (LittleEndian.encode 4 (responseSize buf queue.length)) = some buf' ∧
      Fresh buf' (queue ++ MiniRedis.frame payload) := by
  have size : responseSize buf queue.length = payload.length := by
    rw [responseSize, fresh.holds.size]
    simp
  rw [size]
  exact fresh.store

/-- What has been appended since `response_begin` becomes a response. -/
theorem responseEnd_fresh {value : Bytes}
    (fresh : Fresh buf (queue ++ (LittleEndian.encode 4 0 ++ value))) :
    ∃ buf', responseEnd buf queue.length = some buf' ∧
      Fresh buf' (queue ++ MiniRedis.frame (limitResponse value)) := by
  have size : responseSize buf queue.length = value.length := by
    rw [responseSize, fresh.holds.size]
    simp
  by_cases large : value.length > kMaxMsg
  · have within : queue.length + 4 ≤ (queue ++ (LittleEndian.encode 4 0 ++ value)).length := by simp
    obtain ⟨short, truncates, holds⟩ := fresh.holds.shrink within
    have kept : (queue ++ (LittleEndian.encode 4 0 ++ value)).take (queue.length + 4) =
        queue ++ LittleEndian.encode 4 0 := by
      rw [← List.append_assoc]
      exact List.take_left' (by simp)
    rw [kept] at holds
    obtain ⟨replaced, writes, fresh'⟩ := outErr_writes .tooBig "response is too big." short _
      ⟨holds, bufResize_front fresh.front truncates⟩
    rw [List.append_assoc] at fresh'
    obtain ⟨buf', stored, fresh''⟩ := fresh'.frame
    refine ⟨buf', ?_, by rwa [limitResponse, if_pos large]⟩
    simp [responseEnd, size, large, truncates, writes, stored]
  · obtain ⟨buf', stored, fresh'⟩ := fresh.frame
    refine ⟨buf', ?_, by rwa [limitResponse, if_neg large]⟩
    rw [size] at stored
    simp [responseEnd, size, large, stored]

/-! ## Refinement of the handlers -/

/-- The buffers hold the queues; an `outgoing` buffer which is empty has been reset. -/
structure Conn.Matches (conn : Conn) (queues : MiniRedis.Conn) : Prop where
  wantRead : conn.wantRead = queues.wantRead
  wantWrite : conn.wantWrite = queues.wantWrite
  wantClose : conn.wantClose = queues.wantClose
  incoming : conn.incoming.Holds queues.incoming
  outgoing : conn.outgoing.Holds queues.outgoing
  reset : queues.outgoing = [] → conn.outgoing.dataBegin = 0

/-- The commands write what the executor over byte strings returns. -/
def Executor.Appends (exec : Executor σ) (values : MiniRedis.Executor σ) : Prop :=
  ∀ db cmd buf queue, Fresh buf queue → ∃ buf', exec db cmd buf = some ((values db cmd).1, buf') ∧
    Fresh buf' (queue ++ (values db cmd).2)

/-- The executor which appends every value at once. -/
def Executor.appending (values : MiniRedis.Executor σ) : Executor σ := fun db cmd buf => do
  let buf ← bufAppend buf (values db cmd).2
  return ((values db cmd).1, buf)

/-- An executor which appends an answer of any kind. -/
theorem Executor.appending_appends (values : MiniRedis.Executor σ) :
    (Executor.appending values).Appends values := by
  intro db cmd buf queue fresh
  obtain ⟨buf', run, fresh'⟩ := writes_append (values db cmd).2 buf queue fresh
  exact ⟨buf', by simp [Executor.appending, run], fresh'⟩

/-- Empty buffers hold empty queues. -/
theorem Conn.accepted_matches : Conn.accepted.Matches .accepted where
  wantRead := rfl
  wantWrite := rfl
  wantClose := rfl
  incoming := .empty
  outgoing := .empty
  reset _ := rfl

section Handlers

variable {exec : Executor σ} {values : MiniRedis.Executor σ} {conn : Conn} {queues : MiniRedis.Conn}

/-- A buffer which is consumed to its end starts anew. -/
theorem bufConsume_front {buf buf' : Buffer} {n : Nat} (run : bufConsume buf n = some buf')
    (all : n = buf.size) : buf'.dataBegin = 0 := by
  rw [bufConsume, all] at run
  simp only [le_refl, guard_true, if_true] at run
  cases run
  rfl

/-- Writing takes the same bytes from the buffer and from the queue. -/
theorem handleWrite_matches (matched : conn.Matches queues) (pending : queues.outgoing ≠ [])
    (result : WriteResult) :
    ∃ conn' queues' written, handleWrite conn result = some (conn', written) ∧
      MiniRedis.handleWrite queues result = some (queues', written) ∧ conn'.Matches queues' := by
  have positive := List.length_pos_of_ne_nil pending
  have size := matched.outgoing.size
  cases result with
  | again =>
      exact ⟨conn, queues, [], by simp [handleWrite, size, positive],
        by simp [MiniRedis.handleWrite, positive], matched⟩
  | error =>
      exact ⟨{ conn with wantClose := true }, { queues with wantClose := true }, [],
        by simp [handleWrite, size, positive], by simp [MiniRedis.handleWrite, positive],
        { matched with wantClose := rfl }⟩
  | accepted room =>
      obtain ⟨outgoing, consumed, holds⟩ := matched.outgoing.consume
        (Nat.min_le_right room queues.outgoing.length)
      have reset : queues.outgoing.drop (min room queues.outgoing.length) = [] →
          outgoing.dataBegin = 0 := by
        intro empty
        apply bufConsume_front consumed
        rw [List.drop_eq_nil_iff] at empty
        rw [size]
        omega
      have rest := holds.size
      by_cases finished : (queues.outgoing.drop (min room queues.outgoing.length)).length = 0
      · refine ⟨{ conn with
            outgoing := outgoing
            wantRead := true
            wantWrite := false }, { queues with
            outgoing := queues.outgoing.drop (min room queues.outgoing.length)
            wantRead := true
            wantWrite := false }, queues.outgoing.take (min room queues.outgoing.length), ?_, ?_,
          ⟨rfl, rfl, matched.wantClose, matched.incoming, holds, reset⟩⟩
        · simp [handleWrite, size, positive, consumed, rest.trans finished, matched.outgoing.data]
        · rw [MiniRedis.handleWrite]
          simp only [positive, guard_true, Option.bind_eq_bind, finished, if_true]
          rfl
      · refine ⟨{ conn with outgoing := outgoing }, { queues with
            outgoing := queues.outgoing.drop (min room queues.outgoing.length) },
          queues.outgoing.take (min room queues.outgoing.length), ?_, ?_,
          ⟨matched.wantRead, matched.wantWrite, matched.wantClose, matched.incoming, holds, reset⟩⟩
        · have unfinished : outgoing.size ≠ 0 := rest.trans_ne finished
          simp [handleWrite, size, positive, consumed, unfinished, matched.outgoing.data]
        · rw [MiniRedis.handleWrite]
          simp only [positive, guard_true, Option.bind_eq_bind, finished, if_false]
          rfl

/-- A request is taken from the buffer as it is from the queue. -/
theorem tryOneRequest_matches (appends : exec.Appends values) (matched : conn.Matches queues)
    (front : conn.outgoing.dataBegin = 0) (db : σ) :
    ∃ more conn' queues' db', tryOneRequest exec conn db = some (more, conn', db') ∧
      MiniRedis.tryOneRequest values queues db = some (more, queues', db') ∧ conn'.Matches queues' ∧
      conn'.outgoing.dataBegin = 0 := by
  have size := matched.incoming.size
  have data := matched.incoming.data
  by_cases header : queues.incoming.length < 4
  · exact ⟨false, conn, queues, db, by simp [tryOneRequest, size, header],
      by simp [MiniRedis.tryOneRequest, header], matched, front⟩
  by_cases large : readU32At queues.incoming 0 > kMaxMsg
  · exact ⟨false, { conn with wantClose := true }, { queues with wantClose := true }, db,
      by simp [tryOneRequest, size, data, header, large],
      by simp [MiniRedis.tryOneRequest, header, large], { matched with wantClose := rfl }, front⟩
  by_cases short : 4 + readU32At queues.incoming 0 > queues.incoming.length
  · exact ⟨false, conn, queues, db, by simp [tryOneRequest, size, data, header, large, short],
      by simp [MiniRedis.tryOneRequest, header, large, short], matched, front⟩
  cases parsed : parseReq ((queues.incoming.drop 4).take (readU32At queues.incoming 0)) with
  | none =>
      exact ⟨false, { conn with wantClose := true }, { queues with wantClose := true }, db,
        by simp [tryOneRequest, size, data, header, large, short, parsed],
        by simp [MiniRedis.tryOneRequest, header, large, short, parsed],
        { matched with wantClose := rfl }, front⟩
  | some cmd =>
      obtain ⟨begun, begins, fresh⟩ := responseBegin_fresh ⟨matched.outgoing, front⟩
      obtain ⟨written, run, fresh'⟩ := appends db cmd begun _ fresh
      rw [List.append_assoc] at fresh'
      obtain ⟨ended, ends, fresh''⟩ := responseEnd_fresh fresh'
      obtain ⟨incoming, consumed, holds⟩ := matched.incoming.consume (Nat.le_of_not_lt short)
      have answered := responseEnd_spec queues.outgoing (values db cmd).2
      refine ⟨true, { conn with
          incoming := incoming
          outgoing := ended }, { queues with
          incoming := queues.incoming.drop (4 + readU32At queues.incoming 0)
          outgoing := queues.outgoing ++ MiniRedis.frame (limitResponse (values db cmd).2) },
        (values db cmd).1, ?_, ?_, ?_, fresh''.front⟩
      · simp [tryOneRequest, size, data, header, large, short, parsed, begins, run, ends, consumed]
      · simp [MiniRedis.tryOneRequest, header, large, short, parsed, answered]
      · exact ⟨matched.wantRead, matched.wantWrite, matched.wantClose, holds, fresh''.holds,
          fun _ => fresh''.front⟩

/-- All requests of a round. -/
theorem requestLoop_matches (appends : exec.Appends values) (matched : conn.Matches queues)
    (front : conn.outgoing.dataBegin = 0) (db : σ) :
    ∃ conn' queues' db', conn.requestLoop exec db = some (conn', db') ∧
      queues.requestLoop values db = some (queues', db') ∧ conn'.Matches queues' := by
  induction length : queues.incoming.length using Nat.strong_induction_on
    generalizing conn queues db with
  | _ size ih =>
      obtain ⟨more, conn', queues', db', run, run', matched', front'⟩ :=
        tryOneRequest_matches appends matched front db
      rw [Conn.requestLoop, MiniRedis.Conn.requestLoop, run, run']
      cases more with
      | false => exact ⟨conn', queues', db', rfl, rfl, matched'⟩
      | true => exact ih _ (length ▸ tryOneRequest_shorter run') matched' front' db' rfl

/-- The only write outside a block is that of bytes which have been read. -/
theorem handleRead_matches (appends : exec.Appends values) (matched : conn.Matches queues)
    (quiet : queues.outgoing = []) (db : σ) (read : ReadResult) (write : WriteResult) :
    (handleRead exec conn db read write = none ∧
        ∃ data, read = .bytes data ∧ conn.incoming.Crowded data.length) ∨
      ∃ conn' queues' db' written, handleRead exec conn db read write = some (conn', db', written) ∧
        MiniRedis.handleRead values queues db read write = some (queues', db', written) ∧
        conn'.Matches queues' ∧ ¬∃ data, read = .bytes data ∧
        conn.incoming.Crowded data.length := by
  cases read with
  | again => exact .inr ⟨conn, queues, db, [], rfl, rfl, matched, by simp⟩
  | error =>
      exact .inr ⟨_, _, db, [], rfl, rfl, { matched with wantClose := rfl }, by simp⟩
  | eof =>
      exact .inr ⟨_, _, db, [], rfl, rfl, { matched with wantClose := rfl }, by simp⟩
  | bytes data =>
      obtain ⟨overflows, appended⟩ := matched.incoming.append data
      by_cases crowded : conn.incoming.Crowded data.length
      · refine .inl ⟨?_, data, rfl, crowded⟩
        rw [handleRead, handleReadWith, overflows crowded]
        rfl
      · obtain ⟨incoming, run, holds⟩ := appended crowded
        have filled : ({ conn with incoming := incoming } : Conn).Matches
            { queues with incoming := queues.incoming ++ data } :=
          { matched with incoming := holds }
        obtain ⟨conn', queues', db', loop, loop', matched'⟩ :=
          requestLoop_matches appends filled (matched.reset quiet) db
        refine .inr ?_
        by_cases silent : queues'.outgoing = []
        · refine ⟨conn', queues', db', [], ?_, ?_, matched', by simpa using crowded⟩
          · simp [handleRead, handleReadWith, run, loop, matched'.outgoing.size, silent]
          · simp [MiniRedis.handleRead, loop', silent]
        · have positive := List.length_pos_of_ne_nil silent
          have writing : ({ conn' with
              wantRead := false
              wantWrite := true } : Conn).Matches { queues' with
              wantRead := false
              wantWrite := true } :=
            { matched' with
              wantRead := rfl
              wantWrite := rfl }
          obtain ⟨conn'', queues'', written, wrote, wrote', matched''⟩ :=
            handleWrite_matches writing silent write
          refine ⟨conn'', queues'', db', written, ?_, ?_, matched'', by simpa using crowded⟩
          · simp [handleRead, handleReadWith, run, loop, matched'.outgoing.size, positive, wrote]
          · simp [MiniRedis.handleRead, loop', positive, wrote']

/-- The handlers read into a crowded buffer. -/
def Conn.Overrun (conn : Conn) (ready : Ready) (read : ReadResult) : Prop :=
  ready.pollIn = true ∧ ∃ data, read = .bytes data ∧ conn.incoming.Crowded data.length

/-- A round over the buffers is the round over the queues, or it reads into a crowded buffer. -/
theorem handleReady_matches (appends : exec.Appends values) (matched : conn.Matches queues)
    (steady : queues.Steady) (db : σ) {ready : Ready} (polled : ready.Polled queues)
    (read : ReadResult) (write write' : WriteResult) :
    (handleReady exec conn db ready read write write' = none ∧ conn.Overrun ready read) ∨
      ¬conn.Overrun ready read ∧
      ∃ conn' queues' db' written, handleReady exec conn db ready read write write' =
          some (conn', db', written) ∧
        MiniRedis.handleReady values queues db ready read write write' =
          some (queues', db', written) ∧
        Option.Rel Conn.Matches conn' queues' := by
  obtain ⟨pollIn, pollOut, pollErr⟩ := ready
  obtain ⟨reading, writing⟩ := polled
  -- the decision to close the connection is the same
  have closes : ∀ {conn' : Conn} {queues' : MiniRedis.Conn}, conn'.Matches queues' →
      Option.Rel Conn.Matches (if pollErr ∨ conn'.wantClose then none else some conn')
        (if pollErr ∨ queues'.wantClose then none else some queues') := by
    intro conn' queues' matched'
    rw [matched'.wantClose]
    split_ifs
    · exact .none
    · exact .some matched'
  cases pollIn with
  | true =>
      have reads := reading rfl
      have quiet := steady.alternates.reading.mp reads
      obtain rfl : pollOut = false := by
        by_contra both
        exact steady.alternates.writing.mp (writing (by simpa using both)) quiet
      have wanted : conn.wantRead = true := matched.wantRead.trans reads
      obtain ⟨fails, crowded⟩ | ⟨conn', queues', db', written, run, run', matched', spacious⟩ :=
        handleRead_matches appends matched quiet db read write
      · refine .inl ⟨?_, rfl, crowded⟩
        rw [handleRead] at fails
        simp [handleReady, handleReadyWith, wanted, fails]
      · refine .inr ⟨fun overrun => spacious overrun.2, _, _, db', written, ?_, ?_, closes matched'⟩
        · rw [handleRead] at run
          simp [handleReady, handleReadyWith, wanted, run]
          split_ifs <;> rfl
        · simp [MiniRedis.handleReady, reads, run']
          split_ifs <;> rfl
  | false =>
      refine .inr ⟨fun overrun => Bool.false_ne_true overrun.1, ?_⟩
      cases pollOut with
      | true =>
          have writes := writing rfl
          have wanted : conn.wantWrite = true := matched.wantWrite.trans writes
          obtain ⟨conn', queues', written, wrote, wrote', matched'⟩ :=
            handleWrite_matches matched (steady.alternates.writing.mp writes) write'
          refine ⟨_, _, db, written, ?_, ?_, closes matched'⟩
          · simp [handleReady, handleReadyWith, wanted, wrote]
            split_ifs <;> rfl
          · simp [MiniRedis.handleReady, writes, wrote']
            split_ifs <;> rfl
      | false =>
          refine ⟨_, _, db, [], ?_, ?_, closes matched⟩
          · simp [handleReady, handleReadyWith]
            split_ifs <;> rfl
          · simp [MiniRedis.handleReady]
            split_ifs <;> rfl

/-- A write concerns `outgoing` alone, and closes the connection only if it fails. -/
theorem handleWrite_keeps {conn' : Conn} {result : WriteResult} {written : Bytes}
    (run : handleWrite conn result = some (conn', written)) :
    conn'.incoming = conn.incoming ∧ (conn'.wantClose = conn.wantClose ∨ result = .error) := by
  obtain ⟨-, -, run⟩ := Option.bind_eq_some_iff.mp run
  cases result with
  | again =>
      cases run
      exact ⟨rfl, .inl rfl⟩
  | error =>
      cases run
      exact ⟨rfl, .inr rfl⟩
  | accepted room =>
      obtain ⟨outgoing, -, run⟩ := Option.bind_eq_some_iff.mp run
      dsimp only at run
      split at run
      · cases run
        exact ⟨rfl, .inl rfl⟩
      · cases run
        exact ⟨rfl, .inl rfl⟩

/-- What a round consists of. -/
theorem handleReady_cases {conn' : Option Conn} {db db' : σ} {ready : Ready} {read : ReadResult}
    {write write' : WriteResult} {written : Bytes}
    (run : handleReady exec conn db ready read write write' = some (conn', db', written)) :
    ∃ middle last,
      (ready.pollIn = true ∧ (∃ out, handleRead exec conn db read write = some (middle, db', out)) ∨
        ready.pollIn = false ∧ middle = conn ∧ db' = db) ∧
      (ready.pollOut = true ∧ (∃ out, handleWrite middle write' = some (last, out)) ∨
        ready.pollOut = false ∧ last = middle) ∧
      conn' = if ready.pollErr ∨ last.wantClose then none else some last := by
  obtain ⟨pollIn, pollOut, pollErr⟩ := ready
  have ends : ∀ {last : Conn} {db₁ : σ} {out : Bytes},
      (if pollErr = true ∨ last.wantClose = true then
        some (none, db₁, out) else some (some last, db₁, out)) = some (conn', db', written) →
      db' = db₁ ∧ conn' = if pollErr ∨ last.wantClose then none else some last := by
    intro last db₁ out run
    split at run
    next closing =>
      cases run
      exact ⟨rfl, (if_pos closing).symm⟩
    next stays =>
      cases run
      exact ⟨rfl, (if_neg stays).symm⟩
  rw [handleReady, handleReadyWith] at run
  cases pollIn with
  | true =>
      obtain ⟨_, -, run⟩ := Option.bind_eq_some_iff.mp run
      obtain ⟨⟨middle, db₁, out⟩, first, run⟩ := Option.bind_eq_some_iff.mp run
      cases pollOut with
      | true =>
          obtain ⟨_, -, run⟩ := Option.bind_eq_some_iff.mp run
          obtain ⟨⟨last, out'⟩, second, run⟩ := Option.bind_eq_some_iff.mp run
          obtain ⟨rfl, closes⟩ := ends run
          exact ⟨middle, last, .inl ⟨rfl, out, first⟩, .inl ⟨rfl, out', second⟩, closes⟩
      | false =>
          obtain ⟨rfl, closes⟩ := ends run
          exact ⟨middle, middle, .inl ⟨rfl, out, first⟩, .inr ⟨rfl, rfl⟩, closes⟩
  | false =>
      cases pollOut with
      | true =>
          obtain ⟨_, -, run⟩ := Option.bind_eq_some_iff.mp run
          obtain ⟨⟨last, out⟩, second, run⟩ := Option.bind_eq_some_iff.mp run
          obtain ⟨rfl, closes⟩ := ends run
          exact ⟨conn, last, .inr ⟨rfl, rfl, rfl⟩, .inl ⟨rfl, out, second⟩, closes⟩
      | false =>
          obtain ⟨rfl, closes⟩ := ends run
          exact ⟨conn, conn, .inr ⟨rfl, rfl, rfl⟩, .inr ⟨rfl, rfl⟩, closes⟩

end Handlers

/-! ## Whole runs -/

/-- A connection with its buffers, beside what its socket has passed. -/
structure Session (σ : Type) where
  conn : Option Conn
  db : σ
  received : Bytes
  sent : Bytes

/-- The runs of one connection with its buffers. -/
inductive SessionRun (exec : Executor σ) (initial : σ) : Session σ → Prop
  | accept : SessionRun exec initial ⟨some .accepted, initial, [], []⟩
  | serve {session : Session σ} {conn : Conn} {ready : Ready} {read : ReadResult}
      {write write' : WriteResult} {conn' : Option Conn} {db' : σ} {written : Bytes}
      (before : SessionRun exec initial session) (live : session.conn = some conn)
      (reads : ready.pollIn → conn.wantRead) (writes : ready.pollOut → conn.wantWrite)
      (chunk : read.Chunk)
      (run : handleReady exec conn session.db ready read write write' = some (conn', db', written)) :
      SessionRun exec initial
        ⟨conn', db', session.received ++ if ready.pollIn then read.data else [],
          session.sent ++ written⟩
  | idle {session : Session σ} (before : SessionRun exec initial session) :
      SessionRun exec initial { session with conn := none }

variable {exec : Executor σ} {values : MiniRedis.Executor σ} {initial : σ} {session : Session σ}

/-- The run of the queues beside a run of the buffers. -/
theorem SessionRun.queues (run : SessionRun exec initial session) (appends : exec.Appends values) :
    ∃ queues : Option MiniRedis.Conn,
      MiniRedis.SessionRun values initial ⟨queues, session.db, session.received, session.sent⟩ ∧
        Option.Rel Conn.Matches session.conn queues := by
  induction run with
  | accept => exact ⟨some .accepted, .accept, .some Conn.accepted_matches⟩
  | @serve session conn ready read write write' conn' db' written before live reads writes chunk run ih =>
      obtain ⟨queues, before', matched⟩ := ih
      rw [live] at matched
      cases matched with
      | @some _ queues matched =>
          obtain ⟨_, _, _, -, states⟩ := before'.accounted
          obtain ⟨steady, -⟩ := states queues rfl
          have polled : ready.Polled queues :=
            ⟨fun pollIn => matched.wantRead ▸ reads pollIn,
              fun pollOut => matched.wantWrite ▸ writes pollOut⟩
          obtain ⟨fails, -⟩ | ⟨-, _, queues', _, _, run', run'', matched'⟩ :=
            handleReady_matches appends matched steady session.db polled read write write'
          · rw [run] at fails
            cases fails
          · rw [run] at run'
            cases run'
            exact ⟨queues', before'.serve rfl polled chunk run'', matched'⟩
  | idle before ih =>
      obtain ⟨queues, before', -⟩ := ih
      exact ⟨none, before'.idle, .none⟩

/-- A connection with its buffers does, in every run, what one with byte queues may do; and its
handlers write outside a block exactly when they read into a crowded `incoming` buffer.
`outgoing` never overflows, whatever the socket takes of it and however long the responses. -/
theorem session_refines (run : SessionRun exec initial session) (appends : exec.Appends values) :
    ∃ queues : Option MiniRedis.Conn,
      MiniRedis.SessionRun values initial ⟨queues, session.db, session.received, session.sent⟩ ∧
      Option.Rel Conn.Matches session.conn queues ∧
      ∀ conn, session.conn = some conn → ∀ ready : Ready, (ready.pollIn → conn.wantRead) →
        (ready.pollOut → conn.wantWrite) → ∀ read write write',
          handleReady exec conn session.db ready read write write' = none ↔
          conn.Overrun ready read := by
  obtain ⟨queues, run', matched⟩ := run.queues appends
  refine ⟨queues, run', matched, fun conn live ready reads writes read write write' => ?_⟩
  rw [live] at matched
  cases matched with
  | @some _ queues matched =>
      obtain ⟨_, _, _, -, states⟩ := run'.accounted
      obtain ⟨steady, -⟩ := states queues rfl
      have polled : ready.Polled queues :=
        ⟨fun pollIn => matched.wantRead ▸ reads pollIn,
          fun pollOut => matched.wantWrite ▸ writes pollOut⟩
      obtain ⟨fails, overrun⟩ | ⟨within, conn', _, db', written, succeeds, -⟩ :=
        handleReady_matches appends matched steady session.db polled read write write'
      · exact ⟨fun _ => overrun, fun _ => fails⟩
      · refine ⟨fun fails => ?_, fun overrun => absurd overrun within⟩
        rw [succeeds] at fails
        cases fails

/-! ## An overrun -/

/-- Commands which are counted and answered by nothing. -/
def counting : Executor Nat := .appending fun count _ => (count + 1, [])

/-- 64 bytes fill the first block. -/
theorem bufAppend_first {data : Bytes} (length : data.length = 64) :
    bufAppend {} data = some ⟨data, 0, 64⟩ := by
  have grown : growCapacity 64 64 = 64 := by
    rw [growCapacity]
    rfl
  have room : bufMakeRoom {} 64 = some ⟨List.replicate 64 0, 0, 0⟩ := by
    simp [bufMakeRoom, Buffer.capacity, Buffer.size, reallocBlock, grown]
  have copied : copyAt (List.replicate 64 0) 0 data = some data := by
    simp [copyAt, length]
  rw [bufAppend, length, if_neg (by decide), room]
  simp only [Option.bind_eq_bind, Option.bind_some, copied]
  rfl

/-- A request of 54 bytes and the first ten of the next one. -/
def pipelined : Bytes := requestFrame [List.replicate 42 0] ++ (requestFrame [List.replicate 200 0]).take 10

theorem readU32At_pipelined : readU32At pipelined 0 = 50 ∧
    readU32At (pipelined.drop 54) 0 = 208 := by
  have sized : ∀ n, (encodeRequest [List.replicate n 0]).length = n + 8 := by
    intro n
    simp [encodeRequest, encodeStrings]
    omega
  constructor
  · have front := @readU32At_frame (encodeRequest [List.replicate 42 0]) (by rw [sized]; decide)
      ((requestFrame [List.replicate 200 0]).take 10)
    rwa [sized] at front
  · have gap : (requestFrame [List.replicate 42 0]).length = 54 := by decide
    have front := @readU32At_frame (encodeRequest [List.replicate 200 0]) (by rw [sized]; decide) []
    rw [sized, List.append_nil] at front
    rw [pipelined, List.drop_left' gap]
    rwa [readU32At, List.drop_zero, List.take_take]

/-- The first request is answered, and the ten bytes stay behind a gap of 54. -/
theorem requestLoop_pipelined (wantRead : Bool) : ∃ out, out.Holds (MiniRedis.frame []) ∧
    Conn.requestLoop { wantRead := wantRead, incoming := ⟨pipelined, 0, 64⟩ } counting 0 =
      some ({ wantRead := wantRead, incoming := ⟨pipelined, 54, 64⟩, outgoing := out }, 1) := by
  obtain ⟨field, rest⟩ := readU32At_pipelined
  have valid : ValidRequest [List.replicate 42 0] := ⟨by decide, by decide⟩
  have parsed : parseReq ((pipelined.drop 4).take 50) = some [List.replicate 42 0] := by
    have size : (encodeRequest [List.replicate 42 0]).length = 50 := by decide
    have payload : (pipelined.drop 4).take 50 = encodeRequest [List.replicate 42 0] := by
      rw [← size, pipelined, requestFrame, MiniRedis.frame, List.append_assoc,
        List.drop_left' (LittleEndian.length_encode 4 _), List.take_left]
    rw [payload]
    exact (parseReq_eq_some_iff valid.size).mpr ⟨rfl, valid⟩
  have length : pipelined.length = 64 := by decide
  have whole : Buffer.data ⟨pipelined, 0, 64⟩ = pipelined := by
    simp [Buffer.data, Buffer.size, ← length]
  have tail : Buffer.data ⟨pipelined, 54, 64⟩ = pipelined.drop 54 :=
    List.take_of_length_le (by decide)
  obtain ⟨begun, begins, fresh⟩ := responseBegin_fresh ⟨.empty, rfl⟩
  rw [← List.append_nil (LittleEndian.encode 4 0)] at fresh
  obtain ⟨out, ends, fresh'⟩ := responseEnd_fresh fresh
  rw [List.length_nil] at begins ends
  have consumed : bufConsume ⟨pipelined, 0, 64⟩ 54 = some ⟨pipelined, 54, 64⟩ :=
    bufConsume_part (by decide)
  refine ⟨out, fresh'.holds, ?_⟩
  rw [Conn.requestLoop]
  have size : Buffer.size ⟨pipelined, 0, 64⟩ = 64 := rfl
  have small : ¬50 > kMaxMsg := by decide
  have nothing : ∀ buf, bufAppend buf [] = some buf := fun _ => rfl
  simp only [tryOneRequest, size, whole, field, if_neg small, parsed, counting,
    Executor.appending, nothing]
  simp [begins, ends, consumed]
  -- the second request is not there yet
  rw [Conn.requestLoop]
  have size : Buffer.size ⟨pipelined, 54, 64⟩ = 10 := rfl
  have small : ¬208 > kMaxMsg := by decide
  simp only [tryOneRequest, size, tail, rest, if_neg small]
  simp

/-- The connection reads on, with 118 more bytes into a block in which only 54 are unused. -/
theorem session_refines_overrun : ∃ session conn, SessionRun counting 0 session ∧
    session.conn = some conn ∧ session.received = pipelined ∧
      ∀ data : Bytes, data.length = 118 → ∀ write write',
        handleReady counting conn session.db ⟨true, false, false⟩
          (.bytes data) write write' = none := by
  obtain ⟨out, holds, loop⟩ := requestLoop_pipelined true
  obtain ⟨empty, drained, holds'⟩ := @Buffer.Holds.consume _ _ holds 4 le_rfl
  have four : out.size = 4 := holds.size
  have emptied : empty.size = 0 := holds'.size
  have length : pipelined.length = 64 := by decide
  have written : handleWrite { wantWrite := true, incoming := ⟨pipelined, 54, 64⟩, outgoing := out }
      (.accepted 4) =
      some ({ wantRead := true, incoming := ⟨pipelined, 54, 64⟩, outgoing := empty }, out.data.take 4) := by
    simp [handleWrite, four, drained, emptied]
  have round : handleReady counting .accepted 0 ⟨true, false, false⟩ (.bytes pipelined)
      (.accepted 4) .again =
      some (some { wantRead := true, incoming := ⟨pipelined, 54, 64⟩, outgoing := empty }, 1,
        out.data.take 4) := by
    simp [handleReady, handleReadyWith, handleReadWith, Conn.accepted, bufAppend_first length, loop, four, written]
  have chunk : (ReadResult.bytes pipelined).Chunk := by
    rintro _ ⟨⟩
    rw [length]
    decide
  have run := SessionRun.accept.serve rfl (fun _ => rfl) (by simp) chunk round
  refine ⟨_, _, run, rfl, by simp [ReadResult.data], fun data size write write' => ?_⟩
  obtain ⟨-, -, -, aborts⟩ := session_refines run (Executor.appending_appends _)
  have crowded : Buffer.Crowded ⟨pipelined, 54, 64⟩ 118 := ⟨by decide, 1, by decide⟩
  exact (aborts _ rfl _ (fun _ => rfl) (by simp) _ write write').mpr ⟨rfl, data, rfl,
    size ▸ crowded⟩

end MiniRedis.Buffers
