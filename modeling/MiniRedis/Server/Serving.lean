import MiniRedis.Server.Connection

/-!
# Serving a connection

One round of the event loop for one connection, from whatever state the database is in:
what it executes, what it owes for it, and how it leaves the connection.
-/

namespace MiniRedis

variable {σ : Type}

/-! ## The request loop -/

theorem Framed.cons {cmd : List Bytes} {cmds : List (List Bytes)} {stream rest : Bytes}
    (framed : Framed stream cmds rest) (valid : ValidRequest cmd) :
    Framed (requestFrame cmd ++ stream) (cmd :: cmds) rest where
  split := by rw [framed.split, List.flatMap_cons, List.append_assoc]
  valid := List.forall_mem_cons.mpr ⟨valid, framed.valid⟩
  stop := framed.stop

/-- More bytes behind an unfinished frame continue the decomposition there. -/
theorem Framed.append {front back : List (List Bytes)} {stream more tail rest : Bytes}
    (framed : Framed stream front tail) (continued : Framed (tail ++ more) back rest) :
    Framed (stream ++ more) (front ++ back) rest where
  split := by
    rw [framed.split, List.append_assoc, continued.split, List.flatMap_append, List.append_assoc]
  valid cmd member := (List.mem_append.mp member).elim (framed.valid cmd) (continued.valid cmd)
  stop := continued.stop

/-- The loop executes the frames in front and stops at the rest, which is refused unless it
is unfinished. -/
theorem requestLoop_spec (exec : Executor σ) (conn : Conn) (db : σ) (opened : conn.wantClose = false) :
    ∃ cmds rest close, conn.requestLoop exec db = some ({ conn with
        wantClose := close
        incoming := rest
        outgoing := conn.outgoing ++ (runRequests exec db cmds).2 }, (runRequests exec db cmds).1) ∧
      Framed conn.incoming cmds rest ∧ (close = false → Incomplete rest) := by
  induction length : conn.incoming.length using Nat.strong_induction_on generalizing conn db with
  | _ size ih =>
      by_cases waiting : Incomplete conn.incoming
      · refine ⟨[], conn.incoming, false, ?_, ⟨rfl, by simp, .inl waiting⟩, fun _ => waiting⟩
        rw [Conn.requestLoop, tryOneRequest_incomplete exec db waiting]
        simp [runRequests, ← opened]
      · by_cases frames : ∃ cmd rest, ValidRequest cmd ∧ conn.incoming = requestFrame cmd ++ rest
        · obtain ⟨cmd, rest, valid, stream⟩ := frames
          have shorter : rest.length < size := by
            rw [← length, stream, List.length_append, requestFrame, length_frame]
            omega
          obtain ⟨cmds, last, close, run, framed, stop⟩ := ih rest.length shorter { conn with
            incoming := rest
            outgoing := conn.outgoing ++ frame (limitResponse (exec db cmd).2) } (exec db cmd).1
            opened rfl
          refine ⟨cmd :: cmds, last, close, ?_, stream ▸ framed.cons valid, stop⟩
          rw [Conn.requestLoop, tryOneRequest_frame exec db valid stream]
          simp [run, runRequests]
        · obtain ⟨refused, bad⟩ := tryOneRequest_refused exec db waiting frames
          refine ⟨[], conn.incoming, true, ?_, ⟨rfl, by simp, .inr bad⟩, by simp⟩
          rw [Conn.requestLoop, refused]
          simp [runRequests]

/-! ## Reading and writing -/

/-- A connection reads while nothing is to be sent, and else writes. -/
structure Conn.Alternates (conn : Conn) : Prop where
  reading : conn.wantRead = true ↔ conn.outgoing = []
  writing : conn.wantWrite = true ↔ conn.outgoing ≠ []

/-- Writing passes bytes from the front of `outgoing` to the socket. -/
theorem handleWrite_spec {conn : Conn} (pending : conn.outgoing ≠ []) (idle : conn.wantRead = false)
    (busy : conn.wantWrite = true) (result : WriteResult) :
    ∃ conn' written, handleWrite conn result = some (conn', written) ∧ conn'.Alternates ∧
      written ++ conn'.outgoing = conn.outgoing ∧ conn'.incoming = conn.incoming ∧
      (conn'.wantClose = false → conn.wantClose = false) := by
  have positive := List.length_pos_of_ne_nil pending
  cases result with
  | again =>
      exact ⟨conn, [], by simp [handleWrite, positive], ⟨by simp [idle, pending], by simp [busy, pending]⟩,
        rfl, rfl, id⟩
  | error =>
      exact ⟨{ conn with wantClose := true }, [], by simp [handleWrite, positive],
        ⟨by simp [idle, pending], by simp [busy, pending]⟩, rfl, rfl, by simp⟩
  | accepted room =>
      have whole := List.take_append_drop (min room conn.outgoing.length) conn.outgoing
      by_cases finished : (conn.outgoing.drop (min room conn.outgoing.length)).length = 0
      · have empty := List.eq_nil_of_length_eq_zero finished
        refine ⟨{ conn with
            outgoing := conn.outgoing.drop (min room conn.outgoing.length)
            wantRead := true
            wantWrite := false }, _, ?_, ⟨by simp [empty], by simp [empty]⟩, whole, rfl, id⟩
        rw [handleWrite]
        simp only [positive, guard_true, Option.bind_eq_bind, finished, if_true]
        rfl
      · have left : conn.outgoing.drop (min room conn.outgoing.length) ≠ [] := fun empty =>
          finished (by rw [empty]; rfl)
        refine ⟨{ conn with outgoing := conn.outgoing.drop (min room conn.outgoing.length) }, _, ?_,
          ⟨by simp only [idle, left]; simp, by simp only [busy]; simpa using left⟩, whole, rfl, id⟩
        rw [handleWrite]
        simp only [positive, guard_true, Option.bind_eq_bind, finished, if_false]
        rfl

def ReadResult.data : ReadResult → Bytes
  | .bytes data => data
  | _ => []

/-- A round executes the frames which the new bytes complete; their responses follow what
was unsent. -/
structure Serves (exec : Executor σ) (conn : Conn) (db db' : σ) (data written unsent : Bytes)
    (cmds : List (List Bytes)) (rest : Bytes) : Prop where
  framed : Framed (conn.incoming ++ data) cmds rest
  executed : db' = (runRequests exec db cmds).1
  answered : written ++ unsent = conn.outgoing ++ (runRequests exec db cmds).2

variable {exec : Executor σ} {conn : Conn} {db : σ}

/-- A round which executes nothing may still write. -/
theorem Serves.quiet (waiting : Incomplete conn.incoming) {written unsent : Bytes}
    (parts : written ++ unsent = conn.outgoing) :
    Serves exec conn db db [] written unsent [] conn.incoming where
  framed := ⟨by simp, by simp, .inl waiting⟩
  executed := rfl
  answered := by simp [runRequests, parts]

/-- Reading executes what the new bytes complete. -/
theorem handleRead_spec (db : σ) (waiting : Incomplete conn.incoming) (alternates : conn.Alternates)
    (opened : conn.wantClose = false) (reads : conn.wantRead = true) (read : ReadResult)
    (write : WriteResult) :
    ∃ conn' db' written cmds, handleRead exec conn db read write = some (conn', db', written) ∧
      Serves exec conn db db' read.data written conn'.outgoing cmds conn'.incoming ∧
      conn'.Alternates ∧ (conn'.wantClose = false → Incomplete conn'.incoming) := by
  have quiet := alternates.reading.mp reads
  have unread : Serves exec conn db db [] [] conn.outgoing [] conn.incoming := .quiet waiting rfl
  cases read with
  | again => exact ⟨conn, db, [], [], rfl, unread, alternates, fun _ => waiting⟩
  | error =>
      exact ⟨{ conn with wantClose := true }, db, [], [], rfl, unread,
        ⟨alternates.reading, alternates.writing⟩, fun _ => waiting⟩
  | eof =>
      exact ⟨{ conn with wantClose := true }, db, [], [], rfl, unread,
        ⟨alternates.reading, alternates.writing⟩, fun _ => waiting⟩
  | bytes data =>
      obtain ⟨more, rest, close, loop, framed, stop⟩ := requestLoop_spec exec
        { conn with incoming := conn.incoming ++ data } db opened
      have owed : conn.outgoing ++ (runRequests exec db more).2 = (runRequests exec db more).2 := by
        rw [quiet, List.nil_append]
      simp only [owed] at loop
      by_cases silent : (runRequests exec db more).2 = []
      · refine ⟨{ conn with wantClose := close, incoming := rest, outgoing := [] }, _, [], more, ?_,
          ⟨framed, rfl, by rw [owed, silent]; rfl⟩, ⟨by simp [reads], ?_⟩, stop⟩
        · simp [handleRead, loop, silent]
        · have idle := alternates.writing
          rw [quiet] at idle
          exact idle
      · obtain ⟨conn', written, wrote, alternates', parts, same, closed⟩ := @handleWrite_spec
          { conn with
            wantRead := false
            wantWrite := true
            wantClose := close
            incoming := rest
            outgoing := (runRequests exec db more).2 } silent rfl rfl write
        refine ⟨conn', (runRequests exec db more).1, written, more, ?_,
          ⟨same ▸ framed, rfl, by rw [owed, parts]⟩, alternates', fun kept => ?_⟩
        · have positive := List.length_pos_of_ne_nil silent
          rw [handleRead]
          simp only [loop, Option.bind_eq_bind, Option.bind_some, gt_iff_lt, positive, if_true, wrote]
          rfl
        · rw [same]
          exact stop (closed kept)

/-! ## One round of the event loop -/

/-- An open connection between two rounds of the event loop. -/
structure Conn.Steady (conn : Conn) : Prop where
  opened : conn.wantClose = false
  alternates : conn.Alternates
  waiting : Incomplete conn.incoming

/-- Whatever `poll` reports for an open connection, its handlers run without a failed
assertion and leave it open with an unfinished frame, or closed, as after an error. -/
theorem handleReady_spec (exec : Executor σ) (db : σ) (steady : conn.Steady) {ready : Ready}
    (polled : ready.Polled conn) (read : ReadResult) (write write' : WriteResult) :
    ∃ conn' db' written cmds unsent rest,
      handleReady exec conn db ready read write write' = some (conn', db', written) ∧
      Serves exec conn db db' (if ready.pollIn then read.data else []) written unsent cmds rest ∧
      (ready.pollErr → conn' = none) ∧
      ∀ open', conn' = some open' → open'.Steady ∧ open'.outgoing = unsent ∧ open'.incoming = rest := by
  obtain ⟨pollIn, pollOut, pollErr⟩ := ready
  obtain ⟨reading, writing⟩ := polled
  -- the connection behind both handlers, before the decision to close it
  have handlers : ∃ conn' db' written cmds,
      handleReady exec conn db ⟨pollIn, pollOut, pollErr⟩ read write write' =
        some (if pollErr ∨ conn'.wantClose then none else some conn', db', written) ∧
      Serves exec conn db db' (if pollIn then read.data else []) written conn'.outgoing cmds
        conn'.incoming ∧
      conn'.Alternates ∧ (conn'.wantClose = false → Incomplete conn'.incoming) := by
    cases pollIn with
    | true =>
        have reads := reading rfl
        have quiet := steady.alternates.reading.mp reads
        obtain rfl : pollOut = false := by
          by_contra both
          exact steady.alternates.writing.mp (writing (by simpa using both)) quiet
        obtain ⟨conn', db', written, cmds, run, serves, alternates, stop⟩ :=
          handleRead_spec db steady.waiting steady.alternates steady.opened reads read write
        refine ⟨conn', db', written, cmds, ?_, serves, alternates, stop⟩
        simp [handleReady, reads, run]
        split <;> rfl
    | false =>
        cases pollOut with
        | true =>
            have writes := writing rfl
            have pending := steady.alternates.writing.mp writes
            have idle : conn.wantRead = false := by
              by_contra reads
              exact pending (steady.alternates.reading.mp (by simpa using reads))
            obtain ⟨conn', written, run, alternates, parts, same, -⟩ :=
              handleWrite_spec pending idle writes write'
            refine ⟨conn', db, written, [], ?_, ?_, alternates, fun _ => same ▸ steady.waiting⟩
            · simp [handleReady, writes, run]
              split <;> rfl
            · rw [same]
              exact .quiet steady.waiting parts
        | false =>
            refine ⟨conn, db, [], [], ?_, .quiet steady.waiting rfl, steady.alternates,
              fun _ => steady.waiting⟩
            simp [handleReady]
            split <;> rfl
  obtain ⟨conn', db', written, cmds, run, serves, alternates, stop⟩ := handlers
  refine ⟨_, db', written, cmds, _, _, run, serves, fun failed => if_pos (.inl failed),
    fun open' kept => ?_⟩
  split at kept
  · cases kept
  · next stays =>
      obtain rfl := Option.some.inj kept
      rw [not_or, Bool.not_eq_true, Bool.not_eq_true] at stays
      exact ⟨⟨stays.2, alternates, stop stays.2⟩, rfl, rfl⟩

theorem incomplete_nil : Incomplete [] := incomplete_iff.mpr (.inl (by simp))

theorem Conn.accepted_steady : Conn.accepted.Steady where
  opened := rfl
  alternates := ⟨by simp [accepted], by simp [accepted]⟩
  waiting := incomplete_nil

end MiniRedis
