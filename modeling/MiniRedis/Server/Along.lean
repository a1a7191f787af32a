import MiniRedis.Server.Connection

/-!
# Executors along a map

What the handlers of a connection do does not depend on what the database is made of: two
executors which agree along a map of their databases are called with the same commands.
-/

namespace MiniRedis

variable {σ τ : Type}

/-- Two executors which agree along a map of their databases. -/
def Executor.Along (f : σ → τ) (exec : Executor σ) (exec' : Executor τ) : Prop :=
  ∀ db cmd, exec' (f db) cmd = (f (exec db cmd).1, (exec db cmd).2)

variable {f : σ → τ} {exec : Executor σ} {exec' : Executor τ}

/-- A request is handled alike along a map of states. -/
theorem tryOneRequest_along (along : exec.Along f exec') (conn : Conn) (db : σ) :
    tryOneRequest exec' conn (f db) =
      (tryOneRequest exec conn db).map fun (more, conn, db) => (more, conn, f db) := by
  rw [tryOneRequest, tryOneRequest]
  split_ifs with header
  · rfl
  · dsimp only
    split_ifs with large short
    · rfl
    · rfl
    · split
      · rfl
      · next cmd parsed =>
          rw [along db cmd]
          simp only [Option.bind_eq_bind, Option.map_bind]
          rfl

/-- A request which is executed leaves fewer bytes. -/
theorem tryOneRequest_shorter {conn conn' : Conn} {db db' : σ}
    (run : tryOneRequest exec conn db = some (true, conn', db')) :
    conn'.incoming.length < conn.incoming.length := by
  rw [tryOneRequest] at run
  split_ifs at run with header
  · cases run
  · dsimp only at run
    split_ifs at run
    · cases run
    · cases run
    · split at run
      · cases run
      · obtain ⟨out, -, run⟩ := Option.bind_eq_some_iff.mp run
        cases run
        rw [List.length_drop]
        omega

/-- So are all requests in the buffer. -/
theorem requestLoop_along (along : exec.Along f exec') (conn : Conn) (db : σ) :
    conn.requestLoop exec' (f db) =
      (conn.requestLoop exec db).map fun (conn, db) => (conn, f db) := by
  induction length : conn.incoming.length using Nat.strong_induction_on generalizing conn db with
  | _ size ih =>
      rw [Conn.requestLoop, tryOneRequest_along along, Conn.requestLoop]
      cases first : tryOneRequest exec conn db with
      | none => rfl
      | some result =>
          obtain ⟨more, conn', db'⟩ := result
          cases more with
          | false => rfl
          | true =>
              have shorter := tryOneRequest_shorter first
              exact ih _ (length ▸ shorter) conn' db' rfl

/-- So is a call of `handle_read`. -/
theorem handleRead_along (along : exec.Along f exec') (conn : Conn) (db : σ) (read : ReadResult)
    (write : WriteResult) : handleRead exec' conn (f db) read write =
      (handleRead exec conn db read write).map fun (conn, db, out) => (conn, f db, out) := by
  cases read with
  | bytes data =>
      simp only [handleRead, requestLoop_along along]
      cases Conn.requestLoop { conn with incoming := conn.incoming ++ data } exec db with
      | none => rfl
      | some result =>
          obtain ⟨conn', db'⟩ := result
          simp only [Option.map_some, Option.bind_eq_bind, Option.bind_some]
          split
          · cases handleWrite { conn' with wantRead := false, wantWrite := true } write <;> rfl
          · rfl
  | _ => rfl

/-- A round of the event loop does the same along the map. -/
theorem handleReady_along (along : exec.Along f exec') (conn : Conn) (db : σ) (ready : Ready)
    (read : ReadResult) (write write' : WriteResult) :
    handleReady exec' conn (f db) ready read write write' =
      (handleReady exec conn db ready read write write').map
        fun result => (result.1, f result.2.1, result.2.2) := by
  obtain ⟨pollIn, pollOut, pollErr⟩ := ready
  have behind : ∀ conn' db' written, (do
      let result ←
        if pollOut then do
          guard conn'.wantWrite
          handleWrite conn' write'
        else some (conn', [])
      if pollErr ∨ result.1.wantClose then return (none, f db', written ++ result.2)
      else return (some result.1, f db', written ++ result.2) :
        Option (Option Conn × τ × Bytes)) =
      Option.map (fun result => (result.1, f result.2.1, result.2.2)) (do
        let result ←
          if pollOut then do
            guard conn'.wantWrite
            handleWrite conn' write'
          else some (conn', [])
        if pollErr ∨ result.1.wantClose then return (none, db', written ++ result.2)
        else return (some result.1, db', written ++ result.2)) := by
    intro conn' db' written
    cases pollOut with
    | false =>
        simp only [Bool.false_eq_true, if_false, Option.bind_eq_bind, Option.bind_some]
        split <;> rfl
    | true =>
        cases conn'.wantWrite with
        | false => rfl
        | true =>
            cases handleWrite conn' write' with
            | none => rfl
            | some result =>
                simp only [if_true, guard_true, Option.pure_def, Option.bind_eq_bind,
                  Option.bind_some]
                split <;> rfl
  cases pollIn with
  | false => exact behind conn db []
  | true =>
      rw [handleReady, handleReady, handleRead_along along]
      cases conn.wantRead with
      | false => rfl
      | true =>
          cases handleRead exec conn db read write with
          | none => rfl
          | some result => exact behind result.1 result.2.1 result.2.2

/-- And so are the commands one after another. -/
theorem runRequests_along (along : exec.Along f exec') (db : σ) (cmds : List (List Bytes)) :
    runRequests exec' (f db) cmds =
      (f (runRequests exec db cmds).1, (runRequests exec db cmds).2) := by
  induction cmds generalizing db with
  | nil => rfl
  | cons cmd cmds ih => simp only [runRequests, along db cmd, ih]

end MiniRedis
