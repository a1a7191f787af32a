import MiniRedis.Client.EndToEnd
import MiniRedis.Server.Buffers

/-!
# A prompt and its connection

A prompt which has sent a request waits for the response before it sends the next one. The
buffers of its connection are then never crowded, and one of the two sides can always go on.
-/

namespace MiniRedis.Buffers

open Codes

variable {σ : Type}

/-- A connection, the commands which its client has sent, and the bytes of requests which the
server has not read. -/
structure Dialogue (σ : Type) where
  session : Session σ
  asked : List (List Bytes)
  underway : Bytes

/-- The server handles what `poll` reports for the connection. -/
inductive Dialogue.Round (exec : Executor σ) (dialogue : Dialogue σ) (ready : Ready)
    (read : ReadResult)
    (write write' : WriteResult) : Dialogue σ → Prop
  | serve {conn : Conn} {conn' : Option Conn} {db' : σ} {written : Bytes}
      (live : dialogue.session.conn = some conn) (reads : ready.pollIn → conn.wantRead)
      (writes : ready.pollOut → conn.wantWrite) (chunk : read.Chunk)
      (arrived : read.data <+: dialogue.underway)
      (run : handleReady exec conn dialogue.session.db ready read write write' =
        some (conn', db', written)) :
      Dialogue.Round exec dialogue ready read write write' { dialogue with
        session := ⟨conn', db', dialogue.session.received ++ if ready.pollIn then read.data else [],
          dialogue.session.sent ++ written⟩
        underway := dialogue.underway.drop (if ready.pollIn then read.data else []).length }

/-- The runs of a client which asks again only when it has read a response to each of its
commands, and of its connection. -/
inductive DialogueRun (exec : Executor σ) (initial : σ) : Dialogue σ → Prop
  | connect : DialogueRun exec initial ⟨⟨some .accepted, initial, [], []⟩, [], []⟩
  | ask {dialogue : Dialogue σ} {cmd : List Bytes} {payloads : List Bytes}
      (before : DialogueRun exec initial dialogue) (valid : ValidRequest cmd)
      (small : ∀ payload ∈ payloads, payload.length ≤ kMaxMsg)
      (count : payloads.length = dialogue.asked.length)
      (answered : payloads.flatMap frame <+: dialogue.session.sent) :
      DialogueRun exec initial { dialogue with
        asked := dialogue.asked ++ [cmd]
        underway := dialogue.underway ++ requestFrame cmd }
  | serve {dialogue dialogue' : Dialogue σ} {ready : Ready} {read : ReadResult}
      {write write' : WriteResult}
      (before : DialogueRun exec initial dialogue)
      (round : dialogue.Round exec ready read write write' dialogue') :
      DialogueRun exec initial dialogue'
  | idle {dialogue : Dialogue σ} (before : DialogueRun exec initial dialogue) :
      DialogueRun exec initial { dialogue with session := { dialogue.session with conn := none } }

variable {exec : Executor σ} {values : MiniRedis.Executor σ} {initial : σ} {dialogue : Dialogue σ}

theorem DialogueRun.session (run : DialogueRun exec initial dialogue) :
    SessionRun exec initial dialogue.session := by
  induction run with
  | connect => exact .accept
  | ask before valid small count answered ih => exact ih
  | serve before round ih =>
      obtain ⟨live, reads, writes, chunk, arrived, run⟩ := round
      exact ih.serve live reads writes chunk run
  | idle before ih => exact ih.idle

/-! ## The position of the server -/

/-- The responses to some commands are as many frames. -/
theorem runRequests_frames (values : MiniRedis.Executor σ) (db : σ) (cmds : List (List Bytes)) :
    ∃ payloads : List Bytes, (runRequests values db cmds).2 = payloads.flatMap frame ∧
      payloads.length = cmds.length ∧ ∀ payload ∈ payloads, payload.length ≤ kMaxMsg := by
  induction cmds generalizing db with
  | nil => exact ⟨[], rfl, rfl, by simp⟩
  | cons cmd cmds ih =>
      obtain ⟨payloads, out, count, small⟩ := ih (values db cmd).1
      refine ⟨limitResponse (values db cmd).2 :: payloads, ?_, by simp [count], ?_⟩
      · simp [runRequests, out]
      · exact List.forall_mem_cons.mpr ⟨limitResponse_length _, small⟩

/-- What is sent and read in a dialogue. -/
structure Dialogue.Waits (values : MiniRedis.Executor σ) (initial : σ)
    (dialogue : Dialogue σ) : Prop where
  stream : dialogue.session.received ++ dialogue.underway = dialogue.asked.flatMap requestFrame
  valid : ∀ cmd ∈ dialogue.asked, ValidRequest cmd
  alone : ∀ earlier last, dialogue.asked = earlier ++ [last] →
    (runRequests values initial earlier).2 <+: dialogue.session.sent

/-- The server has read everything and executed it, or it lacks bytes of the last request and
has sent every response. -/
inductive Dialogue.Position (dialogue : Dialogue σ) (executed : List (List Bytes))
    (rest unsent : Bytes) : Prop
  | answering (all : executed = dialogue.asked) (read : rest = [])
      (arrived : dialogue.underway = [])
  | waiting (last : List Bytes) (all : dialogue.asked = executed ++ [last])
      (valid : ValidRequest last)
      (read : rest ++ dialogue.underway = requestFrame last) (quiet : unsent = [])

theorem Dialogue.Waits.position (waits : dialogue.Waits values initial) {db : σ}
    {executed : List (List Bytes)} {rest unsent : Bytes}
    (served : Served values initial db dialogue.session.received dialogue.session.sent unsent executed rest) :
    dialogue.Position executed rest unsent := by
  obtain ⟨⟨split, framed, -⟩, -, answered⟩ := served
  have stream := waits.stream
  rw [split, List.append_assoc] at stream
  obtain ⟨more, all⟩ : executed <+: dialogue.asked :=
    requestFrame_delimits.of_prefix framed waits.valid ⟨_, stream⟩
  rw [← all, List.flatMap_append, List.append_cancel_left_eq] at stream
  obtain rfl | ⟨others, last, rfl⟩ := more.eq_nil_or_concat'
  · rw [List.flatMap_nil, List.append_eq_nil_iff] at stream
    exact .answering (by simpa using all) stream.1 stream.2
  · have covered := waits.alone (executed ++ others) last (by rw [← all, List.append_assoc])
    -- the responses to all commands but the last one have been sent
    obtain ⟨payloads, out, count, -⟩ :=
      runRequests_frames values (runRequests values initial executed).1 others
    have within := covered.length_le
    rw [runRequests_append, out, List.length_append, ← answered, List.length_append] at within
    have none : payloads = [] := by
      cases payloads with
      | nil => rfl
      | cons payload payloads =>
          rw [List.flatMap_cons, List.length_append, length_frame] at within
          omega
    obtain rfl : others = [] := by
      rw [none, List.length_nil] at count
      exact List.eq_nil_of_length_eq_zero count.symm
    rw [List.append_nil, ← answered] at covered
    have quiet : unsent = [] := by
      have length := covered.length_le
      rw [List.length_append] at length
      exact List.eq_nil_of_length_eq_zero (by omega)
    refine .waiting last all.symm (waits.valid last (by simp [← all])) (by simpa using stream) quiet

/-- A client which asks has been sent all responses. -/
theorem Dialogue.Waits.answered (waits : dialogue.Waits values initial) {db : σ}
    {executed : List (List Bytes)} {rest unsent : Bytes}
    (served : Served values initial db dialogue.session.received dialogue.session.sent unsent executed rest)
    {payloads : List Bytes} (small : ∀ payload ∈ payloads, payload.length ≤ kMaxMsg)
    (count : payloads.length = dialogue.asked.length)
    (answered : payloads.flatMap frame <+: dialogue.session.sent) :
    (runRequests values initial dialogue.asked).2 <+: dialogue.session.sent := by
  obtain ⟨responses, out, count', small'⟩ := runRequests_frames values initial executed
  have owed := served.answered
  have begins : payloads <+: responses :=
    frame_delimits.of_prefix small small' (answered.trans ⟨unsent, owed.trans out⟩)
  have few := begins.length_le
  cases waits.position served with
  | answering all =>
      have same := begins.eq_of_length (by rw [count, count', all])
      rwa [← all, out, ← same]
  | waiting last all =>
      rw [count, count', all, List.length_append, List.length_singleton] at few
      omega

theorem DialogueRun.waits (run : DialogueRun exec initial dialogue)
    (appends : exec.Appends values) :
    dialogue.Waits values initial := by
  induction run with
  | connect => exact ⟨rfl, by simp, by simp⟩
  | ask before valid small count answered ih =>
      obtain ⟨queues, run, -⟩ := before.session.queues appends
      obtain ⟨_, _, _, served, -⟩ := run.accounted
      constructor
      · simp [← ih.stream]
      · simpa [or_imp, forall_and] using ⟨ih.valid, valid⟩
      · intro earlier last same
        obtain ⟨rfl, -⟩ := List.append_inj' same rfl
        exact ih.answered served small count answered
  | @serve dialogue _ ready _ _ _ before round ih =>
      obtain ⟨-, -, -, -, arrived, -⟩ := round
      refine ⟨?_, ih.valid, fun earlier last same => (ih.alone earlier last same).trans
        (List.prefix_append _ _)⟩
      rw [← ih.stream, List.append_assoc]
      cases ready.pollIn with
      | false => simp
      | true =>
          obtain ⟨more, split⟩ := arrived
          simp [← split]
  | idle before ih => exact ⟨ih.stream, ih.valid, ih.alone⟩

/-! ## The buffers -/

section Handlers

variable {conn : Conn} {queues : MiniRedis.Conn}

theorem bufConsume_emptied {buf buf' : Buffer} {n : Nat} (run : bufConsume buf n = some buf')
    (emptied : buf'.size = 0) : buf'.dataBegin = 0 := by
  obtain ⟨_, within, run⟩ := Option.bind_eq_some_iff.mp run
  split_ifs at run with whole
  · cases run
    rfl
  · cases run
    rw [Option.guard_eq_some'] at within
    simp only [Buffer.size] at emptied whole within
    omega

/-- Only a request in front of other bytes leaves a gap in `incoming`. -/
theorem tryOneRequest_front {more : Bool} {conn' : Conn} {db db' : σ}
    (run : tryOneRequest exec conn db = some (more, conn', db'))
    (front : conn.incoming.dataBegin = 0)
    (last : more = true → conn'.incoming.size = 0) : conn'.incoming.dataBegin = 0 := by
  rw [tryOneRequest] at run
  dsimp only at run
  split_ifs at run with header large short
  · cases run
    exact front
  · cases run
    exact front
  · cases run
    exact front
  · split at run
    · cases run
      exact front
    · obtain ⟨begun, -, run⟩ := Option.bind_eq_some_iff.mp run
      obtain ⟨written, -, run⟩ := Option.bind_eq_some_iff.mp run
      obtain ⟨ended, -, run⟩ := Option.bind_eq_some_iff.mp run
      obtain ⟨incoming, consumed, run⟩ := Option.bind_eq_some_iff.mp run
      cases run
      exact bufConsume_emptied consumed (last rfl)

/-- The stream is not longer than one request. -/
def Single (stream : Bytes) : Prop :=
  Incomplete stream ∨ ∃ cmd, ValidRequest cmd ∧ stream = requestFrame cmd

theorem requestLoop_single (appends : exec.Appends values) (matched : conn.Matches queues)
    (sends : conn.outgoing.dataBegin = 0) (front : conn.incoming.dataBegin = 0)
    (single : Single queues.incoming) (db : σ) :
    ∃ conn' db', conn.requestLoop exec db = some (conn', db') ∧ conn'.incoming.dataBegin = 0 ∧
      conn'.wantClose = conn.wantClose := by
  obtain ⟨more, conn', queues', db', run, run', matched', sends'⟩ :=
    tryOneRequest_matches appends matched sends db
  rw [Conn.requestLoop, run]
  obtain waiting | ⟨cmd, valid, whole⟩ := single
  · rw [tryOneRequest_incomplete values db waiting] at run'
    cases run'
    have front' := tryOneRequest_front run front (by simp)
    exact ⟨conn', db, rfl, front', matched'.wantClose.trans matched.wantClose.symm⟩
  · rw [tryOneRequest_frame values db valid (by rw [whole, List.append_nil])] at run'
    cases run'
    have front' := tryOneRequest_front run front fun _ => matched'.incoming.size
    -- nothing is left for another request
    obtain ⟨_, conn'', _, _, again, again', matched'', -⟩ :=
      tryOneRequest_matches appends matched' sends' (values db cmd).1
    rw [tryOneRequest_incomplete values _ incomplete_nil] at again'
    cases again'
    have front'' := tryOneRequest_front again front' (by simp)
    refine ⟨conn'', (values db cmd).1, ?_, front'',
      matched''.wantClose.trans matched.wantClose.symm⟩
    simp only [Option.bind_eq_bind, Option.bind_some, if_true]
    rw [Conn.requestLoop, again]
    rfl

theorem handleRead_single (appends : exec.Appends values) (matched : conn.Matches queues)
    (quiet : queues.outgoing = []) (front : conn.incoming.dataBegin = 0) {db db' : σ}
    {read : ReadResult}
    {write : WriteResult} (single : Single (queues.incoming ++ read.data)) {conn' : Conn}
    {written : Bytes}
    (run : handleRead exec conn db read write = some (conn', db', written)) :
    conn'.incoming.dataBegin = 0 ∧
      (conn'.wantClose = conn.wantClose ∨ read = .eof ∨ read = .error ∨ write = .error) := by
  cases read with
  | again =>
      cases run
      exact ⟨front, .inl rfl⟩
  | error =>
      cases run
      exact ⟨front, .inr (.inr (.inl rfl))⟩
  | eof =>
      cases run
      exact ⟨front, .inr (.inl rfl)⟩
  | bytes data =>
      obtain ⟨incoming, appended, run⟩ := Option.bind_eq_some_iff.mp run
      obtain ⟨_, append, holds, front'⟩ := matched.incoming.appendFront front data
      rw [append] at appended
      cases appended
      obtain ⟨conn'', db'', loop, front'', closes⟩ :=
        @requestLoop_single _ _ _ { conn with incoming := incoming }
        { queues with incoming := queues.incoming ++ data } appends { matched with incoming := holds }
        (matched.reset quiet) front' single db
      simp only [loop, Option.bind_eq_bind, Option.bind_some] at run
      split at run
      · obtain ⟨⟨last, _⟩, wrote, run⟩ := Option.bind_eq_some_iff.mp run
        cases run
        obtain ⟨same, closes'⟩ := handleWrite_keeps wrote
        refine ⟨same ▸ front'', closes'.imp (fun kept => kept.trans closes) fun fails =>
          .inr (.inr fails)⟩
      · cases run
        exact ⟨front'', .inl closes⟩

/-- The socket has failed or has been closed by the client. -/
def Lost (ready : Ready) (read : ReadResult) (write write' : WriteResult) : Prop :=
  ready.pollErr ∨ ready.pollIn ∧ (read = .eof ∨ read = .error ∨ write = .error) ∨
    ready.pollOut ∧ write' = .error

/-- A round which reads no more than one request leaves no gap, and closes the connection only
with its socket. -/
theorem handleReady_single (appends : exec.Appends values) (matched : conn.Matches queues)
    (steady : queues.Steady) (front : conn.incoming.dataBegin = 0) {db db' : σ} {ready : Ready}
    (reads : ready.pollIn → conn.wantRead) {read : ReadResult} {write write' : WriteResult}
    (single : ready.pollIn → Single (queues.incoming ++ read.data)) {conn' : Option Conn}
    {written : Bytes}
    (run : handleReady exec conn db ready read write write' = some (conn', db', written)) :
    (∀ open', conn' = some open' → open'.incoming.dataBegin = 0) ∧
      (conn' = none → Lost ready read write write') := by
  have opened : conn.wantClose = false := matched.wantClose.trans steady.opened
  obtain ⟨middle, last, first, second, rfl⟩ := handleReady_cases run
  have behind : middle.incoming.dataBegin = 0 ∧
      (middle.wantClose = false ∨ Lost ready read write write') := by
    obtain ⟨polled, out, first⟩ | ⟨-, rfl, -⟩ := first
    · have quiet := steady.alternates.reading.mp (matched.wantRead ▸ reads polled)
      obtain ⟨front', closes⟩ := handleRead_single appends matched quiet front (single polled) first
      exact ⟨front', closes.imp (fun kept => kept.trans opened) fun fails =>
        .inr (.inl ⟨polled, fails⟩)⟩
    · exact ⟨front, .inl opened⟩
  obtain ⟨front', closes⟩ : last.incoming.dataBegin = 0 ∧
      (last.wantClose = false ∨ Lost ready read write write') := by
    obtain ⟨polled, out, second⟩ | ⟨-, rfl⟩ := second
    · obtain ⟨same, kept | failed⟩ := handleWrite_keeps second
      · exact ⟨same ▸ behind.1, kept ▸ behind.2⟩
      · exact ⟨same ▸ behind.1, .inr (.inr (.inr ⟨polled, failed⟩))⟩
    · exact behind
  split
  next closing =>
    refine ⟨nofun, fun _ => ?_⟩
    obtain failed | closing := closing
    · exact .inl failed
    · exact closes.resolve_left (by simp [closing])
  next => exact ⟨fun open' live => Option.some.inj live ▸ front', nofun⟩

end Handlers

/-! ## Whole dialogues -/

/-- What arrives for the server continues the last request at most to its end. -/
theorem Dialogue.Position.single {executed : List (List Bytes)} {rest unsent data : Bytes}
    (position : dialogue.Position executed rest unsent) (arrived : data <+: dialogue.underway)
    (waiting : Incomplete rest) : Single (rest ++ data) := by
  obtain ⟨more, split⟩ := arrived
  cases position with
  | answering all read none =>
      obtain ⟨rfl, -⟩ := List.append_eq_nil_iff.mp (split.trans none)
      rw [List.append_nil]
      exact .inl waiting
  | waiting last all valid read =>
      rw [← split, ← List.append_assoc] at read
      by_cases whole : more = []
      · rw [whole, List.append_nil] at read
        exact .inr ⟨last, valid, read⟩
      · exact .inl ⟨encodeRequest last, more, valid.size, whole, read⟩

theorem DialogueRun.front (run : DialogueRun exec initial dialogue)
    (appends : exec.Appends values) :
    ∀ conn, dialogue.session.conn = some conn → conn.incoming.dataBegin = 0 := by
  induction run with
  | connect =>
      intro conn live
      obtain rfl := Option.some.inj live
      rfl
  | ask before valid small count answered ih => exact ih
  | serve before round ih =>
      obtain ⟨live, reads, -, -, arrived, run⟩ := round
      obtain ⟨queues, run', matched⟩ := before.session.queues appends
      rw [live] at matched
      cases matched with
      | @some _ queues matched =>
          obtain ⟨_, _, _, served, states⟩ := run'.accounted
          obtain ⟨steady, rfl, rfl⟩ := states queues rfl
          have single := ((before.waits appends).position served).single arrived steady.waiting
          exact (handleReady_single appends matched steady (ih _ live) reads
            (fun _ => single) run).1
  | idle before ih => exact nofun

theorem DialogueRun.sent (run : DialogueRun exec initial dialogue) (appends : exec.Appends values) :
    dialogue.session.sent <+: (runRequests values initial dialogue.asked).2 := by
  obtain ⟨queues, run', -⟩ := run.session.queues appends
  obtain ⟨executed, rest, unsent, served, -⟩ := run'.accounted
  have commands : executed <+: dialogue.asked := by
    cases (run.waits appends).position served with
    | answering all => exact all ▸ List.prefix_rfl
    | waiting last all => exact all ▸ List.prefix_append _ _
  obtain ⟨more, split⟩ := commands
  rw [← split, runRequests_append, ← served.answered]
  exact ⟨_, (List.append_assoc _ _ _).symm⟩

/-- The server waits for what is underway, or has answered everything, or it has something to
send and nothing is underway. -/
theorem DialogueRun.turn (run : DialogueRun exec initial dialogue)
    (appends : exec.Appends values) {conn : Conn}
    (live : dialogue.session.conn = some conn) :
    conn.wantRead = true ∧ (dialogue.underway = [] →
        dialogue.session.sent = (runRequests values initial dialogue.asked).2) ∨
      conn.wantWrite = true ∧ dialogue.underway = [] := by
  obtain ⟨queues, run', matched⟩ := run.session.queues appends
  obtain ⟨executed, rest, unsent, served, states⟩ := run'.accounted
  have position := (run.waits appends).position served
  rw [live] at matched
  cases matched with
  | @some _ queues matched =>
      obtain ⟨steady, rfl, rfl⟩ := states queues rfl
      by_cases quiet : queues.outgoing = []
      · refine .inl ⟨matched.wantRead.trans (steady.alternates.reading.mpr quiet), fun none => ?_⟩
        cases position with
        | answering all =>
            have answered := served.answered
            rwa [quiet, List.append_nil, all] at answered
        | waiting last all valid read =>
            -- a whole request does not wait
            have stops := not_stop_requestFrame valid []
            rw [List.append_nil, ← read, none, List.append_nil] at stops
            exact absurd (.inl steady.waiting) stops
      · refine .inr ⟨matched.wantWrite.trans (steady.alternates.writing.mpr quiet), ?_⟩
        cases position with
        | answering all read none => exact none
        | waiting last all valid read silent => exact absurd silent quiet

/-- A round whose data have been sent succeeds. -/
theorem DialogueRun.serves (run : DialogueRun exec initial dialogue) (appends : exec.Appends values)
    {conn : Conn} (live : dialogue.session.conn = some conn) {ready : Ready}
    (reads : ready.pollIn → conn.wantRead) (writes : ready.pollOut → conn.wantWrite)
    {read : ReadResult}
    (arrived : read.data <+: dialogue.underway) (write write' : WriteResult) :
    ∃ conn' db' written, handleReady exec conn dialogue.session.db ready read write write' =
      some (conn', db', written) ∧ (conn' = none → Lost ready read write write') := by
  obtain ⟨queues, run', matched⟩ := run.session.queues appends
  obtain ⟨executed, rest, unsent, served, states⟩ := run'.accounted
  have front := run.front appends conn live
  rw [live] at matched
  cases matched with
  | @some _ queues matched =>
      obtain ⟨steady, rfl, rfl⟩ := states queues rfl
      have polled : ready.Polled queues :=
        ⟨fun pollIn => matched.wantRead ▸ reads pollIn,
          fun pollOut => matched.wantWrite ▸ writes pollOut⟩
      obtain ⟨-, -, data, -, crowded⟩ | ⟨-, conn', _, db', written, succeeds, -⟩ :=
        handleReady_matches appends matched steady dialogue.session.db polled read write write'
      · exact absurd crowded (not_crowded_of_front front _)
      · have single := ((run.waits appends).position served).single arrived steady.waiting
        exact ⟨conn', db', written, succeeds,
          (handleReady_single appends matched steady front reads (fun _ => single) succeeds).2⟩

/-- Bytes of a request arrive where they are waited for, or the socket takes bytes of a response. -/
def Fruitful (ready : Ready) (read : ReadResult) (write' : WriteResult) : Prop :=
  (ready.pollIn ∧ read.data ≠ []) ∨ ready.pollOut ∧ ∃ room, write' = .accepted room ∧ 0 < room

/-- The bytes which are still to be passed until every command has been answered. -/
def Dialogue.distance (dialogue : Dialogue σ) (values : MiniRedis.Executor σ) (initial : σ) : Nat :=
  dialogue.underway.length +
    ((runRequests values initial dialogue.asked).2.length - dialogue.session.sent.length)

/-- Some fruitful rounds of the server, while the client waits. -/
inductive Rounds (exec : Executor σ) (dialogue : Dialogue σ) : Nat → Dialogue σ → Prop
  | none : Rounds exec dialogue 0 dialogue
  | more {n : Nat} {dialogue' dialogue'' : Dialogue σ} {ready : Ready} {read : ReadResult}
      {write write' : WriteResult} (before : Rounds exec dialogue n dialogue')
      (round : dialogue'.Round exec ready read write write' dialogue'')
      (fruitful : Fruitful ready read write') : Rounds exec dialogue (n + 1) dialogue''

/-- A socket which takes bytes is given some. -/
theorem handleReady_sends {conn : Conn} {queues : MiniRedis.Conn} (matched : conn.Matches queues)
    (steady : queues.Steady) {db db' : σ} {ready : Ready} (reads : ready.pollIn → conn.wantRead)
    (writes : ready.pollOut → conn.wantWrite) {read : ReadResult} {write : WriteResult} {room : Nat}
    {conn' : Option Conn} {written : Bytes} (polled : ready.pollOut) (takes : 0 < room)
    (run : handleReady exec conn db ready read write (.accepted room) = some (conn', db', written)) :
    written ≠ [] := by
  obtain ⟨pollIn, pollOut, pollErr⟩ := ready
  have pending := steady.alternates.writing.mp (matched.wantWrite ▸ writes polled)
  obtain rfl : pollIn = false := by
    by_contra both
    exact pending (steady.alternates.reading.mp (matched.wantRead ▸ reads (by simpa using both)))
  obtain rfl : pollOut = true := polled
  rw [handleReady] at run
  obtain ⟨_, -, run⟩ := Option.bind_eq_some_iff.mp run
  obtain ⟨⟨last, out⟩, wrote, run⟩ := Option.bind_eq_some_iff.mp run
  have same : out = written := by
    dsimp only at run
    split at run
    · cases run
      rfl
    · cases run
      rfl
  obtain ⟨_, -, wrote⟩ := Option.bind_eq_some_iff.mp wrote
  obtain ⟨outgoing, -, wrote⟩ := Option.bind_eq_some_iff.mp wrote
  have front : out = conn.outgoing.data.take (min room conn.outgoing.size) := by
    dsimp only at wrote
    split at wrote
    · cases wrote
      rfl
    · cases wrote
      rfl
  rw [← same, front, matched.outgoing.data, matched.outgoing.size, Ne, List.take_eq_nil_iff, not_or]
  have positive := List.length_pos_of_ne_nil pending
  exact ⟨by omega, pending⟩

variable {dialogue' : Dialogue σ}

/-- Each fruitful round comes nearer to the answer of every command. -/
theorem Dialogue.Round.nearer (run : DialogueRun exec initial dialogue)
    (appends : exec.Appends values)
    {ready : Ready} {read : ReadResult} {write write' : WriteResult}
    (round : dialogue.Round exec ready read write write' dialogue')
    (fruitful : Fruitful ready read write') :
    dialogue'.distance values initial < dialogue.distance values initial := by
  have within := ((run.serve round).sent appends).length_le
  obtain ⟨live, reads, writes, chunk, arrived, served⟩ := round
  have fewer := arrived.length_le
  simp only [distance, List.length_append, List.length_drop] at within ⊢
  obtain ⟨polled, nonempty⟩ | ⟨polled, room, rfl, takes⟩ := fruitful
  · have positive := List.length_pos_of_ne_nil nonempty
    rw [if_pos polled]
    omega
  · obtain ⟨queues, run', matched⟩ := run.session.queues appends
    obtain ⟨_, _, _, -, states⟩ := run'.accounted
    rw [live] at matched
    cases matched with
    | @some _ queues matched =>
        have nonempty := handleReady_sends matched
            (states queues rfl).1 reads writes polled takes served
        have positive := List.length_pos_of_ne_nil nonempty
        omega

theorem Rounds.run {n : Nat} (rounds : Rounds exec dialogue n dialogue')
    (run : DialogueRun exec initial dialogue) (appends : exec.Appends values) :
    DialogueRun exec initial dialogue' ∧ dialogue'.asked = dialogue.asked ∧
      n + dialogue'.distance values initial ≤ dialogue.distance values initial := by
  induction rounds with
  | none => exact ⟨run, rfl, by omega⟩
  | more before round fruitful ih =>
      obtain ⟨run', same, near⟩ := ih
      have nearer := round.nearer run' appends fruitful
      refine ⟨run'.serve round, ?_, by omega⟩
      cases round
      exact same

end MiniRedis.Buffers
