import MiniRedis.Client.Transaction
import MiniRedis.Library.Codes
import MiniRedis.Server.Clients

/-!
# A prompt and the server

What a user sees at the prompt are the answers of the map to the typed commands, wherever
those of other clients have run in between.
-/

namespace MiniRedis

open Codes

theorem requestFrame_delimits : SelfDelimiting requestFrame ValidRequest where
  nonempty cmd _ := by simp [requestFrame, frame, LittleEndian.encode]
  cut valid valid' same := requestFrame_injective valid valid' same

theorem frame_delimits : SelfDelimiting frame fun payload => payload.length ≤ kMaxMsg where
  nonempty payload _ := by simp [frame, LittleEndian.encode]
  cut small small' same := eq_of_frame small small' same

/-- The value which reaches the client for a reply. -/
def WireValue.limited (reply : WireValue) : WireValue :=
  if kMaxMsg < reply.encode.length then errValue .tooBig "response is too big." else reply

theorem WireValue.encode_limited (reply : WireValue) :
    reply.limited.encode = limitResponse reply.encode := by
  rw [WireValue.limited, limitResponse]
  split <;> rfl

theorem WireValue.limited_fits {reply : WireValue} (fits : reply.Fits) : reply.limited.Fits := by
  rw [WireValue.limited]
  split
  · exact errValue_fits _ _
  · exact fits

/-- Every answer in a history is a value. -/
theorem SpecRun.replies {history : List ServerEvent} {map : Contents} {clock : Nat}
    (spec : SpecRun history map clock) (client : Nat) :
    ∃ replies : List WireValue, (exchanges client history).map Prod.snd =
      replies.map WireValue.encode ∧
      ∀ reply ∈ replies, reply.Fits := by
  induction spec with
  | start => exact ⟨[], rfl, by simp⟩
  | @command history map map' clock before other env later cmd reply fits answers ih =>
      obtain ⟨replies, same, allFit⟩ := ih
      by_cases own : other = client
      · refine ⟨replies ++ [reply], ?_, ?_⟩
        · rw [exchanges_append, List.map_append, same, List.map_append]
          simp [exchanges, ServerEvent.of?, own]
        · intro value member
          obtain member | rfl := List.mem_append.mp member |>.imp id List.mem_singleton.mp
          · exact allFit value member
          · exact fits
      · refine ⟨replies, ?_, allFit⟩
        rw [exchanges_append, List.map_append, same]
        simp [exchanges, ServerEvent.of?, own]
  | timers before env later expires earliest ih =>
      obtain ⟨replies, same, allFit⟩ := ih
      refine ⟨replies, ?_, allFit⟩
      rw [exchanges_append, List.map_append, same]
      simp [exchanges, ServerEvent.of?]

variable {loop : EventLoop Server Conn} {phase : LoopPhase} {clock client : Nat} {traffic : Traffic}
  {cmds : List (List Bytes)} {payloads : List Bytes}

/-- A client whose requests have all been answered: its commands have run, in its order, and
the messages which it has read are the responses to them. -/
theorem TrafficRun.answered (run : TrafficRun loop phase clock traffic)
    (valid : ∀ cmd ∈ cmds, ValidRequest cmd)
    (received : traffic.received client <+: cmds.flatMap requestFrame)
    (small : ∀ payload ∈ payloads, payload.length ≤ kMaxMsg) (count : payloads.length = cmds.length)
    (sent : payloads.flatMap frame <+: traffic.sent client) :
    commandsOf client traffic.history = cmds ∧
      payloads = (exchanges client traffic.history).map fun exchange =>
        limitResponse exchange.2 := by
  obtain ⟨accounted, -⟩ := run.accounted
  obtain ⟨rest, unsent, framed, owed, -⟩ := accounted.settled client
  have commands : commandsOf client traffic.history <+: cmds := by
    apply requestFrame_delimits.of_prefix framed.valid valid
    exact (List.prefix_append _ _).trans (framed.split ▸ received)
  have limited : ∀ payload ∈ (exchanges client traffic.history).map
      (fun exchange => limitResponse exchange.2), payload.length ≤ kMaxMsg := by
    intro payload member
    obtain ⟨exchange, -, rfl⟩ := List.mem_map.mp member
    exact limitResponse_length exchange.2
  have answers : payloads <+: (exchanges client traffic.history).map
      fun exchange => limitResponse exchange.2 := by
    apply frame_delimits.of_prefix small limited
    rw [List.flatMap_map]
    exact sent.trans ⟨unsent, owed⟩
  -- as many responses as commands, so that neither is a strict beginning
  have few := commands.length_le
  have many := answers.length_le
  rw [commandsOf, List.length_map] at few
  rw [List.length_map] at many
  refine ⟨commands.eq_of_length ?_, answers.eq_of_length ?_⟩
  · rw [commandsOf, List.length_map]
    omega
  · rw [List.length_map]
    omega

/-- Whatever other clients do: once the server has sent a response for each command which was
typed, the history holds these commands in the order of the lines, and the prompt has shown
the replies to them, without an error. The connections of the run are byte queues; a run of the
process with its buffers which has not ended is such a run (`Buffers.TrafficRun.queues`). -/
theorem prompt_served (run : TrafficRun loop phase clock traffic)
    {accepts : Nat → Nat → Nat → Nat} (all : ∀ n, AcceptsAll (accepts n)) {lines : List Bytes}
    (valid : ∀ cmd ∈ typedCommands lines, ValidRequest cmd)
    (received : traffic.received client <+: (typedCommands lines).flatMap requestFrame)
    (count : payloads.length = (typedCommands lines).length)
    (sent : payloads.flatMap frame <+: traffic.sent client) {input : Input}
    {outcomes' : Nat → ReadOutcome} (arrives : DeliversFrames input.outcomes payloads outcomes') :
    ∃ clock' ≤ clock, SpecRun traffic.history loop.db.contents clock' ∧
      commandsOf client traffic.history = typedCommands lines ∧
      ∃ replies : List WireValue,
        (exchanges client traffic.history).map Prod.snd = replies.map WireValue.encode ∧
        repl accepts input lines = some {
          sent := (typedCommands lines).flatMap requestFrame
          printed := .text "Enter 'quit' to stop.\n" :: screen lines
            (replies.map WireValue.limited) } := by
  obtain ⟨-, clock', past, spec⟩ := run.accounted
  obtain ⟨commands, answers⟩ := run.answered valid received arrives.small count sent
  obtain ⟨replies, same, fits⟩ := spec.replies client
  have values : payloads = (replies.map WireValue.limited).map WireValue.encode := by
    have decoded : ∀ pairs : List (List Bytes × Bytes),
      pairs.map (fun exchange => limitResponse exchange.2) =
        (pairs.map Prod.snd).map limitResponse := by simp
    rw [answers, decoded, same]
    simp [WireValue.encode_limited]
  have limitedFits : ∀ value ∈ replies.map WireValue.limited, value.Fits := by
    intro value member
    obtain ⟨reply, inside, rfl⟩ := List.mem_map.mp member
    exact WireValue.limited_fits (fits reply inside)
  rw [values] at arrives count
  rw [List.length_map] at count
  have shows := replLoop_spec all valid limitedFits count arrives
  refine ⟨clock', past, spec, commands, replies, same, ?_⟩
  rw [repl, shows]
  rfl

/-! ## One line -/

/-- A whole frame is answered at once by a socket which takes enough. -/
theorem handleReady_whole {σ : Type} (exec : Executor σ) (db : σ) {cmd : List Bytes}
    (valid : ValidRequest cmd) {out : Bytes}
    (answers : frame (limitResponse (exec db cmd).2) = out) :
    handleReady exec .accepted db ⟨true, false, false⟩ (.bytes (requestFrame cmd))
        (.accepted out.length) .again =
      some (some .accepted, (exec db cmd).1, out) := by
  have stream : ({ Conn.accepted with incoming := [] ++ requestFrame cmd } : Conn).incoming =
      requestFrame cmd ++ [] := by simp
  have loop : Conn.requestLoop { Conn.accepted with incoming := [] ++ requestFrame cmd } exec db =
      some ({ Conn.accepted with outgoing := out }, (exec db cmd).1) := by
    rw [Conn.requestLoop, tryOneRequest_frame exec db valid stream, answers]
    simp only [Option.bind_eq_bind, Option.bind_some, if_true]
    rw [Conn.requestLoop, tryOneRequest_incomplete exec _ incomplete_nil]
    rfl
  have positive : 0 < out.length := by
    rw [← answers, length_frame]
    omega
  have writes : handleWrite { Conn.accepted with
      wantRead := false
      wantWrite := true
      outgoing := out } (.accepted out.length) = some (.accepted, out) := by
    simp [handleWrite, positive, Conn.accepted]
  have reads : handleRead exec .accepted db (.bytes (requestFrame cmd)) (.accepted out.length) =
      some (.accepted, (exec db cmd).1, out) := by
    rw [handleRead]
    rw [show Conn.accepted.incoming = [] from rfl, loop]
    simp only [Option.bind_eq_bind, Option.bind_some, gt_iff_lt, positive, if_true, writes]
    rfl
  simp [handleReady, Conn.accepted] at reads ⊢
  simp [reads]

/-- The client asks for the keys and is answered. -/
theorem TrafficRun.keys : ∃ loop traffic, ∃ reply : WireValue,
    TrafficRun loop (.serving []) 0 traffic ∧ traffic.received 0 = requestFrame [ascii "keys"] ∧
      traffic.sent 0 = frame (limitResponse reply.encode) := by
  obtain ⟨loop, run, live, io, stored⟩ :=
    @TrafficRun.connected (fun _ => 0) (fun _ => {}) (fun _ => 0) _
    Server.start_initial Env.counting
  have valid : ValidRequest [ascii "keys"] := ⟨by decide, by decide⟩
  have allowed : ¬NegativeTtl [ascii "keys"] := not_negativeTtl (by decide)
  obtain ⟨state', reply, executes, -⟩ := @execCmd_simulates _ _ Env.counting
    (Server.start_initial.consistent 0) le_rfl _ allowed []
  rw [List.nil_append, ← stored] at executes
  -- the whole request arrives at once
  obtain ⟨loop', serves, -, conn, member, -, -, cmds, rest, framed, executed⟩ :=
    (run.process.sound.2.1.withDb (some loop.db, [Env.counting])).serve le_rfl execEach
      (.bytes (requestFrame [ascii "keys"]))
      (.accepted (frame (limitResponse reply.encode)).length) .again
  obtain rfl : conn = 7 := by simpa [EventLoop.withDb, live] using member
  have stream : Framed (requestFrame [ascii "keys"]) [[ascii "keys"]] [] :=
    ⟨by simp, by simpa using valid, .inl incomplete_nil⟩
  have received : (loop.withDb (some loop.db, [Env.counting])).io 7 = .accepted := io
  rw [received, Conn.accepted] at framed
  obtain ⟨rfl, rfl⟩ := framed.unique stream
  have database : loop'.db = (some state', []) := by
    rw [executed]
    simp [EventLoop.withDb, runRequests, execEach, executes]
  have whole : (loop'.withDb state').withDb (some state', []) = loop' := by
    rw [← database]
    rfl
  rw [← whole] at serves
  obtain ⟨conn, member, io', db, written, events, handled, run'⟩ := run.exists_serve le_rfl
    Env.counting.nowBound (by simp) _ _ _ serves
  obtain rfl : conn = 7 := by simpa [live] using member
  have answers : ∀ client, frame (limitResponse (execRecorded client
      ((some loop.db, [Env.counting]), [])
      [ascii "keys"]).2) = frame (limitResponse reply.encode) := by
    simp [execRecorded, execEach, executes]
  rw [io, handleReady_whole _ _ valid (answers _)] at handled
  cases handled
  refine ⟨_, _, reply, run', ?_, ?_⟩
  · simp [Traffic.expire, Traffic.accept, ReadResult.data]
  · simp [Traffic.expire, Traffic.accept]

/-- A user who types `keys` behind a blank gets the answer which the server has sent. -/
theorem prompt_served_keys : ∃ accepts input, ∃ replies : List WireValue,
    repl accepts input [ascii " keys"] = some {
      sent := requestFrame [ascii "keys"]
      printed := .text "Enter 'quit' to stop.\n" :: screen [ascii " keys"] replies } := by
  obtain ⟨loop, traffic, reply, run, received, sent⟩ := TrafficRun.keys
  rw [← WireValue.encode_limited] at sent
  have words : tokens (ascii " keys") = [ascii "keys"] := by
    apply tokens_iff.mpr
    exact @Spaced.word [32] (ascii "keys") [] [] (by simp [isSpace]) (by decide)
      (by simp [ascii, isSpace]) (by simp) (.blanks (by simp))
  have typed : typedCommands [ascii " keys"] = [[ascii "keys"]] := by
    have other : ascii "keys" ≠ ascii "quit" := by decide
    simp [typedCommands, words, other]
  have small : reply.limited.encode.length ≤ kMaxMsg := by
    rw [WireValue.encode_limited]
    exact limitResponse_length _
  have nonempty : reply.limited.encode ≠ [] := List.length_pos_iff.mp (WireValue.encode_pos _)
  have header : LittleEndian.encode 4 reply.limited.encode.length ≠ [] :=
    List.length_pos_iff.mp (by simp)
  have arrives : DeliversFrames (thenEnds [.bytes _ header, .bytes _ nonempty])
      [reply.limited.encode] (thenEnds []) := by
    refine .message ⟨thenEnds [.bytes _ nonempty], ?_, ?_⟩ small .done
    · have first := @Delivers.bytes
          (thenEnds [.bytes _ header, .bytes _ nonempty]) _ _ [] header rfl .done
      rwa [List.append_nil] at first
    · have second := @Delivers.bytes (thenEnds [.bytes _ nonempty]) _ _ [] nonempty rfl .done
      rwa [List.append_nil] at second
  obtain ⟨-, -, -, -, replies, -, shows⟩ := @prompt_served _ _ _ 0 _ _ run (fun _ _ n => n)
    (fun _ _ _ positive => positive) [ascii " keys"]
    (by rw [typed]; simpa using ⟨by decide, by decide⟩)
    (by rw [typed, received]; simp) (by rw [typed]; rfl) (by rw [sent]; simp) ⟨_, 0⟩ _ arrives
  rw [typed, List.flatMap_singleton] at shows
  exact ⟨_, _, _, shows⟩

end MiniRedis
