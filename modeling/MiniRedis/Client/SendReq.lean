import MiniRedis.Common.Buffer
import MiniRedis.Common.Transfer
import MiniRedis.Server.Connection

/-!
# Requests from the client (`client.cpp`)

`send_req` adds up the length of the payload in a `uint32_t` and does not count the strings,
so it also sends what the server refuses.
-/

namespace MiniRedis

/-- The loop which adds up `len`; no result is the early `return -1`. -/
def payloadLength (len : Nat) : List Bytes → Option Nat
  | [] => some len
  | s :: rest =>
    let len := (len + (4 + s.length)) % 2 ^ 32
    if len > kMaxMsg then none else payloadLength len rest

/-- The loop which appends the strings. -/
def appendStrings (wbuf : Buffer) : List Bytes → Option Buffer
  | [] => some wbuf
  | s :: rest => do
    let wbuf ← bufAppend wbuf (LittleEndian.encode 4 s.length)
    let wbuf ← bufAppend wbuf s
    appendStrings wbuf rest

/-- `send_req`: what has been sent, and whether it returns `0`. No result is a write outside
the buffer. -/
def sendReq (accepts : Nat → Nat → Nat) (cmd : List Bytes) : Option (Bytes × Bool) :=
  match payloadLength 4 cmd with
  | none => some ([], false)
  | some len => do
    let wbuf ← bufAppend {} (LittleEndian.encode 4 len)
    let wbuf ← bufAppend wbuf (LittleEndian.encode 4 cmd.length)
    let wbuf ← appendStrings wbuf cmd
    return writen accepts 0 wbuf.data

/-! ## The buffer -/

variable {buf buf' : Buffer} {queue : Bytes} {cmd : List Bytes} {accepts : Nat → Nat → Nat}

/-- A buffer which nothing has been consumed from is never crowded. -/
theorem not_crowded_of_front (front : buf.dataBegin = 0) (len : Nat) : ¬buf.Crowded len := by
  rintro ⟨-, k, covers, short⟩
  omega

theorem bufMakeRoom_front (front : buf.dataBegin = 0) {len : Nat}
    (run : bufMakeRoom buf len = some buf') : buf'.dataBegin = 0 := by
  rw [bufMakeRoom] at run
  split at run
  · simp only at run
    split at run
    · obtain ⟨block, -, run⟩ := Option.bind_eq_some_iff.mp run
      cases run
      rfl
    · cases run
      exact front
  · cases run
    exact front

theorem bufAppend_front (front : buf.dataBegin = 0) {data : Bytes}
    (run : bufAppend buf data = some buf') : buf'.dataBegin = 0 := by
  rw [bufAppend] at run
  split at run
  · cases run
    exact front
  · obtain ⟨ready, room, run⟩ := Option.bind_eq_some_iff.mp run
    obtain ⟨block, -, run⟩ := Option.bind_eq_some_iff.mp run
    cases run
    exact (bufMakeRoom_front front room :)

/-- Appending to such a buffer always succeeds. -/
theorem Buffer.Holds.appendFront (holds : buf.Holds queue) (front : buf.dataBegin = 0) (data : Bytes) :
    ∃ buf', bufAppend buf data = some buf' ∧ buf'.Holds (queue ++ data) ∧ buf'.dataBegin = 0 := by
  obtain ⟨buf', run, holds'⟩ := (holds.append data).2 (not_crowded_of_front front _)
  exact ⟨buf', run, holds', bufAppend_front front run⟩

theorem appendStrings_spec (holds : buf.Holds queue) (front : buf.dataBegin = 0) (cmd : List Bytes) :
    ∃ buf', appendStrings buf cmd = some buf' ∧ buf'.Holds (queue ++ encodeStrings cmd) := by
  induction cmd generalizing buf queue with
  | nil => exact ⟨buf, rfl, by simpa [encodeStrings] using holds⟩
  | cons s rest ih =>
      obtain ⟨first, run, holds, front⟩ := holds.appendFront front (LittleEndian.encode 4 s.length)
      obtain ⟨second, run', holds, front⟩ := holds.appendFront front s
      obtain ⟨last, run'', holds⟩ := ih holds front
      refine ⟨last, by simp [appendStrings, run, run', run''], ?_⟩
      simpa [encodeStrings] using holds

/-- What is sent if the length is not refused. -/
theorem sendReq_of_length (all : AcceptsAll accepts) {len : Nat}
    (length : payloadLength 4 cmd = some len) :
    sendReq accepts cmd = some (LittleEndian.encode 4 len ++ encodeRequest cmd, true) := by
  obtain ⟨first, run, holds, front⟩ :=
    Buffer.Holds.empty.appendFront rfl (LittleEndian.encode 4 len)
  obtain ⟨second, run', holds, front⟩ := holds.appendFront front (LittleEndian.encode 4 cmd.length)
  obtain ⟨last, run'', holds⟩ := appendStrings_spec holds front cmd
  simp [sendReq, length, run, run', run'', holds.data, writen_all all, encodeRequest]

/-! ## The length -/

/-- The size of the payload of a command. -/
def requestSize (cmd : List Bytes) : Nat := (encodeRequest cmd).length

theorem requestSize_append (front back : List Bytes) :
    requestSize (front ++ back) = requestSize front + (encodeStrings back).length := by
  simp [requestSize, encodeRequest, encodeStrings]
  omega

theorem length_le_requestSize (cmd : List Bytes) : cmd.length ≤ requestSize cmd := by
  induction cmd with
  | nil => exact Nat.zero_le _
  | cons s rest ih =>
      have more : requestSize (s :: rest) = requestSize rest + (4 + s.length) := by
        simp [requestSize, encodeRequest, encodeStrings]
        omega
      rw [List.length_cons, more]
      omega

theorem requestSize_mono {front : List Bytes} (before : front <+: cmd) :
    requestSize front ≤ requestSize cmd := by
  obtain ⟨back, rfl⟩ := before
  rw [requestSize_append]
  exact Nat.le_add_right _ _

/-- The loop stops early exactly at a beginning of the list whose size is beyond the limit as
a `uint32_t`. -/
theorem payloadLength_cases (front rest : List Bytes) :
    (payloadLength (requestSize front % 2 ^ 32) rest = none ∧
        ∃ more, more <+: rest ∧ kMaxMsg < requestSize (front ++ more) % 2 ^ 32) ∨
      (payloadLength (requestSize front % 2 ^ 32) rest = some (requestSize (front ++ rest) % 2 ^ 32) ∧
        ∀ more, more <+: rest → more ≠ [] → requestSize (front ++ more) % 2 ^ 32 ≤ kMaxMsg) := by
  induction rest generalizing front with
  | nil =>
      refine .inr ⟨by simp [payloadLength], fun more before nonempty => ?_⟩
      exact absurd (List.prefix_nil.mp before) nonempty
  | cons s rest ih =>
      have one : (requestSize front % 2 ^ 32 + (4 + s.length)) % 2 ^ 32 =
          requestSize (front ++ [s]) % 2 ^ 32 := by
        rw [Nat.mod_add_mod, requestSize_append]
        simp [encodeStrings]
      have whole : ∀ more, front ++ s :: more = front ++ [s] ++ more := by simp
      by_cases large : kMaxMsg < requestSize (front ++ [s]) % 2 ^ 32
      · refine .inl ⟨?_, [s], List.prefix_append [s] rest, large⟩
        rw [payloadLength, one]
        exact if_pos large
      · have step : payloadLength (requestSize front % 2 ^ 32) (s :: rest) =
            payloadLength (requestSize (front ++ [s]) % 2 ^ 32) rest := by
          rw [payloadLength, one]
          exact if_neg large
        rw [step, whole rest]
        obtain ⟨stops, more, before, beyond⟩ | ⟨ends, within⟩ := ih (front ++ [s])
        · refine .inl ⟨stops, s :: more, List.cons_prefix_cons.mpr ⟨rfl, before⟩, ?_⟩
          rwa [whole]
        · refine .inr ⟨ends, fun more before nonempty => ?_⟩
          cases more with
          | nil => exact absurd rfl nonempty
          | cons first more =>
              obtain ⟨rfl, behind⟩ := List.cons_prefix_cons.mp before
              rw [whole]
              cases more with
              | nil => simpa using Nat.le_of_not_lt large
              | cons second more => exact within _ behind (List.cons_ne_nil _ _)

/-! ## What the server takes -/

/-- Nothing is sent, or one frame within the limit which the server decodes to the command;
and nothing is sent if the command is too large. -/
structure SendsWell (cmd : List Bytes) (sent : Bytes) (ok : Bool) : Prop where
  refused : ok = false → sent = []
  sends : ok = true → ∃ payload, sent = frame payload ∧ payload.length ≤ kMaxMsg ∧
    parseReq payload = some cmd ∧ ∀ (σ : Type) (exec : Executor σ) (conn : Conn) (db : σ),
      conn.incoming = sent → ∃ conn', tryOneRequest exec conn db = some (true, conn', (exec db cmd).1) ∧
        conn'.incoming = []
  large : kMaxMsg < requestSize cmd → ok = false

/-- Within the limit of a message there are few enough strings; beyond it, some beginning of
the list is beyond it as a `uint32_t` too. -/
structure SendFits (cmd : List Bytes) : Prop where
  args : requestSize cmd ≤ kMaxMsg → cmd.length ≤ kMaxArgs
  wraps : kMaxMsg < requestSize cmd → ∃ front, front <+: cmd ∧ kMaxMsg < requestSize front % 2 ^ 32

/-- A valid command is sent as its frame. -/
theorem sendsWell_of_valid (valid : ValidRequest cmd) : SendsWell cmd (requestFrame cmd) true where
  refused := nofun
  sends _ := by
    refine ⟨_, rfl, valid.size, (parseReq_eq_some_iff valid.size).mpr ⟨rfl, valid⟩, ?_⟩
    intro σ exec conn db received
    have stream : conn.incoming = requestFrame cmd ++ [] := by rw [received, List.append_nil]
    exact ⟨_, tryOneRequest_frame exec db valid stream, rfl⟩
  large large := absurd valid.size (Nat.not_le.mpr large)

/-- A command within the limit of a message has its size as declared length. -/
theorem payloadLength_of_size (small : requestSize cmd ≤ kMaxMsg) :
    payloadLength 4 cmd = some (requestSize cmd) := by
  have unwrapped : ∀ front, front <+: cmd → requestSize front % 2 ^ 32 = requestSize front := by
    intro front before
    exact Nat.mod_eq_of_lt (((requestSize_mono before).trans small).trans_lt kMaxMsg_lt)
  obtain ⟨-, more, before, beyond⟩ | ⟨ends, -⟩ := payloadLength_cases [] cmd
  · rw [List.nil_append, unwrapped more before] at beyond
    exact absurd ((requestSize_mono before).trans small) (Nat.not_le.mpr beyond)
  · rw [List.nil_append, unwrapped cmd (List.prefix_refl cmd)] at ends
    exact ends

/-- The client sends well exactly the commands for which `SendFits` holds. -/
theorem send_req_iff (all : AcceptsAll accepts) (cmd : List Bytes) :
    (∃ sent ok, sendReq accepts cmd = some (sent, ok) ∧ SendsWell cmd sent ok) ↔ SendFits cmd := by
  constructor
  · rintro ⟨sent, ok, run, sends⟩
    constructor
    · intro small
      rw [sendReq_of_length all (payloadLength_of_size small)] at run
      cases run
      obtain ⟨payload, -, -, parsed, -⟩ := sends.sends rfl
      exact ((parseReq_iff payload cmd).mp parsed).2
    · intro large
      obtain ⟨-, more, before, beyond⟩ | ⟨ends, -⟩ := payloadLength_cases [] cmd
      · exact ⟨more, before, beyond⟩
      · rw [sendReq_of_length all ends] at run
        cases run
        cases sends.large large
  · intro fits
    by_cases small : requestSize cmd ≤ kMaxMsg
    · refine ⟨_, _, sendReq_of_length all (payloadLength_of_size small), ?_⟩
      exact sendsWell_of_valid ⟨fits.args small, small⟩
    · obtain ⟨front, before, beyond⟩ := fits.wraps (Nat.lt_of_not_le small)
      have refused : payloadLength 4 cmd = none := by
        obtain ⟨stops, -⟩ | ⟨-, within⟩ := payloadLength_cases [] cmd
        · exact stops
        · have nonempty : front ≠ [] := by
            rintro rfl
            exact absurd beyond (by decide)
          exact absurd (within front before nonempty) (Nat.not_le.mpr beyond)
      exact ⟨[], false, by simp [sendReq, refused], ⟨fun _ => rfl, nofun, fun _ => rfl⟩⟩

/-- `keys`, sent to a kernel which takes whatever it is given. -/
theorem send_req_keys : ∃ sent ok, sendReq (fun _ n => n) [ascii "keys"] = some (sent, ok) ∧
    SendsWell [ascii "keys"] sent ok := by
  have fits : SendFits [ascii "keys"] := ⟨fun _ => by decide, fun large => absurd large (by decide)⟩
  exact (send_req_iff (fun _ _ positive => positive) _).mpr fits

theorem encodeStrings_empty (n : Nat) : (encodeStrings (List.replicate n [])).length = 4 * n := by
  induction n with
  | zero => rfl
  | succ n ih =>
      rw [List.replicate_succ, encodeStrings, List.flatMap_cons, List.length_append]
      rw [encodeStrings] at ih
      rw [ih]
      simp
      omega

/-- A small command with too many strings is sent, and the server does not take it. -/
theorem sendReq_of_many (all : AcceptsAll accepts) (small : requestSize cmd ≤ kMaxMsg)
    (many : kMaxArgs < cmd.length) :
    sendReq accepts cmd = some (requestFrame cmd, true) ∧ parseReq (encodeRequest cmd) = none ∧
      ¬SendsWell cmd (requestFrame cmd) true := by
  have encodes : Encodes (encodeRequest cmd) cmd := by
    have lengths : ∀ str ∈ cmd, str.length ≤ requestSize cmd := by
      intro str member
      have inside := length_le_encodeStrings member
      rw [requestSize, encodeRequest, List.length_append]
      omega
    have count := length_le_requestSize cmd
    have bound := kMaxMsg_lt
    exact ⟨by omega, fun str member => ((lengths str member).trans small).trans_lt bound, rfl⟩
  have refused : ∀ other, parseReq (encodeRequest cmd) ≠ some other := by
    intro other parsed
    obtain ⟨encodes', few⟩ := (parseReq_iff _ _).mp parsed
    rw [← encodes.unique encodes'] at few
    omega
  refine ⟨sendReq_of_length all (payloadLength_of_size small),
    Option.eq_none_iff_forall_ne_some.mpr refused, fun sends => ?_⟩
  obtain ⟨payload, same, -, parsed, -⟩ := sends.sends rfl
  have payloads : encodeRequest cmd = payload := by
    rw [requestFrame, frame, frame] at same
    exact (List.append_inj same (by simp)).2
  rw [← payloads] at parsed
  exact refused cmd parsed

/-- 200001 empty strings, far below the limit of a message. -/
theorem send_req_refused : ∃ sent, sendReq (fun _ n => n) (List.replicate 200001 []) =
      some (sent, true) ∧ parseReq (encodeRequest (List.replicate 200001 [])) = none ∧
      ¬SendsWell (List.replicate 200001 []) sent true := by
  have small : requestSize (List.replicate 200001 []) ≤ kMaxMsg := by
    rw [requestSize, encodeRequest, List.length_append, encodeStrings_empty, LittleEndian.length_encode]
    decide
  have many : kMaxArgs < (List.replicate 200001 ([] : Bytes)).length := by
    rw [List.length_replicate]
    decide
  exact ⟨_, sendReq_of_many (fun _ _ positive => positive) small many⟩

end MiniRedis
