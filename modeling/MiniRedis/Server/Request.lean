import MiniRedis.Server.Response

/-!
# Request frames

`parse_req` accepts exactly the encodings of commands. A stream of bytes falls into
well-formed frames and a rest which is incomplete, oversized or malformed.
-/

namespace MiniRedis

/-- `K_MAX_ARGS`. -/
def kMaxArgs : Nat := 200 * 1000

/-! ## Parsing -/

/-- `read_u32`, with the data behind the number. -/
def readU32 (data : Bytes) : Option (Nat × Bytes) :=
  if data.length < 4 then none else some (readU32At data 0, data.drop 4)

/-- `read_str`, with the data behind the string. -/
def readStr (data : Bytes) (n : Nat) : Option (Bytes × Bytes) :=
  if data.length < n then none else some (data.take n, data.drop n)

/-- The loop of `parse_req` over the strings which are left. -/
def parseStrings : Nat → Bytes → Option (List Bytes × Bytes)
  | 0, data => some ([], data)
  | left + 1, data => do
    let (len, data) ← readU32 data
    let (str, data) ← readStr data len
    let (out, data) ← parseStrings left data
    return (str :: out, data)

/-- `none` is the result `-1`. -/
def parseReq (data : Bytes) : Option (List Bytes) := do
  let (nstr, data) ← readU32 data
  guard (nstr ≤ kMaxArgs)
  let (out, data) ← parseStrings nstr data
  guard (data = [])
  return out

/-! ## The request format -/

/-- Strings, each behind its length. -/
def encodeStrings (strs : List Bytes) : Bytes :=
  strs.flatMap fun str => LittleEndian.encode 4 str.length ++ str

/-- The payload of a command. -/
def encodeRequest (cmd : List Bytes) : Bytes :=
  LittleEndian.encode 4 cmd.length ++ encodeStrings cmd

/-- A command within the limits of the protocol. -/
structure ValidRequest (cmd : List Bytes) : Prop where
  args : cmd.length ≤ kMaxArgs
  size : (encodeRequest cmd).length ≤ kMaxMsg

theorem readU32_encode {n : Nat} (small : n < 2 ^ 32) (rest : Bytes) :
    readU32 (LittleEndian.encode 4 n ++ rest) = some (n, rest) := by
  have long : ¬(LittleEndian.encode 4 n ++ rest).length < 4 := by simp
  have value := readU32At_encode [] rest small
  rw [List.nil_append, List.length_nil] at value
  rw [readU32, if_neg long, value, List.drop_left' (LittleEndian.length_encode 4 n)]

/-- What `read_u32` returns is the number in front of the rest. -/
theorem eq_of_readU32 {data rest : Bytes} {n : Nat} (read : readU32 data = some (n, rest)) :
    data = LittleEndian.encode 4 n ++ rest ∧ n < 2 ^ 32 := by
  rw [readU32] at read
  split at read
  · cases read
  · next long =>
      simp only [Option.some.injEq, Prod.mk.injEq, readU32At, List.drop_zero] at read
      obtain ⟨rfl, rfl⟩ := read
      have four : (data.take 4).length = 4 := List.length_take_of_le (by omega)
      have digits := LittleEndian.encode_decode (data.take 4)
      have bound := LittleEndian.decode_lt (data.take 4)
      rw [four] at digits bound
      rw [digits, List.take_append_drop]
      exact ⟨rfl, by norm_num at bound ⊢; exact bound⟩

theorem parseStrings_encode (strs : List Bytes) (short : ∀ str ∈ strs, str.length < 2 ^ 32)
    (rest : Bytes) : parseStrings strs.length (encodeStrings strs ++ rest) = some (strs, rest) := by
  induction strs with
  | nil => rfl
  | cons str strs ih =>
      obtain ⟨first, others⟩ := List.forall_mem_cons.mp short
      have shape : encodeStrings (str :: strs) ++ rest =
          LittleEndian.encode 4 str.length ++ (str ++ (encodeStrings strs ++ rest)) := by
        simp [encodeStrings]
      have string : readStr (str ++ (encodeStrings strs ++ rest)) str.length =
          some (str, encodeStrings strs ++ rest) := by
        rw [readStr, if_neg (by simp), List.take_left, List.drop_left]
      rw [shape, List.length_cons, parseStrings, readU32_encode first]
      simp only [Option.bind_eq_bind, Option.bind_some, string, ih others]
      rfl

theorem eq_of_parseStrings {left : Nat} {data rest : Bytes} {strs : List Bytes}
    (parsed : parseStrings left data = some (strs, rest)) :
    data = encodeStrings strs ++ rest ∧ strs.length = left ∧ ∀ str ∈ strs, str.length < 2 ^ 32 := by
  induction left generalizing data strs with
  | zero =>
      cases parsed
      exact ⟨rfl, rfl, by simp⟩
  | succ left ih =>
      obtain ⟨⟨len, behind⟩, number, parsed⟩ := Option.bind_eq_some_iff.mp parsed
      obtain ⟨⟨str, tail⟩, string, parsed⟩ := Option.bind_eq_some_iff.mp parsed
      obtain ⟨⟨out, last⟩, loop, parsed⟩ := Option.bind_eq_some_iff.mp parsed
      simp only [Option.pure_def, Option.some.injEq, Prod.mk.injEq] at parsed
      obtain ⟨rfl, rfl⟩ := parsed
      obtain ⟨rfl, bound⟩ := eq_of_readU32 number
      obtain ⟨rfl, count, short⟩ := ih loop
      rw [readStr] at string
      split at string
      · cases string
      · next long =>
          simp only [Option.some.injEq, Prod.mk.injEq] at string
          obtain ⟨rfl, same⟩ := string
          have length : (behind.take len).length = len := List.length_take_of_le (by omega)
          refine ⟨?_, by rw [List.length_cons, count],
            List.forall_mem_cons.mpr ⟨length.trans_lt bound, short⟩⟩
          simp only [encodeStrings, List.flatMap_cons, List.append_assoc, length] at same ⊢
          rw [← same, List.take_append_drop]

/-- The bytes are the encoding of the command: each of its numbers fits its four bytes. -/
structure Encodes (data : Bytes) (cmd : List Bytes) : Prop where
  count : cmd.length < 2 ^ 32
  lengths : ∀ str ∈ cmd, str.length < 2 ^ 32
  bytes : data = encodeRequest cmd

/-- `parse_req` accepts exactly the encodings of commands with few enough strings. -/
theorem parseReq_iff (data : Bytes) (cmd : List Bytes) :
    parseReq data = some cmd ↔ Encodes data cmd ∧ cmd.length ≤ kMaxArgs := by
  constructor
  · intro parsed
    obtain ⟨⟨nstr, behind⟩, number, parsed⟩ := Option.bind_eq_some_iff.mp parsed
    obtain ⟨⟨⟩, few, parsed⟩ := Option.bind_eq_some_iff.mp parsed
    obtain ⟨⟨out, rest⟩, loop, parsed⟩ := Option.bind_eq_some_iff.mp parsed
    obtain ⟨⟨⟩, finished, parsed⟩ := Option.bind_eq_some_iff.mp parsed
    simp only [Option.pure_def, Option.some.injEq] at parsed
    obtain rfl := parsed
    obtain rfl : rest = [] := by
      by_contra trailing
      simp [trailing] at finished
    have limit : nstr ≤ kMaxArgs := by
      by_contra many
      simp [many] at few
    obtain ⟨rfl, bound⟩ := eq_of_readU32 number
    obtain ⟨rfl, rfl, short⟩ := eq_of_parseStrings loop
    exact ⟨⟨bound, short, by rw [List.append_nil, encodeRequest]⟩, limit⟩
  · rintro ⟨⟨count, lengths, rfl⟩, few⟩
    have loop := parseStrings_encode cmd lengths []
    rw [List.append_nil] at loop
    simp [parseReq, encodeRequest, readU32_encode count, few, loop]

theorem length_le_encodeStrings {str : Bytes} {strs : List Bytes} (member : str ∈ strs) :
    str.length ≤ (encodeStrings strs).length := by
  obtain ⟨front, back, rfl⟩ := List.append_of_mem member
  simp [encodeStrings]
  omega

/-- A command within the limits has an encoding. -/
theorem ValidRequest.encodes {cmd : List Bytes} (valid : ValidRequest cmd) :
    Encodes (encodeRequest cmd) cmd := by
  have size := valid.size
  have few := valid.args
  rw [kMaxArgs] at few
  rw [encodeRequest, List.length_append, kMaxMsg] at size
  norm_num at size
  refine ⟨by omega, fun str member => ?_, rfl⟩
  have inside := length_le_encodeStrings member
  omega

/-- Two commands with one encoding are the same. -/
theorem Encodes.unique {data : Bytes} {cmd cmd' : List Bytes} (encodes : Encodes data cmd)
    (encodes' : Encodes data cmd') : cmd = cmd' := by
  have number := readU32_encode encodes.count (encodeStrings cmd)
  have number' := readU32_encode encodes'.count (encodeStrings cmd')
  rw [← encodeRequest, ← encodes.bytes] at number
  rw [← encodeRequest, ← encodes'.bytes, number, Option.some.injEq, Prod.mk.injEq] at number'
  have loop := parseStrings_encode cmd encodes.lengths []
  have loop' := parseStrings_encode cmd' encodes'.lengths []
  rw [← number'.1, ← number'.2, loop] at loop'
  exact congrArg Prod.fst (Option.some.inj loop')

/-- Within the limit of a message these are the payloads of valid commands. -/
theorem parseReq_eq_some_iff {data : Bytes} (short : data.length ≤ kMaxMsg) {cmd : List Bytes} :
    parseReq data = some cmd ↔ data = encodeRequest cmd ∧ ValidRequest cmd := by
  rw [parseReq_iff]
  constructor
  · rintro ⟨⟨-, -, rfl⟩, few⟩
    exact ⟨rfl, few, short⟩
  · rintro ⟨rfl, valid⟩
    exact ⟨valid.encodes, valid.args⟩

/-! ## Streams -/

/-- The frame of a command. -/
def requestFrame (cmd : List Bytes) : Bytes := frame (encodeRequest cmd)

/-- A strict prefix of one frame within the limit. -/
def Incomplete (stream : Bytes) : Prop :=
  ∃ payload more, payload.length ≤ kMaxMsg ∧ more ≠ [] ∧ stream ++ more = frame payload

/-- The size in front is beyond the limit. -/
def Oversized (stream : Bytes) : Prop := 4 ≤ stream.length ∧ kMaxMsg < readU32At stream 0

/-- A complete frame within the limit, the payload of which is no valid command. -/
def Malformed (stream : Bytes) : Prop :=
  ∃ payload rest, payload.length ≤ kMaxMsg ∧ stream = frame payload ++ rest ∧
    ¬∃ cmd, ValidRequest cmd ∧ payload = encodeRequest cmd

/-- A stream as the frames of valid commands and a rest which starts with no such frame. -/
structure Framed (stream : Bytes) (cmds : List (List Bytes)) (rest : Bytes) : Prop where
  split : stream = cmds.flatMap requestFrame ++ rest
  valid : ∀ cmd ∈ cmds, ValidRequest cmd
  stop : Incomplete rest ∨ Oversized rest ∨ Malformed rest

theorem kMaxMsg_lt : kMaxMsg < 2 ^ 32 := by decide

theorem readU32At_frame {payload : Bytes} (small : payload.length ≤ kMaxMsg) (rest : Bytes) :
    readU32At (frame payload ++ rest) 0 = payload.length := by
  have field := readU32At_encode [] (payload ++ rest) (small.trans_lt kMaxMsg_lt)
  simpa [frame] using field

theorem length_frame (payload : Bytes) : (frame payload).length = 4 + payload.length := by
  simp [frame]

/-- A stream which ends before or inside its first frame, seen from its length. -/
theorem incomplete_iff {stream : Bytes} : Incomplete stream ↔
    stream.length < 4 ∨ readU32At stream 0 ≤ kMaxMsg ∧ stream.length < 4 + readU32At stream 0 := by
  constructor
  · rintro ⟨payload, more, small, nonempty, whole⟩
    have positive := List.length_pos_of_ne_nil nonempty
    have length := congrArg List.length whole
    rw [List.length_append, length_frame] at length
    by_cases header : stream.length < 4
    · exact .inl header
    · have field : readU32At stream 0 = payload.length := by
        have front := readU32At_frame small []
        rw [List.append_nil, ← whole] at front
        rwa [readU32At, List.drop_zero, List.take_append_of_le_length (by omega)] at front
      rw [field]
      exact .inr ⟨small, by omega⟩
  · intro short
    by_cases header : stream.length < 4
    · -- zeros for the missing bytes keep the size within the limit
      have limit : LittleEndian.decode stream ≤ kMaxMsg := by
        have bound := LittleEndian.decode_lt stream
        have power : 256 ^ stream.length ≤ 256 ^ 3 := Nat.pow_le_pow_right (by norm_num) (by omega)
        have room : 256 ^ 3 ≤ kMaxMsg := by decide
        omega
      have four : (stream ++ List.replicate (4 - stream.length) 0).length = 4 := by
        rw [List.length_append, List.length_replicate]
        omega
      have digits := LittleEndian.encode_decode (stream ++ List.replicate (4 - stream.length) 0)
      rw [four, LittleEndian.decode_append_zeros] at digits
      refine ⟨List.replicate (LittleEndian.decode stream) 0, List.replicate (4 - stream.length) 0 ++
        List.replicate (LittleEndian.decode stream) 0, by rwa [List.length_replicate], ?_, ?_⟩
      · refine List.append_ne_nil_of_left_ne_nil ?_ _
        rw [ne_eq, List.replicate_eq_nil_iff]
        omega
      · rw [frame, List.length_replicate, digits, List.append_assoc]
    · obtain ⟨small, inside⟩ := short.resolve_left header
      have four : (stream.take 4).length = 4 := List.length_take_of_le (by omega)
      have digits := LittleEndian.encode_decode (stream.take 4)
      have field : readU32At stream 0 = LittleEndian.decode (stream.take 4) := by
        rw [readU32At, List.drop_zero]
      rw [four, ← field] at digits
      have length : (stream.drop 4 ++
          List.replicate (4 + readU32At stream 0 - stream.length) 0).length =
            readU32At stream 0 := by
        rw [List.length_append, List.length_drop, List.length_replicate]
        omega
      refine ⟨stream.drop 4 ++ List.replicate (4 + readU32At stream 0 - stream.length) 0,
        List.replicate (4 + readU32At stream 0 - stream.length) 0, by rwa [length], ?_, ?_⟩
      · rw [ne_eq, List.replicate_eq_nil_iff]
        omega
      · rw [frame, length, digits, ← List.append_assoc, List.take_append_drop]

/-- A complete frame in front, seen from the length. -/
theorem exists_frame {stream : Bytes} (header : 4 ≤ stream.length)
    (inside : 4 + readU32At stream 0 ≤ stream.length) :
    ∃ payload rest, payload = (stream.drop 4).take (readU32At stream 0) ∧
      rest = stream.drop (4 + readU32At stream 0) ∧ payload.length = readU32At stream 0 ∧
      stream = frame payload ++ rest := by
  have four : (stream.take 4).length = 4 := List.length_take_of_le header
  have digits := LittleEndian.encode_decode (stream.take 4)
  have field : readU32At stream 0 = LittleEndian.decode (stream.take 4) := by
    rw [readU32At, List.drop_zero]
  have length : ((stream.drop 4).take (readU32At stream 0)).length = readU32At stream 0 := by
    apply List.length_take_of_le
    rw [List.length_drop]
    omega
  rw [four, ← field] at digits
  refine ⟨_, _, rfl, rfl, length, ?_⟩
  rw [frame, length, digits, ← List.drop_drop, List.append_assoc, List.take_append_drop,
    List.take_append_drop]

/-! ## Uniqueness -/

theorem eq_of_frame {payload payload' rest rest' : Bytes} (small : payload.length ≤ kMaxMsg)
    (small' : payload'.length ≤ kMaxMsg) (same : frame payload ++ rest = frame payload' ++ rest') :
    payload = payload' ∧ rest = rest' := by
  have length : payload.length = payload'.length := by
    rw [← readU32At_frame small rest, same, readU32At_frame small' rest']
  obtain ⟨frames, rests⟩ := List.append_inj same (by rw [length_frame, length_frame, length])
  exact ⟨(List.append_inj frames (by simp)).2, rests⟩

/-- A stream which starts with the frame of a command does not stop there. -/
theorem not_stop_requestFrame {cmd : List Bytes} (valid : ValidRequest cmd) (rest : Bytes) :
    ¬(Incomplete (requestFrame cmd ++ rest) ∨ Oversized (requestFrame cmd ++ rest) ∨
      Malformed (requestFrame cmd ++ rest)) := by
  have field : readU32At (requestFrame cmd ++ rest) 0 = (encodeRequest cmd).length :=
    readU32At_frame valid.size rest
  have length : (requestFrame cmd ++ rest).length = 4 + (encodeRequest cmd).length + rest.length := by
    rw [List.length_append, requestFrame, length_frame]
  rintro (waiting | ⟨-, large⟩ | ⟨payload, tail, small, split, bad⟩)
  · rw [incomplete_iff, field, length] at waiting
    omega
  · rw [field] at large
    exact absurd valid.size (Nat.not_le.mpr large)
  · exact bad ⟨cmd, valid, (eq_of_frame valid.size small split).1.symm⟩

theorem requestFrame_injective {cmd cmd' : List Bytes} {rest rest' : Bytes}
    (valid : ValidRequest cmd) (valid' : ValidRequest cmd')
    (same : requestFrame cmd ++ rest = requestFrame cmd' ++ rest') : cmd = cmd' ∧ rest = rest' := by
  obtain ⟨payloads, rests⟩ := eq_of_frame valid.size valid'.size same
  have parsed := (parseReq_eq_some_iff valid.size).mpr ⟨rfl, valid⟩
  rw [payloads, (parseReq_eq_some_iff valid'.size).mpr ⟨rfl, valid'⟩] at parsed
  exact ⟨(Option.some.inj parsed).symm, rests⟩

/-- The stream alone determines the commands in it and the rest. -/
theorem Framed.unique {stream rest rest' : Bytes} {cmds cmds' : List (List Bytes)}
    (framed : Framed stream cmds rest) (framed' : Framed stream cmds' rest') :
    cmds = cmds' ∧ rest = rest' := by
  obtain ⟨split, valid, stop⟩ := framed
  obtain ⟨split', valid', stop'⟩ := framed'
  induction cmds generalizing cmds' stream with
  | nil =>
      cases cmds' with
      | nil => exact ⟨rfl, by simpa [split] using split'⟩
      | cons cmd' others' =>
          obtain rfl : stream = rest := by simpa using split
          rw [split', List.flatMap_cons, List.append_assoc] at stop
          exact absurd stop (not_stop_requestFrame (valid' cmd' List.mem_cons_self) _)
  | cons cmd others ih =>
      obtain ⟨first, behind⟩ := List.forall_mem_cons.mp valid
      cases cmds' with
      | nil =>
          obtain rfl : stream = rest' := by simpa using split'
          rw [split, List.flatMap_cons, List.append_assoc] at stop'
          exact absurd stop' (not_stop_requestFrame first _)
      | cons cmd' others' =>
          obtain ⟨first', behind'⟩ := List.forall_mem_cons.mp valid'
          rw [split, List.flatMap_cons, List.flatMap_cons, List.append_assoc, List.append_assoc]
            at split'
          obtain ⟨rfl, tails⟩ := requestFrame_injective first first' split'
          obtain ⟨rfl, rests⟩ := ih rfl behind tails behind'
          exact ⟨rfl, rests⟩

end MiniRedis
