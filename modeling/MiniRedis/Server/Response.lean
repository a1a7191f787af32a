import MiniRedis.Client.PrintRes
import MiniRedis.Server.Reachable

/-!
# Response frames (`server.cpp`)

A response is written behind whatever `outgoing` holds: a header of four bytes whose
length is filled in at the end, and one value. A value which is too big gives way to
an error.
-/

namespace MiniRedis

/-- `K_MAX_MSG`. -/
def kMaxMsg : Nat := 32 <<< 20

/-- Also returns the position of the header. -/
def responseBegin (out : Bytes) : Bytes × Nat := (bufAppendU32 out 0, out.length)

def responseSize (out : Bytes) (headerPos : Nat) : Nat := out.length - headerPos - 4

/-- The substitute for a response which is too big; `resize` only truncates here. -/
def responseLimit (out : Bytes) (headerPos : Nat) : Bytes :=
  if responseSize out headerPos > kMaxMsg then
    outErr (out.take (headerPos + 4)) .tooBig "response is too big."
  else out

def responseEnd (out : Bytes) (headerPos : Nat) : Option Bytes :=
  let out := responseLimit out headerPos
  writeU32 out headerPos (responseSize out headerPos)

/-- The application logic for one request in `try_one_request`. -/
def handleRequest : CmdHandler := fun env state cmd out => do
  let (out, headerPos) := responseBegin out
  let (state, out) ← execCmd env state cmd out
  let out ← responseEnd out headerPos
  return (state, out)

/-! ## Lengths of encodings -/

theorem WireValue.encode_pos (value : WireValue) : 0 < value.encode.length := by
  cases value <;> simp [WireValue.encode]

theorem WireValue.length_le_encodeItems (items : List WireValue) :
    items.length ≤ (encodeItems items).length := by
  induction items with
  | nil => simp [encodeItems]
  | cons item rest ih =>
      have pos := item.encode_pos
      rw [encodeItems, List.length_append, List.length_cons]
      omega

mutual

/-- In a short encoding every length and count fits its field. -/
theorem WireValue.wellSized_of_short : ∀ value : WireValue, value.Fits →
    value.encode.length < 2 ^ 32 → value.WellSized
  | .nil, _, _ => trivial
  | .err code msg, fits, short => by
      refine ⟨fits, ?_⟩
      simp [WireValue.encode] at short
      omega
  | .str s, _, short => by
      simp [WireValue.encode] at short
      rw [WireValue.WellSized]
      omega
  | .int val, fits, _ => fits
  | .dbl _, _, _ => trivial
  | .arr items, fits, short => by
      have count := WireValue.length_le_encodeItems items
      simp [WireValue.encode] at short
      exact ⟨by omega, WireValue.wellSizedItems_of_short items fits (by omega)⟩

theorem WireValue.wellSizedItems_of_short : ∀ items : List WireValue, FitsItems items →
    (encodeItems items).length < 2 ^ 32 → WellSizedItems items
  | [], _, _ => trivial
  | item :: rest, fits, short => by
      rw [encodeItems, List.length_append] at short
      exact ⟨item.wellSized_of_short fits.1 (by omega),
        WireValue.wellSizedItems_of_short rest fits.2 (by omega)⟩

end

/-! ## Frames -/

/-- The response to a value: the value, or the error which replaces it. -/
def limitResponse (value : Bytes) : Bytes :=
  if kMaxMsg < value.length then (errValue .tooBig "response is too big.").encode else value

/-- A length and as many bytes. -/
def frame (payload : Bytes) : Bytes := LittleEndian.encode 4 payload.length ++ payload

theorem limitResponse_length (value : Bytes) : (limitResponse value).length ≤ kMaxMsg := by
  rw [limitResponse]
  split
  · decide
  · omega

/-- `response_end` completes the frame of what was appended since `response_begin`. -/
theorem responseEnd_spec (out value : Bytes) :
    responseEnd ((responseBegin out).1 ++ value) (responseBegin out).2 =
      some (out ++ frame (limitResponse value)) := by
  have started : ∀ body : Bytes, (responseBegin out).1 ++ body =
      out ++ (LittleEndian.encode 4 0 ++ body) := fun body => by
    simp [responseBegin, bufAppendU32]
  have size : ∀ body : Bytes,
      responseSize ((responseBegin out).1 ++ body) (responseBegin out).2 = body.length := fun body => by
    rw [started, responseSize, responseBegin]
    simp
  have limited : responseLimit ((responseBegin out).1 ++ value) (responseBegin out).2 =
      (responseBegin out).1 ++ limitResponse value := by
    rw [responseLimit, size, limitResponse]
    split
    · have front : ((responseBegin out).1 ++ value).take ((responseBegin out).2 + 4) =
          (responseBegin out).1 := by
        apply List.take_left'
        simp [responseBegin, bufAppendU32]
      rw [front, outErr_eq]
    · rfl
  rw [responseEnd]
  simp only [limited, size]
  rw [started]
  exact writeU32_middle out _ (LittleEndian.length_encode 4 0) _

/-- The response to one encoded value is one encoded value. -/
theorem limitResponse_encode {reply : WireValue} (fits : reply.Fits) :
    ∃ value : WireValue, limitResponse reply.encode = value.encode ∧ value.Fits := by
  rw [limitResponse]
  split
  · exact ⟨_, rfl, errValue_fits _ _⟩
  · exact ⟨reply, rfl, fits⟩

theorem limitResponse_of_short {value : Bytes} (short : value.length ≤ kMaxMsg) :
    limitResponse value = value := if_neg (Nat.not_lt.mpr short)

/-- The application logic frames the answer of the map, if that is not too big. -/
theorem handleRequest_spec {state : Server} {clock : Nat} {env : Env}
    (consistent : state.Consistent clock) (later : clock ≤ env.now) {cmd : List Bytes}
    (allowed : ¬NegativeTtl cmd) (out : Bytes) :
    ∃ state' reply, handleRequest env state cmd out =
        some (state', out ++ frame (limitResponse reply.encode)) ∧ reply.Fits ∧
      state'.Consistent env.now ∧ SpecStep env state.contents cmd reply state'.contents := by
  obtain ⟨state', reply, run, fits, consistent', step⟩ :=
    execCmd_simulates consistent later allowed (responseBegin out).1
  refine ⟨state', reply, ?_, fits, consistent', step⟩
  simp only [handleRequest, run, Option.bind_eq_bind, Option.bind_some,
    responseEnd_spec out reply.encode]
  rfl

/-- A request of a client is a command of the run. -/
theorem ServerReachable.request {state state' : Server} {clock : Nat} {env : Env}
    (reachable : ServerReachable state clock) (later : clock ≤ env.now) {cmd : List Bytes}
    {out out' : Bytes} (run : handleRequest env state cmd out = some (state', out')) :
    ServerReachable state' env.now := by
  obtain ⟨⟨after, value⟩, exec, run⟩ := Option.bind_eq_some_iff.mp run
  obtain ⟨framed, -, run⟩ := Option.bind_eq_some_iff.mp run
  cases run
  exact .exec reachable env later cmd exec

/-- One request appends one frame to `outgoing`: its length, at most `K_MAX_MSG`, and one
value of the grammar, which the client's decoder consumes to its end. -/
theorem response_reachable {state : Server} {clock : Nat} {env : Env}
    (reachable : ServerReachable state clock) (later : clock ≤ env.now) (cmd : List Bytes)
    (out : Bytes) (completes : execCmd env state cmd (responseBegin out).1 ≠ none) :
    ∃ (state' : Server) (value : WireValue), value.WellSized ∧ value.encode.length ≤ kMaxMsg ∧
      handleRequest env state cmd out =
        some (state', out ++ (LittleEndian.encode 4 value.encode.length ++ value.encode)) ∧
      LittleEndian.decode (LittleEndian.encode 4 value.encode.length) = value.encode.length ∧
      printRes value.encode = value.encode.length := by
  have allowed : ¬NegativeTtl cmd := fun negative => completes (execCmd_negative negative _)
  obtain ⟨state', reply, run, fits, -, -⟩ :=
    handleRequest_spec reachable.consistent later allowed out
  obtain ⟨value, same, fits'⟩ := limitResponse_encode fits
  have bound := limitResponse_length reply.encode
  rw [same] at bound
  have small : value.encode.length < 2 ^ 31 := by
    rw [kMaxMsg] at bound
    norm_num at bound ⊢
    omega
  have sized := value.wellSized_of_short fits' (by omega)
  rw [same] at run
  refine ⟨state', value, sized, bound, run, ?_, ?_⟩
  · rw [LittleEndian.decode_encode]
    exact Nat.mod_eq_of_lt (by norm_num at small ⊢; omega)
  · have consumed := printRes_encode value sized [] small
    rwa [List.append_nil] at consumed

/-- A query of a sorted set with two members, behind a byte of an earlier response. -/
theorem response_reachable_query : ∃ (state state' : Server) (value : WireValue),
    state.contents [107] = some ⟨.str [118], some 20⟩ ∧
    state.contents [122] = some ⟨.zset movedScores, some 10⟩ ∧
    handleRequest Env.reading state [ascii "zquery", [122], [48], [97], [48], [49, 48]] [7] =
      some (state', [7] ++ (LittleEndian.encode 4 value.encode.length ++ value.encode)) ∧
    printRes value.encode = value.encode.length := by
  obtain ⟨state, reachable, k, z⟩ := reachable_stocked
  have completes : execCmd Env.reading state
      [ascii "zquery", [122], [48], [97], [48], [49, 48]] (responseBegin [7]).1 ≠ none := by
    obtain ⟨state', reply, run, -⟩ := @execCmd_simulates _ _ Env.reading reachable.consistent le_rfl
      [ascii "zquery", [122], [48], [97], [48], [49, 48]] (not_negativeTtl (by decide))
      (responseBegin [7]).1
    simp [run]
  obtain ⟨state', value, -, -, run, -, consumed⟩ := @response_reachable _ _ Env.reading reachable
    le_rfl [ascii "zquery", [122], [48], [97], [48], [49, 48]] [7] completes
  exact ⟨state, state', value, k, z, run, consumed⟩

end MiniRedis
