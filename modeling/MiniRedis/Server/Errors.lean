import MiniRedis.Server.Request

/-!
# Error responses leave the database alone

`response_end` may replace an answer after its handler has run, so a command which
writes must never answer with more than a response can hold.
-/

namespace MiniRedis

variable {state : Server} {clock : Nat} {env : Env}

/-- A command which changes the map answers nil or an integer. -/
theorem SpecStep.reply_of_change {map map' : Contents} {cmd : List Bytes} {reply : WireValue}
    (step : SpecStep env map cmd reply map') :
    map' = map ∨ reply = .nil ∨ ∃ val, reply = .int val := by
  cases step with
  | set key val =>
      simp only [specSet]
      split <;> simp
  | del key =>
      simp only [specDel]
      split <;> simp
  | zadd key score name =>
      simp only [specZadd]
      split
      · simp
      · split <;> simp
  | zrem key name =>
      simp only [specZrem]
      split <;> simp
  | pexpire key ttl answer =>
      simp only [specPexpire] at answer
      grind
  | persist key =>
      simp only [specPersist]
      split <;> simp
  | get | keys | zscore | zrank | zquery | pttl | unknown | arity => exact .inl rfl

/-- The payload starts with the tag of an error. -/
def ErrorResponse (payload : Bytes) : Prop := payload.head? = some Tag.err.byte

theorem frame_injective {payload payload' : Bytes} (same : frame payload = frame payload') :
    payload = payload' := by
  have tails := congrArg (List.drop 4) same
  rwa [frame, frame, List.drop_left' (LittleEndian.length_encode 4 _),
    List.drop_left' (LittleEndian.length_encode 4 _)] at tails

/-- What a completed request has answered, and how it has changed the map. -/
theorem handleRequest_run (consistent : state.Consistent clock) (later : clock ≤ env.now)
    {cmd : List Bytes} {state' : Server} {out payload : Bytes}
    (run : handleRequest env state cmd out = some (state', out ++ frame payload)) :
    ∃ reply : WireValue, payload = limitResponse reply.encode ∧
      SpecStep env state.contents cmd reply state'.contents := by
  have allowed : ¬NegativeTtl cmd := by
    intro negative
    simp [handleRequest, execCmd_negative negative] at run
  obtain ⟨_, reply, run', -, -, step⟩ := handleRequest_spec consistent later allowed out
  rw [run, Option.some.injEq, Prod.mk.injEq, List.append_cancel_left_eq] at run'
  obtain ⟨rfl, same⟩ := run'
  exact ⟨reply, frame_injective same, step⟩

/-- An answer of nil or an integer is framed as it is. -/
theorem not_errorResponse_of_change {reply : WireValue} (small : reply = .nil ∨ ∃ val, reply = .int val) :
    ¬ErrorResponse (limitResponse reply.encode) := by
  obtain rfl | ⟨val, rfl⟩ := small
  · rw [limitResponse_of_short (by decide)]
    simp [ErrorResponse, WireValue.encode, Tag.byte]
  · have short : (WireValue.int val).encode.length ≤ kMaxMsg := by
      rw [WireValue.encode, List.length_cons, LittleEndian.length_encode]
      decide
    rw [limitResponse_of_short short]
    simp [ErrorResponse, WireValue.encode, Tag.byte]

/-- An error of the application is framed as an error. -/
theorem errorResponse_errValue (code : ErrCode) (msg : String) :
    ErrorResponse (limitResponse (errValue code msg).encode) := by
  rw [limitResponse]
  split <;> rfl

/-- A string which fits a `set` request leaves room for the header of a `get` response. -/
theorem str_short {key val : Bytes} (valid : ValidRequest [ascii "set", key, val]) :
    (WireValue.str val).encode.length ≤ kMaxMsg := by
  have size := valid.size
  simp [encodeRequest, encodeStrings, WireValue.encode] at size ⊢
  omega

/-- A request which is answered with an error has left the map alone. A value which `set`
has stored is what every `get` returns while the key holds it. -/
theorem error_unchanged (reachable : ServerReachable state clock) (later : clock ≤ env.now)
    {request : Bytes} (small : request.length ≤ kMaxMsg) {cmd : List Bytes}
    (parsed : parseReq request = some cmd) {state' : Server} {out payload : Bytes}
    (run : handleRequest env state cmd out = some (state', out ++ frame payload)) :
    (ErrorResponse payload → state'.contents = state.contents) ∧
    ∀ key val, cmd = [ascii "set", key, val] → ¬ErrorResponse payload →
      (state'.contents key).map Record.value = some (.str val) ∧
      ∀ (after : Server) (clock' : Nat) (env' : Env), ServerReachable after clock' →
        clock' ≤ env'.now → (after.contents key).map Record.value = some (.str val) →
        ∀ out', ∃ last, handleRequest env' after [ascii "get", key] out' =
          some (last, out' ++ frame (WireValue.str val).encode) := by
  obtain ⟨reply, rfl, step⟩ := handleRequest_run reachable.consistent later run
  constructor
  · intro failed
    rcases step.reply_of_change with unchanged | changed
    · exact unchanged
    · exact absurd failed (not_errorResponse_of_change changed)
  · intro key val named accepted
    have stored := step.of_set named
    rw [named] at parsed
    have valid := ((parseReq_eq_some_iff small).mp parsed).2
    refine ⟨?_, fun after clock' env' reached later' held out' => ?_⟩
    · simp only [specSet] at stored
      split at stored
      next => simp [(Prod.mk.inj stored).2]
      next => simp [(Prod.mk.inj stored).2]
      next =>
        rw [(Prod.mk.inj stored).1] at accepted
        exact absurd (errorResponse_errValue _ _) accepted
    · have allowed : ¬NegativeTtl [ascii "get", key] := not_negativeTtl (by decide)
      obtain ⟨last, reply', answered, -, -, step'⟩ :=
        handleRequest_spec reached.consistent later' allowed out'
      have got : reply' = .str val := by
        rw [step'.of_get rfl, specGet]
        rcases Option.map_eq_some_iff.mp held with ⟨⟨value, deadline⟩, present, rfl⟩
        rw [present]
      rw [got, limitResponse_of_short (str_short valid)] at answered
      exact ⟨last, answered⟩

/-- `set z v` is refused by a sorted set and changes nothing; `set k w` replaces a string, and
`get k` returns it. -/
theorem error_unchanged_refused : ∃ state refused stored last : Server,
    state.contents [107] = some ⟨.str [118], some 20⟩ ∧
    state.contents [122] = some ⟨.zset movedScores, some 10⟩ ∧
    handleRequest Env.reading state [ascii "set", [122], [118]] [] =
      some (refused, [] ++ frame (errValue .badType "a non-string value exists").encode) ∧
    refused.contents = state.contents ∧
    handleRequest Env.reading refused [ascii "set", [107], [119]] [] =
      some (stored, [] ++ frame WireValue.nil.encode) ∧
    handleRequest Env.reading stored [ascii "get", [107]] [] =
      some (last, [] ++ frame (WireValue.str [119]).encode) := by
  obtain ⟨state, reachable, k, z⟩ := reachable_stocked
  have allowed : ∀ args, ¬NegativeTtl (ascii "set" :: args) := fun _ => not_negativeTtl (by decide)
  have valid : ValidRequest [ascii "set", [122], [118]] := ⟨by decide, by decide⟩
  have valid' : ValidRequest [ascii "set", [107], [119]] := ⟨by decide, by decide⟩
  obtain ⟨refused, reply, run, -, -, step⟩ := @handleRequest_spec _ _ Env.reading
    reachable.consistent le_rfl _ (allowed [[122], [118]]) []
  have answer := congrArg Prod.fst (step.of_set rfl)
  simp only [specSet, z] at answer
  have code : ErrorResponse (limitResponse reply.encode) := by
    rw [answer]
    exact errorResponse_errValue _ _
  rw [answer, limitResponse_of_short (by decide)] at run code
  have same := (error_unchanged reachable le_rfl valid.size
    ((parseReq_eq_some_iff valid.size).mpr ⟨rfl, valid⟩) run).1 code
  have reachable := reachable.request le_rfl run
  rw [← same] at k
  obtain ⟨stored, reply, run', -, -, step⟩ := @handleRequest_spec _ _ Env.reading
    reachable.consistent le_rfl _ (allowed [[107], [119]]) []
  have answer := congrArg Prod.fst (step.of_set rfl)
  simp only [specSet, k] at answer
  rw [answer, limitResponse_of_short (by decide)] at run'
  obtain ⟨held, later⟩ := (error_unchanged reachable le_rfl valid'.size
    ((parseReq_eq_some_iff valid'.size).mpr ⟨rfl, valid'⟩) run').2 _ _ rfl
    (by simp [ErrorResponse, WireValue.encode, Tag.byte])
  obtain ⟨last, got⟩ := later stored 0 Env.reading (reachable.request le_rfl run') le_rfl held []
  exact ⟨state, refused, stored, last, same ▸ k, z, run, same, run', got⟩

end MiniRedis
