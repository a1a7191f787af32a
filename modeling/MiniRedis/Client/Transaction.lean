import MiniRedis.Client.PrintBounds
import MiniRedis.Client.ReadRes
import MiniRedis.Client.Show

/-!
# Transactions and the prompt (`client.cpp`)

A transaction sends a request, reads the response and prints it. The prompt runs one for
each line which holds a command.
-/

namespace MiniRedis

/-! ## One transaction -/

/-- A call of `client_tx`: the bytes sent, the calls of `printf`, what goes to `stderr`, the
result, and the input behind. -/
structure ClientTx where
  sent : Bytes
  printed : List Printed
  errors : List String
  rv : Int
  input : Input

def clientTx (accepts : Nat → Nat → Nat) (input : Input) (cmd : List Bytes) : Option ClientTx := do
  let (sent, ok) ← sendReq accepts cmd
  if ¬ok then return ⟨sent, [], [], -1, input⟩
  else
    let (result, input) ← readRes input {}
    match result with
    | .error text => return ⟨sent, [], [text], -1, input⟩
    | .ok rbuf =>
      let payloadSize := (rbuf.size - 4) % 2 ^ 32
      let (consumed, printed) ← showRes ((rbuf.data.drop 4).take payloadSize)
      if consumed < 0 ∨ consumed ≠ payloadSize then
        return ⟨sent, printed, ["bad response"], -1, input⟩
      else return ⟨sent, printed, [], 0, input⟩

/-! ## The prompt -/

/-- `ss >> token`: blanks are skipped, and the bytes up to the next blank are taken. -/
def extractToken (ss : Bytes) : Option (Bytes × Bytes) :=
  let rest := ss.dropWhile isSpace
  if rest = [] then none
  else some (rest.takeWhile fun byte => !isSpace byte, rest.dropWhile fun byte => !isSpace byte)

theorem extractToken_shorter {ss token rest : Bytes}
    (found : extractToken ss = some (token, rest)) :
    rest.length < ss.length := by
  rw [extractToken] at found
  split_ifs at found with empty
  cases found
  have within := (List.dropWhile_sublist (l := ss) isSpace).length_le
  cases blanks : ss.dropWhile isSpace with
  | nil => exact absurd blanks empty
  | cons byte rest =>
      have solid : isSpace byte = false := by
        have head := List.head_dropWhile_not isSpace empty
        simpa [blanks] using head
      have further := (List.dropWhile_sublist (l := rest) fun byte => !isSpace byte).length_le
      rw [blanks, List.length_cons] at within
      rw [List.dropWhile_cons, if_pos (by simp [solid])]
      omega

/-- The loop `while (ss >> token)`. -/
def tokens (ss : Bytes) : List Bytes :=
  match _found : extractToken ss with
  | none => []
  | some (token, rest) => token :: tokens rest
termination_by ss.length
decreasing_by exact extractToken_shorter _found

/-- What `repl` sends and prints. -/
structure Repl where
  sent : Bytes := []
  printed : List Printed
  errors : List String := []

def promptText : Printed := .text "redis> "

/-- The loop of `repl` over the lines of its input, each transaction with a kernel of its own. -/
def replLoop (accepts : Nat → Nat → Nat → Nat) (input : Input) : List Bytes → Option Repl
  | [] => some { printed := [promptText] }
  | line :: lines =>
    let cmd := tokens line
    if cmd = [] then do
      let rest ← replLoop accepts input lines
      return { rest with printed := promptText :: rest.printed }
    else if cmd = [ascii "quit"] then some { printed := [promptText] }
    else do
      let tx ← clientTx (accepts 0) input cmd
      let rest ← replLoop (fun n => accepts (n + 1)) tx.input lines
      return {
        sent := tx.sent ++ rest.sent
        printed := promptText :: tx.printed ++ rest.printed
        errors := tx.errors ++ rest.errors }

def repl (accepts : Nat → Nat → Nat → Nat) (input : Input) (lines : List Bytes) : Option Repl := do
  let rest ← replLoop accepts input lines
  return { rest with printed := .text "Enter 'quit' to stop.\n" :: rest.printed }

/-! ## Words and blanks -/

/-- Words between blanks. -/
inductive Spaced : Bytes → List Bytes → Prop where
  | blanks {line : Bytes} (spaces : ∀ byte ∈ line, isSpace byte = true) : Spaced line []
  | word {blanks word rest : Bytes} {words : List Bytes}
      (spaces : ∀ byte ∈ blanks, isSpace byte = true)
      (nonempty : word ≠ []) (solid : ∀ byte ∈ word, isSpace byte = false)
      (ends : ∀ byte ∈ rest.head?, isSpace byte = true) (more : Spaced rest words) :
      Spaced (blanks ++ (word ++ rest)) (word :: words)

theorem extractToken_blanks {line : Bytes} :
    extractToken line = none ↔ ∀ byte ∈ line, isSpace byte = true := by
  rw [extractToken]
  split_ifs with empty
  · simpa using empty
  · simpa using empty

theorem extractToken_iff {line word rest : Bytes} : extractToken line = some (word, rest) ↔
    ∃ blanks, line = blanks ++ (word ++ rest) ∧ (∀ byte ∈ blanks, isSpace byte = true) ∧ word ≠ [] ∧
      (∀ byte ∈ word, isSpace byte = false) ∧ ∀ byte ∈ rest.head?, isSpace byte = true := by
  constructor
  · intro found
    rw [extractToken] at found
    split_ifs at found with empty
    cases found
    refine ⟨line.takeWhile isSpace, ?_, ?_, ?_, ?_, ?_⟩
    · rw [List.takeWhile_append_dropWhile, List.takeWhile_append_dropWhile]
    · exact fun byte member => List.mem_takeWhile_imp member
    · have head := List.head_dropWhile_not isSpace empty
      cases blanks : line.dropWhile isSpace with
      | nil => exact absurd blanks empty
      | cons byte rest =>
          have solid : isSpace byte = false := by simpa [blanks] using head
          simp [solid]
    · intro byte member
      simpa using List.mem_takeWhile_imp member
    · intro byte first
      cases rest : (line.dropWhile isSpace).dropWhile fun byte => !isSpace byte with
      | nil => simp [rest] at first
      | cons byte' rest' =>
          have nonempty : (line.dropWhile isSpace).dropWhile (fun byte => !isSpace byte) ≠ [] := by
            simp [rest]
          have head := List.head_dropWhile_not (fun byte => !isSpace byte) nonempty
          obtain rfl : byte' = byte := by simpa [rest] using first
          simpa [rest] using head
  · rintro ⟨blanks, rfl, spaces, nonempty, solid, ends⟩
    obtain ⟨byte, word, rfl⟩ := List.exists_cons_of_ne_nil nonempty
    have first : isSpace byte = false := solid byte List.mem_cons_self
    have skipped : (blanks ++ (byte :: word ++ rest)).dropWhile isSpace = byte :: word ++ rest := by
      rw [List.dropWhile_append_of_pos spaces]
      simp [first]
    have all : ∀ other ∈ byte :: word, (!isSpace other) = true := by
      intro other member
      simp [solid other member]
    have stops : rest.takeWhile (fun byte => !isSpace byte) = [] ∧
        rest.dropWhile (fun byte => !isSpace byte) = rest := by
      cases rest with
      | nil => exact ⟨rfl, rfl⟩
      | cons byte' rest =>
          have space : isSpace byte' = true := ends byte' rfl
          simp [space]
    rw [extractToken, skipped]
    rw [if_neg (by simp), List.takeWhile_append_of_pos all,
      List.dropWhile_append_of_pos all, stops.1,
      stops.2, List.append_nil]

/-- A line is taken apart into exactly the words which make it up. -/
theorem tokens_iff {line : Bytes} {words : List Bytes} : tokens line = words ↔
    Spaced line words := by
  induction size : line.length using Nat.strong_induction_on generalizing line words with
  | _ size ih =>
  subst size
  rw [tokens.eq_def]
  split
  next nothing =>
    have spaces := extractToken_blanks.mp nothing
    constructor
    · rintro rfl
      exact .blanks spaces
    · intro spaced
      cases spaced with
      | blanks => rfl
      | word spaces' nonempty solid ends more =>
          have found := extractToken_iff.mpr ⟨_, rfl, spaces', nonempty, solid, ends⟩
          rw [nothing] at found
          cases found
  next token rest found =>
    have shorter := extractToken_shorter found
    constructor
    · rintro rfl
      obtain ⟨blanks, rfl, spaces, nonempty, solid, ends⟩ := extractToken_iff.mp found
      exact .word spaces nonempty solid ends ((ih _ shorter rfl).mp rfl)
    · intro spaced
      cases spaced with
      | blanks spaces =>
          rw [extractToken_blanks.mpr spaces] at found
          cases found
      | word spaces' nonempty solid ends more =>
          have found' := extractToken_iff.mpr ⟨_, rfl, spaces', nonempty, solid, ends⟩
          rw [found] at found'
          cases found'
          rw [(ih _ shorter rfl).mpr more]

/-! ## What a transaction does -/

section Transactions

variable {accepts : Nat → Nat → Nat} {input : Input} {outcomes' : Nat → ReadOutcome} {cmd : List Bytes}
  {payload : Bytes} {value : WireValue}

/-- `client_tx` finds the whole message behind the size bytes of its buffer. -/
theorem readRes_payload (arrives : DeliversFrame input.outcomes payload outcomes')
    (small : payload.length ≤ kMaxMsg) :
    ∃ errno rbuf, readRes input {} = some (.ok rbuf, ⟨outcomes', errno⟩) ∧
      (rbuf.size - 4) % 2 ^ 32 = payload.length ∧
      (rbuf.data.drop 4).take payload.length = payload := by
  obtain ⟨errno, run⟩ := arrives.readFrame small
  obtain ⟨same, filled⟩ := readRes_eq input
  rw [run] at same
  obtain ⟨⟨result, input'⟩, reads, whole⟩ := Option.map_eq_some_iff.mp same
  cases result with
  | error text => cases whole
  | ok rbuf =>
      simp only [Except.map, Prod.mk.injEq, Except.ok.injEq] at whole
      obtain ⟨content, rfl⟩ := whole
      refine ⟨errno, rbuf, reads, ?_, ?_⟩
      · rw [kMaxMsg] at small
        rw [(filled _ _ reads).size, content, length_frame, Nat.add_sub_cancel_left]
        exact Nat.mod_eq_of_lt (by omega)
      · rw [content, frame, List.drop_left' (LittleEndian.length_encode 4 _), List.take_length]

/-- A valid command is sent, and the value which arrives is printed. -/
theorem clientTx_spec (all : AcceptsAll accepts) (valid : ValidRequest cmd)
    (arrives : DeliversFrame input.outcomes value.encode outcomes') (fits : value.Fits)
    (small : value.encode.length ≤ kMaxMsg) :
    ∃ errno, clientTx accepts input cmd =
      some ⟨requestFrame cmd, value.shown, [], 0, ⟨outcomes', errno⟩⟩ := by
  have sends : sendReq accepts cmd = some (requestFrame cmd, true) :=
    sendReq_of_length all (payloadLength_of_size valid.size)
  have bound : value.encode.length < 2 ^ 31 := by
    rw [kMaxMsg] at small
    norm_num at small ⊢
    omega
  have shows := showRes_encode value (value.wellSized_of_short fits (by omega)) [] bound
  rw [List.append_nil] at shows
  obtain ⟨errno, rbuf, reads, size, payload⟩ := readRes_payload arrives small
  refine ⟨errno, ?_⟩
  simp only [clientTx, sends, Option.bind_eq_bind, Option.bind_some, reads, size, payload, shows]
  simp

/-- Whatever a server answers, `print_res` stays inside the message if its texts end. The message
is then taken alone, and accepted exactly if its value fills it. -/
theorem clientTx_guarded (all : AcceptsAll accepts) (valid : ValidRequest cmd)
    (arrives : DeliversFrame input.outcomes payload outcomes')
    (small : payload.length ≤ kMaxMsg) (ends : TextsEnd payload) :
    ∃ tx, clientTx accepts input cmd = some tx ∧ tx.sent = requestFrame cmd ∧
      tx.input.outcomes = outcomes' ∧ (tx.rv = 0 ↔ printRes payload = payload.length) := by
  have sends : sendReq accepts cmd = some (requestFrame cmd, true) :=
    sendReq_of_length all (payloadLength_of_size valid.size)
  obtain ⟨call, below, inspects, -, -⟩ := ends.inspected (small.trans_lt (by decide))
  -- `print_res` prints what the inspected call reads
  have shown := showRes_inspect payload
  rw [inspects, Option.map_some, (inspectRes_result inspects).2] at shown
  obtain ⟨⟨rv, printed⟩, shows, same⟩ := Option.map_eq_some_iff.mp shown
  obtain rfl : rv = printRes payload := same
  obtain ⟨errno, rbuf, reads, size, content⟩ := readRes_payload arrives small
  simp only [clientTx, sends, Option.bind_eq_bind, Option.bind_some, reads, size, content, shows]
  by_cases fills : printRes payload = payload.length
  · refine ⟨⟨requestFrame cmd, printed, [], 0, ⟨outcomes', errno⟩⟩, ?_, rfl, rfl, ?_⟩
    · simp [fills]
    · simp [fills]
  · refine ⟨⟨requestFrame cmd, printed, ["bad response"], -1, ⟨outcomes', errno⟩⟩, ?_, rfl, rfl, ?_⟩
    · simp [fills]
    · simp [fills]

/-- Messages within the limit arrive one behind the other. -/
inductive DeliversFrames : (Nat → ReadOutcome) → List Bytes → (Nat → ReadOutcome) → Prop where
  | done {outcomes : Nat → ReadOutcome} : DeliversFrames outcomes [] outcomes
  | message {outcomes middle outcomes' : Nat → ReadOutcome} {payload : Bytes}
      {payloads : List Bytes}
      (first : DeliversFrame outcomes payload middle) (small : payload.length ≤ kMaxMsg)
      (more : DeliversFrames middle payloads outcomes') :
      DeliversFrames outcomes (payload :: payloads) outcomes'

theorem DeliversFrames.small {outcomes : Nat → ReadOutcome} {payloads : List Bytes}
    (arrives : DeliversFrames outcomes payloads outcomes') :
    ∀ payload ∈ payloads, payload.length ≤ kMaxMsg := by
  induction arrives with
  | done => simp
  | message first small more ih => exact List.forall_mem_cons.mpr ⟨small, ih⟩

/-- The words of each line which has any, up to a line with `quit` alone. -/
def typedCommands : List Bytes → List (List Bytes)
  | [] => []
  | line :: lines =>
    if tokens line = [] then typedCommands lines
    else if tokens line = [ascii "quit"] then []
    else tokens line :: typedCommands lines

/-- The screen behind the greeting: a prompt for each line, and a value behind each command. -/
def screen : List Bytes → List WireValue → List Printed
  | [], _ => [promptText]
  | line :: lines, values =>
    if tokens line = [] then promptText :: screen lines values
    else if tokens line = [ascii "quit"] then [promptText]
    else promptText :: (values.head?.elim [] WireValue.shown ++ screen lines values.tail)

/-- The prompt sends every command and prints every value which arrives. -/
theorem replLoop_spec {accepts : Nat → Nat → Nat → Nat} (all : ∀ n, AcceptsAll (accepts n))
    {lines : List Bytes} (valid : ∀ cmd ∈ typedCommands lines, ValidRequest cmd)
    {values : List WireValue} (fits : ∀ value ∈ values, value.Fits)
    (count : values.length = (typedCommands lines).length)
    (arrives : DeliversFrames input.outcomes (values.map WireValue.encode) outcomes') :
    replLoop accepts input lines =
      some ⟨(typedCommands lines).flatMap requestFrame, screen lines values, []⟩ := by
  induction lines generalizing accepts values input with
  | nil => rfl
  | cons line lines ih =>
      by_cases blank : tokens line = []
      · simp only [typedCommands, if_pos blank] at valid count
        simp [replLoop, typedCommands, screen, blank, ih all valid fits count arrives]
      by_cases quits : tokens line = [ascii "quit"]
      · simp [replLoop, typedCommands, screen, quits]
      simp only [typedCommands, if_neg blank, if_neg quits] at valid count
      cases values with
      | nil => cases count
      | cons value values =>
          obtain ⟨first, rest⟩ := List.forall_mem_cons.mp valid
          obtain ⟨fit, fits⟩ := List.forall_mem_cons.mp fits
          cases arrives with
          | message delivered small more =>
              obtain ⟨errno, run⟩ := clientTx_spec (all 0) first delivered fit small
              have behind := @ih ⟨_, errno⟩ _ (fun n => all (n + 1)) rest values fits
                (Nat.succ.inj count) more
              simp [replLoop, typedCommands, screen, blank, quits, run, behind]

end Transactions

end MiniRedis
