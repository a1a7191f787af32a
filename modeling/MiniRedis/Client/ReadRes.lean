import MiniRedis.Client.SendReq
import MiniRedis.Common.Resize

/-!
# Responses to the client (`client.cpp`)

`read_res` reads the size of a message into a new buffer, grows the buffer and reads the
message behind the size.
-/

namespace MiniRedis

/-- `read` into the data of a buffer from an index on. -/
def Buffer.store (buf : Buffer) (pos : Nat) (data : Bytes) : Option Buffer := do
  let block ← copyAt buf.block (buf.dataBegin + pos) data
  return { buf with block := block }

/-- `read_res`: the filled buffer, or the text of the message when it returns `-1`. No result is
a write outside the buffer or a loop which does not end. -/
def readRes (input : Input) (rbuf : Buffer) : Option (Except String Buffer × Input) := do
  let rbuf ← bufResize rbuf 4
  let (err, stored, input) ← Input.readn { input with errno := 0 } 4
  let rbuf ← rbuf.store 0 stored
  if err ≠ 0 then return (.error (if input.errno = 0 then "EOF" else "read() error"), input)
  else
    let len := readU32At rbuf.data 0
    if len > kMaxMsg then return (.error "too long", input)
    else
      let rbuf ← bufResize rbuf (4 + len)
      let (err, stored, input) ← input.readn len
      let rbuf ← rbuf.store 4 stored
      if err ≠ 0 then return (.error "read() error", input)
      else return (.ok rbuf, input)

/-! ## What arrives -/

/-- The calls of `read` bring exactly these bytes, in any pieces and after any interrupts; the
outcomes behind are left. -/
inductive Delivers : (Nat → ReadOutcome) → Bytes → (Nat → ReadOutcome) → Prop where
  | done {outcomes : Nat → ReadOutcome} : Delivers outcomes [] outcomes
  | bytes {outcomes outcomes' : Nat → ReadOutcome} {chunk rest : Bytes} (nonempty : chunk ≠ [])
      (first : outcomes 0 = .bytes chunk nonempty)
      (more : Delivers (fun call => outcomes (call + 1)) rest outcomes') :
      Delivers outcomes (chunk ++ rest) outcomes'
  | interrupted {outcomes outcomes' : Nat → ReadOutcome} {data : Bytes} (missing : data ≠ [])
      (first : outcomes 0 = .fails eintr)
      (more : Delivers (fun call => outcomes (call + 1)) data outcomes') :
      Delivers outcomes data outcomes'

/-- The end of a file does not go away. -/
def StaysEnded (outcomes : Nat → ReadOutcome) : Prop :=
  ∀ call, outcomes call = .eof → outcomes (call + 1) = .eof

variable {outcomes outcomes' middle : Nat → ReadOutcome} {data payload : Bytes} {input input' : Input}

theorem StaysEnded.next (ended : StaysEnded outcomes) :
    StaysEnded fun call => outcomes (call + 1) :=
  fun call => ended (call + 1)

theorem Delivers.stays (delivers : Delivers outcomes data outcomes') (ended : StaysEnded outcomes) :
    StaysEnded outcomes' := by
  induction delivers with
  | done => exact ended
  | bytes nonempty first more ih => exact ih ended.next
  | interrupted missing first more ih => exact ih ended.next

/-- `readn` stores what arrives, whatever `errno` was. -/
theorem Delivers.readn (delivers : Delivers outcomes data outcomes') (errno : Nat) :
    ∃ errno', Input.readn ⟨outcomes, errno⟩ data.length = some (0, data, ⟨outcomes', errno'⟩) := by
  induction delivers generalizing errno with
  | done => exact ⟨errno, by rw [Input.readn]; rfl⟩
  | @bytes outcomes outcomes' chunk rest nonempty first more ih =>
      obtain ⟨errno', run⟩ := ih errno
      have progress : Input.Progress ⟨outcomes, errno⟩ 1 := Input.progress_one.mpr (by simp [first])
      have positive : 0 < (chunk ++ rest).length := by
        have := List.length_pos_of_ne_nil nonempty
        rw [List.length_append]
        omega
      have next : Input.after ⟨outcomes, errno⟩ 1 = ⟨fun call => outcomes (call + 1), errno⟩ := by
        simp [Input.after, Input.read, first]
      refine ⟨errno', ?_⟩
      rw [Input.readn_step positive progress (by simp [first, ReadOutcome.data]), next]
      simp only [first, ReadOutcome.data, List.length_append, Nat.add_sub_cancel_left, run]
      rfl
  | @interrupted outcomes outcomes' data missing first more ih =>
      obtain ⟨errno', run⟩ := ih eintr
      have progress : Input.Progress ⟨outcomes, errno⟩ 1 :=
        Input.progress_one.mpr (by simp [first, eq_comm])
      have next : Input.after ⟨outcomes, errno⟩ 1 = ⟨fun call => outcomes (call + 1), eintr⟩ := by
        simp [Input.after, Input.read, first]
      refine ⟨errno', ?_⟩
      rw [Input.readn_step (List.length_pos_of_ne_nil missing) progress
        (by simp [first, ReadOutcome.data]),
        next]
      simp only [first, ReadOutcome.data, List.length_nil, Nat.sub_zero, run]
      rfl

/-- `readn` never stores more than it is asked for, and no less if it returns zero. -/
theorem readn_length {n : Nat} {err : Int} {stored : Bytes}
    (run : input.readn n = some (err, stored, input')) :
    stored.length ≤ n ∧ (err = 0 → stored.length = n) := by
  have bounded : ∀ (input : Input) (n : Nat) (result : Int × Bytes × Input),
    input.readn n = some result →
      result.2.1.length ≤ n ∧ (result.1 = 0 → result.2.1.length = n) := by
    apply Input.readn.partial_correctness
    intro loop ih input n result run
    have next : input.read = (input.outcomes 0, input.after 1) := rfl
    rw [next] at run
    split at run
    next positive =>
      cases outcome : input.outcomes 0 with
      | bytes data nonempty =>
          rw [outcome] at run
          obtain ⟨⟨⟩, fits, run⟩ := Option.bind_eq_some_iff.mp run
          obtain ⟨⟨err, stored, rest⟩, inner, run⟩ := Option.bind_eq_some_iff.mp run
          cases run
          have small : data.length ≤ n := by
            by_contra large
            simp [large] at fits
          obtain ⟨within, whole⟩ := ih _ _ _ inner
          simp only [List.length_append] at within whole ⊢
          exact ⟨by omega, fun zero => by have := whole zero; omega⟩
      | eof =>
          simp only [outcome] at run
          split at run
          · exact ih _ _ _ run
          · cases run
            exact ⟨Nat.zero_le _, by simp⟩
      | fails code =>
          simp only [outcome] at run
          split at run
          · exact ih _ _ _ run
          · cases run
            exact ⟨Nat.zero_le _, by simp⟩
    next finished =>
      cases run
      exact ⟨Nat.zero_le _, fun _ => by simp; omega⟩
  exact bounded input n _ run

/-- `readn` returns zero only if what it has stored has arrived. -/
theorem delivers_of_readn (ended : StaysEnded input.outcomes) {n : Nat} {stored : Bytes}
    (run : input.readn n = some (0, stored, input')) :
    Delivers input.outcomes stored input'.outcomes := by
  have sound : ∀ (input : Input) (n : Nat) (result : Int × Bytes × Input),
    input.readn n = some result →
      StaysEnded input.outcomes → result.1 = 0 →
        Delivers input.outcomes result.2.1 result.2.2.outcomes ∧
          (0 < n → input.outcomes 0 ≠ .eof ∧ result.2.1 ≠ []) := by
    apply Input.readn.partial_correctness
    intro loop ih input n result run ended zero
    have next : input.read = (input.outcomes 0, input.after 1) := rfl
    have behind : (input.after 1).outcomes = fun call => input.outcomes (call + 1) := rfl
    rw [next] at run
    split at run
    next positive =>
      cases outcome : input.outcomes 0 with
      | bytes data nonempty =>
          rw [outcome] at run
          obtain ⟨⟨⟩, fits, run⟩ := Option.bind_eq_some_iff.mp run
          obtain ⟨⟨err, stored, rest⟩, inner, run⟩ := Option.bind_eq_some_iff.mp run
          cases run
          obtain ⟨delivers, -⟩ := ih _ _ _ inner (behind ▸ ended.next) zero
          refine ⟨.bytes nonempty outcome delivers, fun _ => ⟨by simp, ?_⟩⟩
          exact List.append_ne_nil_of_left_ne_nil nonempty _
      | eof =>
          simp only [outcome] at run
          split at run
          · -- the end of the file comes again, and nothing arrives behind it
            obtain ⟨-, again⟩ := ih _ _ _ run (behind ▸ ended.next) zero
            exact absurd (ended 0 outcome) (again positive).1
          · cases run
            cases zero
      | fails code =>
          simp only [outcome] at run
          split at run
          next interrupted =>
            have errno : (input.after 1).errno = code := by simp [Input.after, Input.read, outcome]
            obtain rfl := errno.symm.trans interrupted
            obtain ⟨delivers, nonempty⟩ := ih _ _ _ run (behind ▸ ended.next) zero
            have missing := (nonempty positive).2
            exact ⟨.interrupted missing outcome delivers, fun _ => ⟨by simp, missing⟩⟩
          next =>
            cases run
            cases zero
    next finished =>
      cases run
      exact ⟨.done, fun positive => absurd positive finished⟩
  exact (sound input n _ run ended rfl).1

/-! ## The buffer -/

section Buffers

variable {buf buf' : Buffer} {queue : Bytes}

/-- Bytes are stored over those which are there. -/
theorem Buffer.Holds.store (holds : buf.Holds queue) {pos : Nat}
    (inside : pos + data.length ≤ queue.length) :
    ∃ buf', buf.store pos data = some buf' ∧
      buf'.Holds (queue.take pos ++ (data ++ queue.drop (pos + data.length))) ∧
      buf'.dataBegin = buf.dataBegin := by
  obtain ⟨front, back, split, first, last⟩ := holds
  have middle : ((queue.drop pos).take data.length).length = data.length := by
    rw [List.length_take, List.length_drop]
    omega
  have copied := copyAt_middle (front ++ queue.take pos)
      (queue.drop (pos + data.length) ++ back) middle
  have position : (front ++ queue.take pos).length = buf.dataBegin + pos := by
    rw [List.length_append, List.length_take_of_le (by omega), first]
  have whole : front ++ queue.take pos ++
      ((queue.drop pos).take data.length ++ (queue.drop (pos + data.length) ++ back)) =
      buf.block := by
    rw [← List.drop_drop, ← List.append_assoc ((queue.drop pos).take data.length),
      List.take_append_drop, List.append_assoc, ← List.append_assoc (queue.take pos),
      List.take_append_drop, split]
  rw [position, whole] at copied
  refine ⟨{ buf with block := front ++ queue.take pos ++
      (data ++ (queue.drop (pos + data.length) ++ back)) }, by rw [Buffer.store, copied]; rfl,
    ⟨front, back, by simp, first, ?_⟩, rfl⟩
  rw [last]
  simp only [List.length_append, List.length_take, List.length_drop]
  omega

theorem bufResize_front (front : buf.dataBegin = 0) {n : Nat} (run : bufResize buf n = some buf') :
    buf'.dataBegin = 0 := by
  rw [bufResize] at run
  split at run
  · cases run
    exact front
  · split at run
    · cases run
      exact front
    · obtain ⟨ready, room, run⟩ := Option.bind_eq_some_iff.mp run
      obtain ⟨block, -, run⟩ := Option.bind_eq_some_iff.mp run
      cases run
      exact (bufMakeRoom_front front room :)

/-- A buffer which nothing has been consumed from grows. -/
theorem Buffer.Holds.growFront (holds : buf.Holds queue) (front : buf.dataBegin = 0) {n : Nat}
    (more : queue.length ≤ n) :
    ∃ buf', bufResize buf n = some buf' ∧
    buf'.Holds (queue ++ List.replicate (n - queue.length) 0) ∧
      buf'.dataBegin = 0 := by
  have size := holds.size
  rcases Nat.lt_or_eq_of_le more with larger | rfl
  · have fits : buf.ResizeFits n := by
      intro _
      refine ⟨fun shifts => ?_, not_crowded_of_front front _⟩
      obtain ⟨position, -⟩ := holds.inside
      obtain ⟨behind, within⟩ := shifts
      omega
    obtain ⟨buf', run, holds'⟩ := (holds.grow larger).1 fits
    exact ⟨buf', run, holds', bufResize_front front run⟩
  · refine ⟨buf, by simp [bufResize, size], ?_, front⟩
    rwa [Nat.sub_self, List.replicate_zero, List.append_nil]

end Buffers

/-! ## What is read -/

/-- The bytes which `read_res` reads, without a buffer. -/
def readFrame (input : Input) : Option (Except String Bytes × Input) := do
  let (err, size, input) ← Input.readn { input with errno := 0 } 4
  if err ≠ 0 then return (.error (if input.errno = 0 then "EOF" else "read() error"), input)
  else if LittleEndian.decode size > kMaxMsg then return (.error "too long", input)
  else
    let (err, payload, input) ← input.readn (LittleEndian.decode size)
    if err ≠ 0 then return (.error "read() error", input)
    else return (.ok (size ++ payload), input)

/-- Whatever the calls of `read` return, `read_res` writes inside its buffer and leaves there
what has been read. -/
theorem readRes_eq (input : Input) :
    (readRes input {}).map (fun result => (result.1.map Buffer.data, result.2)) = readFrame input ∧
      ∀ rbuf input', readRes input {} = some (.ok rbuf, input') → rbuf.Holds rbuf.data := by
  obtain ⟨four, resized, holds, front⟩ := Buffer.Holds.empty.growFront rfl (Nat.zero_le 4)
  rw [readRes, readFrame, resized]
  simp only [Option.bind_eq_bind, Option.bind_some]
  cases first : Input.readn { input with errno := 0 } 4 with
  | none => exact ⟨rfl, fun _ _ run => by cases run⟩
  | some result =>
      obtain ⟨err, size, input'⟩ := result
      obtain ⟨within, whole⟩ := readn_length first
      obtain ⟨header, stored, holds', front'⟩ := @Buffer.Holds.store size _ _ holds 0 (by
        simp
        omega)
      simp only [Option.bind_some, stored]
      by_cases failed : err ≠ 0
      · simp only [if_pos failed]
        exact ⟨rfl, fun _ _ run => by cases run⟩
      · have length := whole (not_not.mp failed)
        have data : header.data = size := by
          rw [holds'.data]
          simp [length]
        have field : readU32At header.data 0 = LittleEndian.decode size := by
          rw [data, readU32At, List.drop_zero, List.take_of_length_le length.le]
        rw [← holds'.data, data] at holds'
        simp only [if_neg failed, field]
        by_cases large : LittleEndian.decode size > kMaxMsg
        · simp only [if_pos large]
          exact ⟨rfl, fun _ _ run => by cases run⟩
        · obtain ⟨grown, resized', holds'', front''⟩ := @Buffer.Holds.growFront _ _ holds'
            (front'.trans front) (4 + LittleEndian.decode size) (by omega)
          simp only [if_neg large, resized', Option.bind_some]
          cases second : input'.readn (LittleEndian.decode size) with
          | none => exact ⟨rfl, fun _ _ run => by cases run⟩
          | some result' =>
              obtain ⟨err', payload, input''⟩ := result'
              obtain ⟨within', whole'⟩ := readn_length second
              obtain ⟨filled, stored', holds₃, -⟩ := @Buffer.Holds.store payload _ _ holds'' 4 (by
                simp
                omega)
              simp only [Option.bind_some, stored']
              by_cases failed' : err' ≠ 0
              · simp only [if_pos failed']
                exact ⟨rfl, fun _ _ run => by cases run⟩
              · have length' := whole' (not_not.mp failed')
                have final : filled.data = size ++ payload := by
                  rw [holds₃.data]
                  simp [length, length']
                simp only [if_neg failed']
                refine ⟨by simp only [Option.pure_def, Option.map_some, Except.map, final],
                  fun rbuf input' run => ?_⟩
                cases run
                rwa [holds₃.data]

/-- A message arrives: its size, and then as many bytes, no piece of which a call for the size
has taken. -/
def DeliversFrame (outcomes : Nat → ReadOutcome) (payload : Bytes)
    (outcomes' : Nat → ReadOutcome) : Prop :=
  ∃ middle, Delivers outcomes (LittleEndian.encode 4 payload.length) middle ∧
    Delivers middle payload outcomes'

theorem decode_size {payload : Bytes} (small : payload.length ≤ kMaxMsg) :
    LittleEndian.decode (LittleEndian.encode 4 payload.length) = payload.length := by
  rw [LittleEndian.decode_encode]
  apply Nat.mod_eq_of_lt
  rw [kMaxMsg] at small
  norm_num at small ⊢
  omega

theorem DeliversFrame.readFrame (arrives : DeliversFrame input.outcomes payload outcomes')
    (small : payload.length ≤ kMaxMsg) :
    ∃ errno, MiniRedis.readFrame input = some (.ok (frame payload), ⟨outcomes', errno⟩) := by
  obtain ⟨middle, size, message⟩ := arrives
  obtain ⟨errno, first⟩ := size.readn 0
  obtain ⟨errno', second⟩ := message.readn errno
  rw [LittleEndian.length_encode] at first
  refine ⟨errno', ?_⟩
  rw [MiniRedis.readFrame]
  simp [first, decode_size small, Nat.not_lt.mpr small, second, frame]

/-- What the first `readn` of a successful call has stored is a size within the limit. -/
theorem deliversFrame_of_readFrame (ended : StaysEnded input.outcomes)
    (run : readFrame input = some (.ok data, input')) :
    ∃ payload, data = frame payload ∧ payload.length ≤ kMaxMsg ∧
      DeliversFrame input.outcomes payload input'.outcomes := by
  obtain ⟨⟨err, size, middle⟩, first, run⟩ := Option.bind_eq_some_iff.mp run
  dsimp only at run
  by_cases failed : err ≠ 0
  · rw [if_pos failed] at run
    cases run
  rw [if_neg failed] at run
  by_cases large : LittleEndian.decode size > kMaxMsg
  · rw [if_pos large] at run
    cases run
  rw [if_neg large] at run
  obtain ⟨⟨err', payload, last⟩, second, run⟩ := Option.bind_eq_some_iff.mp run
  dsimp only at run
  by_cases failed' : err' ≠ 0
  · rw [if_pos failed'] at run
    cases run
  rw [if_neg failed'] at run
  cases run
  obtain rfl := not_not.mp failed
  obtain rfl := not_not.mp failed'
  have header : Delivers input.outcomes size middle.outcomes :=
    @delivers_of_readn { input with errno := 0 } _ ended _ _ first
  have message := delivers_of_readn (header.stays ended) second
  have four := (readn_length first).2 rfl
  have length := (readn_length second).2 rfl
  have digits := LittleEndian.encode_decode size
  rw [four, ← length] at digits
  refine ⟨payload, by rw [frame, digits], by omega, middle.outcomes, ?_, message⟩
  rw [digits]
  exact header

/-- A call which refuses a message has read a size beyond the limit. -/
theorem delivers_of_tooLong (ended : StaysEnded input.outcomes)
    (run : readFrame input = some (.error "too long", input')) :
    ∃ size, kMaxMsg < size ∧ size < 2 ^ 32 ∧
      Delivers input.outcomes (LittleEndian.encode 4 size) input'.outcomes := by
  obtain ⟨⟨err, size, middle⟩, first, run⟩ := Option.bind_eq_some_iff.mp run
  dsimp only at run
  by_cases failed : err ≠ 0
  · rw [if_pos failed] at run
    split at run <;> simp at run
  rw [if_neg failed] at run
  by_cases large : LittleEndian.decode size > kMaxMsg
  · rw [if_pos large] at run
    cases run
    obtain rfl := not_not.mp failed
    have four := (readn_length first).2 rfl
    have digits := LittleEndian.encode_decode size
    have bound := LittleEndian.decode_lt size
    rw [four] at digits bound
    refine ⟨LittleEndian.decode size, large, by norm_num at bound ⊢; exact bound, ?_⟩
    rw [digits]
    exact @delivers_of_readn { input with errno := 0 } _ ended _ _ first
  · rw [if_neg large] at run
    obtain ⟨⟨err', payload, last⟩, -, run⟩ := Option.bind_eq_some_iff.mp run
    dsimp only at run
    split at run <;> simp at run

/-- `read_res` succeeds exactly on a message within the limit, however it is cut and however
often its calls are interrupted, leaves it in the buffer and takes nothing behind it. It refuses
a message exactly for a size beyond the limit, of which it has then taken the size alone. -/
theorem read_res_iff (ended : StaysEnded input.outcomes) (outcomes' : Nat → ReadOutcome) :
    (∀ data, (∃ rbuf input', readRes input {} = some (.ok rbuf, input') ∧ rbuf.data = data ∧
        input'.outcomes = outcomes') ↔
      ∃ payload, data = frame payload ∧ payload.length ≤ kMaxMsg ∧
        DeliversFrame input.outcomes payload outcomes') ∧
    ((∃ input', readRes input {} = some (.error "too long", input') ∧ input'.outcomes = outcomes') ↔
      ∃ size, kMaxMsg < size ∧ size < 2 ^ 32 ∧
        Delivers input.outcomes (LittleEndian.encode 4 size) outcomes') := by
  obtain ⟨same, -⟩ := readRes_eq input
  refine ⟨fun data => ⟨?_, ?_⟩, ?_, ?_⟩
  · rintro ⟨rbuf, input', run, rfl, rfl⟩
    rw [run] at same
    exact deliversFrame_of_readFrame ended same.symm
  · rintro ⟨payload, rfl, small, arrives⟩
    obtain ⟨errno, run⟩ := arrives.readFrame small
    rw [run] at same
    obtain ⟨⟨result, input'⟩, run', whole⟩ := Option.map_eq_some_iff.mp same
    cases result with
    | error text => cases whole
    | ok rbuf =>
        simp only [Except.map, Prod.mk.injEq, Except.ok.injEq] at whole
        obtain ⟨content, rfl⟩ := whole
        exact ⟨rbuf, _, run', content, rfl⟩
  · rintro ⟨input', run, rfl⟩
    rw [run] at same
    exact delivers_of_tooLong ended same.symm
  · rintro ⟨size, large, bound, arrives⟩
    obtain ⟨errno, first⟩ := arrives.readn 0
    rw [LittleEndian.length_encode] at first
    have field : LittleEndian.decode (LittleEndian.encode 4 size) = size := by
      rw [LittleEndian.decode_encode]
      exact Nat.mod_eq_of_lt (by norm_num at bound ⊢; exact bound)
    have run : readFrame input = some (.error "too long", ⟨outcomes', errno⟩) := by
      rw [readFrame]
      simp [first, field, large]
    rw [run] at same
    obtain ⟨⟨result, input'⟩, run', whole⟩ := Option.map_eq_some_iff.mp same
    cases result with
    | error text =>
        simp only [Except.map, Prod.mk.injEq, Except.error.injEq] at whole
        obtain ⟨rfl, rfl⟩ := whole
        exact ⟨_, run', rfl⟩
    | ok rbuf => cases whole

/-- Some outcomes, and then the end of the file. -/
def thenEnds (calls : List ReadOutcome) (call : Nat) : ReadOutcome := calls.getD call .eof

theorem thenEnds_stays {calls : List ReadOutcome} (lasting : .eof ∉ calls) :
    StaysEnded (thenEnds calls) := by
  intro call ended
  rw [thenEnds, List.getD_eq_getElem?_getD] at ended ⊢
  cases slot : calls[call]? with
  | none =>
      have behind := List.getElem?_eq_none_iff.mp slot
      rw [List.getElem?_eq_none (by omega)]
      rfl
  | some outcome =>
      rw [slot, Option.getD_some] at ended
      exact absurd (ended ▸ List.mem_of_getElem? slot) lasting

/-- The reply `(nil)` behind an interrupt, its size in two pieces. -/
theorem read_res_nil : ∃ rbuf input', readRes ⟨thenEnds [.fails eintr, .bytes [1, 0] (by decide),
      .bytes [0, 0] (by decide), .bytes [0] (by decide)], eintr⟩ {} = some (.ok rbuf, input') ∧
    rbuf.data = frame [0] := by
  have ended : StaysEnded (thenEnds [.fails eintr, .bytes [1, 0] (by decide),
    .bytes [0, 0] (by decide),
      .bytes [0] (by decide)]) := thenEnds_stays (by simp)
  have arrives : DeliversFrame (thenEnds [.fails eintr, .bytes [1, 0] (by decide),
      .bytes [0, 0] (by decide), .bytes [0] (by decide)]) [0] (thenEnds []) := by
    have size : LittleEndian.encode 4 ([0] : Bytes).length = [1, 0] ++ ([0, 0] ++ []) := by decide
    refine ⟨thenEnds [.bytes [0] (by decide)], ?_, @Delivers.bytes _ _ [0] [] (by decide) rfl .done⟩
    rw [size]
    apply Delivers.interrupted (by decide) rfl
    apply @Delivers.bytes _ _ [1, 0] _ (by decide) rfl
    exact @Delivers.bytes _ _ [0, 0] [] (by decide) rfl .done
  obtain ⟨rbuf, input', run, data, -⟩ := ((@read_res_iff ⟨_, eintr⟩ ended (thenEnds [])).1 _).mpr
    ⟨[0], rfl, by decide, arrives⟩
  exact ⟨rbuf, input', run, data⟩

end MiniRedis
