import MiniRedis.Server.Request

/-!
# The request parser on memory

`parse_req` with its pointers: offsets `curr` and `stop` into the block which holds the
payload. A load behind the end of the block is told apart from a failed check.
-/

namespace MiniRedis

/-- What code which reads through a pointer comes to. -/
inductive Reading (α : Type) where
  | value (result : α)
  /-- A check has failed, and the function returns `-1`. -/
  | refused
  /-- A byte outside the block was read. -/
  | outside

namespace Reading

variable {α β : Type}

/-- A failure or a read outside the block ends the reading. -/
def andThen : Reading α → (α → Reading β) → Reading β
  | value result, next => next result
  | refused, _ => refused
  | outside, _ => outside

instance : Monad Reading where
  pure := value
  bind := andThen

/-- A function which refuses where the other has no result. -/
def ofOption : Option α → Reading α
  | some result => value result
  | none => refused

@[simp] theorem pure_eq (result : α) : (pure result : Reading α) = value result := rfl

@[simp] theorem value_bind (result : α) (next : α → Reading β) :
    (value result >>= next) = next result := rfl

@[simp] theorem refused_bind (next : α → Reading β) : (refused >>= next) = refused := rfl

@[simp] theorem ofOption_some (result : α) : ofOption (some result) = value result := rfl

@[simp] theorem ofOption_none : ofOption (none : Option α) = refused := rfl

end Reading

/-- `memcpy` of `n` bytes from a position in a block. -/
def loadAt (block : Bytes) (curr n : Nat) : Reading Bytes :=
  if curr + n ≤ block.length then .value ((block.drop curr).take n) else .outside

/-- `read_u32`, with the pointer behind the number. -/
def readU32From (block : Bytes) (curr stop : Nat) : Reading (Nat × Nat) :=
  if curr + 4 > stop then .refused
  else do
    let bytes ← loadAt block curr 4
    return (LittleEndian.decode bytes, curr + 4)

/-- `read_str`, with the pointer behind the string. -/
def readStrFrom (block : Bytes) (curr stop n : Nat) : Reading (Bytes × Nat) :=
  if curr + n > stop then .refused
  else do
    let bytes ← loadAt block curr n
    return (bytes, curr + n)

/-- The loop of `parse_req` over the strings which are left. -/
def parseStringsFrom (block : Bytes) (stop : Nat) : Nat → Nat → Reading (List Bytes × Nat)
  | 0, curr => return ([], curr)
  | left + 1, curr => do
    let (len, curr) ← readU32From block curr stop
    let (str, curr) ← readStrFrom block curr stop len
    let (out, curr) ← parseStringsFrom block stop left curr
    return (str :: out, curr)

/-- `parse_req` on a payload of `size` bytes at the start of the block. -/
def parseReqFrom (block : Bytes) (size : Nat) : Reading (List Bytes) := do
  let (nstr, curr) ← readU32From block 0 size
  if nstr > kMaxArgs then Reading.refused
  else do
    let (out, curr) ← parseStringsFrom block size nstr curr
    if curr ≠ size then Reading.refused else return out

/-! ## The bytes behind the pointer -/

variable {block : Bytes} {curr : Nat}

/-- Either both fail, or the pointer moves by what is read and stays in the block. -/
theorem readU32From_cases (inside : curr ≤ block.length) :
    (readU32 (block.drop curr) = none ∧ readU32From block curr block.length = .refused) ∨
      ∃ n, readU32 (block.drop curr) = some (n, block.drop (curr + 4)) ∧
        readU32From block curr block.length = .value (n, curr + 4) ∧ curr + 4 ≤ block.length := by
  rw [readU32From, readU32, List.length_drop]
  by_cases short : curr + 4 > block.length
  · left
    rw [if_pos short, if_pos (by omega)]
    exact ⟨rfl, rfl⟩
  · right
    rw [if_neg short, if_neg (by omega), loadAt, if_pos (by omega), List.drop_drop]
    exact ⟨_, rfl, by simp [readU32At], by omega⟩

/-- `read_str` takes a string which is there, and refuses without a look behind the end. -/
theorem readStrFrom_cases (inside : curr ≤ block.length) (n : Nat) :
    (readStr (block.drop curr) n = none ∧ readStrFrom block curr block.length n = .refused) ∨
      ∃ str, readStr (block.drop curr) n = some (str, block.drop (curr + n)) ∧
        readStrFrom block curr block.length n = .value (str, curr + n) ∧
        curr + n ≤ block.length := by
  rw [readStrFrom, readStr, List.length_drop]
  by_cases short : curr + n > block.length
  · left
    rw [if_pos short, if_pos (by omega)]
    exact ⟨rfl, rfl⟩
  · right
    rw [if_neg short, if_neg (by omega), loadAt, if_pos (by omega), List.drop_drop]
    exact ⟨_, rfl, rfl, by omega⟩

/-- So does the loop over the strings. -/
theorem parseStringsFrom_cases (left : Nat) (inside : curr ≤ block.length) :
    (parseStrings left (block.drop curr) = none ∧
        parseStringsFrom block block.length left curr = .refused) ∨
      ∃ out next, parseStrings left (block.drop curr) = some (out, block.drop next) ∧
        parseStringsFrom block block.length left curr = .value (out, next) ∧
        next ≤ block.length := by
  induction left generalizing curr with
  | zero => exact .inr ⟨[], curr, rfl, rfl, inside⟩
  | succ left ih =>
      obtain ⟨fails, fails'⟩ | ⟨len, number, number', inside⟩ := readU32From_cases inside
      · exact .inl ⟨by simp [parseStrings, fails], by simp [parseStringsFrom, fails']⟩
      obtain ⟨fails, fails'⟩ | ⟨str, string, string', inside⟩ := readStrFrom_cases inside len
      · exact .inl ⟨by simp [parseStrings, number, fails],
          by simp [parseStringsFrom, number', fails']⟩
      obtain ⟨fails, fails'⟩ | ⟨out, next, loop, loop', inside⟩ := ih inside
      · exact .inl ⟨by simp [parseStrings, number, string, fails],
          by simp [parseStringsFrom, number', string', fails']⟩
      · exact .inr ⟨str :: out, next, by simp [parseStrings, number, string, loop],
          by simp [parseStringsFrom, number', string', loop'], inside⟩

/-- No byte outside the payload is read, and the result is that of `parseReq`. -/
theorem parseReqFrom_eq (data : Bytes) :
    parseReqFrom data data.length = .ofOption (parseReq data) := by
  obtain ⟨fails, fails'⟩ | ⟨nstr, number, number', inside⟩ :=
    @readU32From_cases data 0 (Nat.zero_le _)
  · rw [List.drop_zero] at fails
    simp [parseReqFrom, parseReq, fails, fails']
  rw [List.drop_zero] at number
  by_cases many : nstr > kMaxArgs
  · simp [parseReqFrom, parseReq, number, number', many, Nat.not_le.mpr many]
  have few : nstr ≤ kMaxArgs := Nat.not_lt.mp many
  obtain ⟨fails, fails'⟩ | ⟨out, next, loop, loop', bound⟩ := parseStringsFrom_cases nstr inside
  · simp [parseReqFrom, parseReq, number, number', few, many, fails, fails']
  by_cases finished : next = data.length
  · simp [parseReqFrom, parseReq, number, number', few, many, loop, loop', finished]
  · have trailing : data.drop next ≠ [] := by
      rw [ne_eq, List.drop_eq_nil_iff]
      omega
    simp [parseReqFrom, parseReq, number, number', few, many, loop, loop', finished, trailing]

/-- `parse_req` accepts exactly the encodings of commands with at most `kMaxArgs` strings,
returns the one command which is encoded, refuses all other payloads and never reads past
the payload. -/
theorem parseReqFrom_iff (data : Bytes) :
    (∀ cmd, parseReqFrom data data.length = .value cmd ↔
      Encodes data cmd ∧ cmd.length ≤ kMaxArgs) ∧
    ((¬∃ cmd, Encodes data cmd ∧ cmd.length ≤ kMaxArgs) →
      parseReqFrom data data.length = .refused) ∧
    parseReqFrom data data.length ≠ .outside ∧
    ∀ cmd cmd', Encodes data cmd → Encodes data cmd' → cmd = cmd' := by
  rw [parseReqFrom_eq]
  refine ⟨fun cmd => ?_, fun undecodable => ?_, ?_, fun _ _ => Encodes.unique⟩
  · rw [← parseReq_iff]
    cases parsed : parseReq data <;> simp
  · cases parsed : parseReq data with
    | none => rfl
    | some cmd => exact absurd ⟨cmd, (parseReq_iff data cmd).mp parsed⟩ undecodable
  · cases parsed : parseReq data <;> simp

end MiniRedis
