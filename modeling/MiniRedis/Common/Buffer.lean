import MiniRedis.Common.Bytes

/-!
# The byte buffer of `common.cpp`

A buffer is a heap block and two offsets into it: the data lies between them, free
space in front and behind. It is meant as a queue of bytes.
-/

namespace MiniRedis

/-- `begin` and `end` are the bounds of `block`; both are `NULL` where it is empty. -/
structure Buffer where
  block : Bytes := []
  dataBegin : Nat := 0
  dataEnd : Nat := 0
  deriving DecidableEq

namespace Buffer

def size (buf : Buffer) : Nat := buf.dataEnd - buf.dataBegin

def capacity (buf : Buffer) : Nat := buf.block.length

/-- The bytes in `[data_begin, data_end)`. -/
def data (buf : Buffer) : Bytes := (buf.block.drop buf.dataBegin).take buf.size

end Buffer

/-- The loop which doubles a capacity until it covers what is needed. -/
def growCapacity (newCapacity needed : Nat) : Nat :=
  if 0 < newCapacity ∧ newCapacity < needed then growCapacity (newCapacity * 2) needed
  else newCapacity
termination_by needed - newCapacity

/-- `realloc`; zeros stand for the unspecified bytes of a larger block. -/
def reallocBlock (block : Bytes) (newCapacity : Nat) : Bytes :=
  block.take newCapacity ++ List.replicate (newCapacity - block.length) 0

/-- `buf_append` up to the copying: shift the data or grow the block if need be. -/
def bufMakeRoom (buf : Buffer) (len : Nat) : Option Buffer :=
  if len > buf.capacity - buf.dataEnd then
    let dataSize := buf.size
    let totalFreeSpace := buf.capacity - dataSize
    if len ≤ totalFreeSpace then do
      let block ← copyAt buf.block 0 buf.data
      return { block := block, dataBegin := 0, dataEnd := dataSize }
    else
      let newCapacity := if buf.capacity = 0 then 64 else buf.capacity * 2
      let newCapacity := growCapacity newCapacity (dataSize + len)
      let freeSpaceAtFront := buf.dataBegin
      some
        { block := reallocBlock buf.block newCapacity
          dataBegin := freeSpaceAtFront
          dataEnd := freeSpaceAtFront + dataSize }
  else some buf

/-- `buf_append` of data; `none` is a write outside the block. -/
def bufAppend (buf : Buffer) (data : Bytes) : Option Buffer :=
  if data.length = 0 then some buf
  else do
    let buf ← bufMakeRoom buf data.length
    let block ← copyAt buf.block buf.dataEnd data
    return { buf with block := block, dataEnd := buf.dataEnd + data.length }

def bufConsume (buf : Buffer) (n : Nat) : Option Buffer := do
  guard (n ≤ buf.size)
  if n = buf.size then return { buf with dataBegin := 0, dataEnd := 0 }
  else return { buf with dataBegin := buf.dataBegin + n }

/-- Growing appends without data and then fills with zeros from the old end of the data on. -/
def bufResize (buf : Buffer) (newDataSize : Nat) : Option Buffer :=
  if newDataSize = buf.size then some buf
  else if newDataSize < buf.size then some { buf with dataEnd := buf.dataBegin + newDataSize }
  else do
    let growthNeeded := newDataSize - buf.size
    let writeOffset := buf.dataEnd
    let buf ← bufMakeRoom buf growthNeeded
    let block ← copyAt buf.block writeOffset (List.replicate growthNeeded 0)
    return { buf with block := block, dataEnd := buf.dataEnd + growthNeeded }

/-! ## The queue in the block -/

namespace Buffer

/-- The block holds the bytes of a queue between free space in front and behind. -/
def Holds (buf : Buffer) (queue : Bytes) : Prop :=
  ∃ front back, buf.block = front ++ (queue ++ back) ∧ buf.dataBegin = front.length ∧
    buf.dataEnd = front.length + queue.length

variable {buf : Buffer} {queue : Bytes}

theorem Holds.size (holds : buf.Holds queue) : buf.size = queue.length := by
  obtain ⟨front, back, block, first, last⟩ := holds
  rw [Buffer.size, first, last]
  omega

theorem Holds.data (holds : buf.Holds queue) : buf.data = queue := by
  rw [Buffer.data, holds.size]
  obtain ⟨front, back, block, first, last⟩ := holds
  rw [block, first, List.drop_left, List.take_left]

theorem Holds.inside (holds : buf.Holds queue) :
    buf.dataEnd = buf.dataBegin + queue.length ∧ buf.dataEnd ≤ buf.capacity := by
  obtain ⟨front, back, block, first, last⟩ := holds
  rw [capacity, block, first, last]
  simp

theorem Holds.empty : Buffer.Holds {} [] := ⟨[], [], rfl, rfl, rfl⟩

/-- Copying behind the data appends to the queue, if the block is large enough. -/
theorem Holds.copy (holds : buf.Holds queue) {data : Bytes}
    (fits : buf.dataEnd + data.length ≤ buf.capacity) :
    ∃ block, copyAt buf.block buf.dataEnd data = some block ∧
      Holds { buf with block := block, dataEnd := buf.dataEnd + data.length } (queue ++ data) := by
  obtain ⟨front, back, split, first, last⟩ := holds
  have room : data.length ≤ back.length := by
    rw [capacity, split, last] at fits
    simp only [List.length_append] at fits
    omega
  have copied := @copyAt_middle (front ++ queue) (back.drop data.length) (back.take data.length) data
    (List.length_take_of_le room)
  rw [List.take_append_drop, List.append_assoc, List.length_append, ← split, ← last] at copied
  refine ⟨_, copied, front, back.drop data.length, by simp, first, ?_⟩
  simp only [last, List.length_append]
  omega

end Buffer

/-! ## Room for an append -/

/-- Doubling stops at the first multiple by a power of two which is large enough. -/
theorem growCapacity_spec {newCapacity : Nat} (positive : 0 < newCapacity) (needed : Nat) :
    needed ≤ growCapacity newCapacity needed ∧
      (∃ k, growCapacity newCapacity needed = newCapacity * 2 ^ k) ∧
      ∀ k, needed ≤ newCapacity * 2 ^ k → growCapacity newCapacity needed ≤ newCapacity * 2 ^ k := by
  induction newCapacity using growCapacity.induct needed with
  | case1 newCapacity short ih =>
      obtain ⟨enough, ⟨k, multiple⟩, least⟩ := ih (by omega)
      rw [growCapacity, if_pos short]
      refine ⟨enough, ⟨k + 1, by rw [multiple, pow_succ']; ring⟩, fun k covers => ?_⟩
      cases k with
      | zero =>
          rw [pow_zero, Nat.mul_one] at covers
          omega
      | succ k =>
          have shifted : newCapacity * 2 ^ (k + 1) = newCapacity * 2 * 2 ^ k := by ring
          rw [shifted] at covers ⊢
          exact least k covers
  | case2 newCapacity large =>
      rw [growCapacity, if_neg large]
      refine ⟨by omega, ⟨0, by simp⟩, fun k _ => ?_⟩
      exact Nat.le_mul_of_pos_right _ (by positivity)

/-- An append reallocates, and one of the doubled capacities covers the data and the new
bytes, but not the free space in front of them as well. -/
def Buffer.Crowded (buf : Buffer) (len : Nat) : Prop :=
  buf.capacity < buf.size + len ∧ ∃ k, buf.size + len ≤ buf.capacity * 2 ^ k ∧
    buf.capacity * 2 ^ k < buf.dataBegin + buf.size + len

namespace Buffer

variable {buf : Buffer} {queue : Bytes}

/-- The capacity which a reallocation chooses. -/
theorem newCapacity_spec {capacity needed : Nat} (grows : capacity < needed) :
    needed ≤ growCapacity (if capacity = 0 then 64 else capacity * 2) needed ∧
      (0 < capacity → ∀ gap,
        (growCapacity (if capacity = 0 then 64 else capacity * 2) needed < gap + needed ↔
          ∃ k, needed ≤ capacity * 2 ^ k ∧ capacity * 2 ^ k < gap + needed)) := by
  have positive : 0 < if capacity = 0 then 64 else capacity * 2 := by
    split <;> omega
  obtain ⟨enough, ⟨j, multiple⟩, least⟩ := growCapacity_spec positive needed
  refine ⟨enough, fun nonempty gap => ?_⟩
  rw [if_neg (by omega)] at *
  constructor
  · intro short
    refine ⟨j + 1, ?_⟩
    have doubled : capacity * 2 ^ (j + 1) = capacity * 2 * 2 ^ j := by ring
    rw [doubled, ← multiple]
    exact ⟨enough, short⟩
  · rintro ⟨k, covers, short⟩
    cases k with
    | zero =>
        rw [pow_zero, Nat.mul_one] at covers
        omega
    | succ k =>
        have doubled : capacity * 2 ^ (k + 1) = capacity * 2 * 2 ^ k := by ring
        rw [doubled] at covers short
        exact (least k covers).trans_lt short

/-- Making room keeps the queue, and there is room afterwards unless the block was crowded. -/
theorem Holds.makeRoom (holds : buf.Holds queue) (len : Nat) :
    ∃ buf', bufMakeRoom buf len = some buf' ∧ buf'.Holds queue ∧
      (buf'.dataEnd + len ≤ buf'.capacity ↔ ¬buf.Crowded len) := by
  have size := holds.size
  obtain ⟨position, inside⟩ := holds.inside
  by_cases behind : len ≤ buf.capacity - buf.dataEnd
  · refine ⟨buf, by rw [bufMakeRoom, if_neg (by omega)], holds, ?_⟩
    rw [Crowded, size]
    omega
  · by_cases fragmented : len ≤ buf.capacity - queue.length
    · -- the data moves to the front of the block
      have data := holds.data
      obtain ⟨front, back, split, first, last⟩ := holds
      have prefixLength : (buf.block.take queue.length).length = queue.length := by
        rw [capacity] at inside
        exact List.length_take_of_le (by omega)
      have moved := @copyAt_middle [] (buf.block.drop queue.length) (buf.block.take queue.length)
        queue prefixLength
      rw [List.nil_append, List.nil_append, List.take_append_drop, List.length_nil] at moved
      refine ⟨⟨queue ++ buf.block.drop queue.length, 0, queue.length⟩, ?_,
        ⟨[], buf.block.drop queue.length, rfl, rfl, by simp⟩, ?_⟩
      · rw [bufMakeRoom, if_pos (by omega)]
        simp [size, fragmented, data, moved]
      · have whole : (queue ++ buf.block.drop queue.length).length = buf.capacity := by
          rw [List.length_append, List.length_drop, capacity]
          rw [capacity] at inside
          omega
        change queue.length + len ≤ (queue ++ buf.block.drop queue.length).length ↔ _
        rw [whole, Crowded, size]
        omega
    · -- the block grows, with the gap in front of the data
      have grows : buf.capacity < queue.length + len := by omega
      obtain ⟨enough, short⟩ := newCapacity_spec grows
      generalize chosen : growCapacity (if buf.capacity = 0 then 64 else buf.capacity * 2)
        (queue.length + len) = newCapacity at enough short
      have larger : buf.capacity ≤ newCapacity := by omega
      have run : bufMakeRoom buf len = some
          ⟨reallocBlock buf.block newCapacity, buf.dataBegin, buf.dataBegin + queue.length⟩ := by
        rw [bufMakeRoom, if_pos (by omega)]
        simp [size, fragmented, chosen]
      refine ⟨_, run, ?_, ?_⟩
      · obtain ⟨front, back, split, first, last⟩ := holds
        refine ⟨front, back ++ List.replicate (newCapacity - buf.block.length) 0, ?_, first, ?_⟩
        · rw [reallocBlock, List.take_of_length_le larger, split]
          simp
        · simp [first]
      · have capacity' : (reallocBlock buf.block newCapacity).length = newCapacity := by
          rw [Buffer.capacity] at larger
          simp [reallocBlock]
          omega
        simp only [Buffer.capacity, capacity']
        rw [Crowded, size]
        rcases Nat.eq_zero_or_pos buf.capacity with empty | nonempty
        · have gap : buf.dataBegin = 0 := by omega
          simp only [empty, gap, Nat.zero_mul]
          omega
        · have exactly := short nonempty buf.dataBegin
          rw [← Nat.add_assoc] at exactly
          rw [← exactly]
          omega

/-! ## The operations on the queue -/

/-- `buf_append` stays inside the block and appends, unless the block is crowded. -/
theorem Holds.append (holds : buf.Holds queue) (data : Bytes) :
    (buf.Crowded data.length → bufAppend buf data = none) ∧
      (¬buf.Crowded data.length → ∃ buf', bufAppend buf data = some buf' ∧
        buf'.Holds (queue ++ data)) := by
  by_cases nothing : data = []
  · subst nothing
    have inside := holds.inside
    refine ⟨fun crowded => ?_, fun _ => ⟨buf, rfl, by rwa [List.append_nil]⟩⟩
    rw [Crowded, holds.size, List.length_nil] at crowded
    omega
  · have positive : data.length ≠ 0 := by simpa using nothing
    obtain ⟨ready, room, holds', fits⟩ := holds.makeRoom data.length
    have run : bufAppend buf data = (do
        let block ← copyAt ready.block ready.dataEnd data
        return { ready with block := block, dataEnd := ready.dataEnd + data.length }) := by
      rw [bufAppend, if_neg positive, room]
      rfl
    rw [run]
    constructor
    · intro crowded
      have outside : ready.block.length < ready.dataEnd + data.length :=
        Nat.lt_of_not_le fun enough => fits.mp enough crowded
      rw [copyAt_outside outside]
      rfl
    · intro spacious
      obtain ⟨block, copied, appended⟩ := holds'.copy (fits.mpr spacious)
      exact ⟨_, by rw [copied]; rfl, appended⟩

/-- `buf_consume` removes from the front, and resets an emptied buffer. -/
theorem Holds.consume (holds : buf.Holds queue) {n : Nat} (within : n ≤ queue.length) :
    ∃ buf', bufConsume buf n = some buf' ∧ buf'.Holds (queue.drop n) := by
  have size := holds.size
  obtain ⟨front, back, split, first, last⟩ := holds
  by_cases all : n = queue.length
  · refine ⟨{ buf with dataBegin := 0, dataEnd := 0 }, by simp [bufConsume, size, all], ?_⟩
    exact ⟨[], buf.block, by simp [all], rfl, by simp [all]⟩
  · refine ⟨{ buf with dataBegin := buf.dataBegin + n }, by simp [bufConsume, size, within, all],
      front ++ queue.take n, back, ?_, ?_, ?_⟩
    · have whole := List.take_append_drop n queue
      calc buf.block = front ++ ((queue.take n ++ queue.drop n) ++ back) := by rw [whole, split]
        _ = front ++ queue.take n ++ (queue.drop n ++ back) := by simp only [List.append_assoc]
    · simp [first, within]
    · simp only [last, List.length_append, List.length_take, List.length_drop]
      omega

/-- A `resize` to fewer bytes drops from the back. -/
theorem Holds.shrink (holds : buf.Holds queue) {n : Nat} (within : n ≤ queue.length) :
    ∃ buf', bufResize buf n = some buf' ∧ buf'.Holds (queue.take n) := by
  have size := holds.size
  by_cases same : n = queue.length
  · exact ⟨buf, by simp [bufResize, size, same], by rwa [same, List.take_length]⟩
  · obtain ⟨front, back, split, first, last⟩ := holds
    refine ⟨{ buf with dataEnd := buf.dataBegin + n }, ?_, front, queue.drop n ++ back, ?_, first, ?_⟩
    · have fewer : n < queue.length := by omega
      simp [bufResize, size, same, fewer]
    · simp only [split]
      rw [← List.append_assoc (queue.take n), List.take_append_drop]
    · simp [first, within]

end Buffer

/-! ## Runs -/

/-- What appends which are not crowded, consumption and shrinking make of an empty buffer
and of the queue it stands for. -/
inductive BufferRun : Buffer → Bytes → Prop where
  | empty : BufferRun {} []
  | append {buf buf' : Buffer} {queue : Bytes} (before : BufferRun buf queue) (data : Bytes)
      (spacious : ¬buf.Crowded data.length) (run : bufAppend buf data = some buf') :
      BufferRun buf' (queue ++ data)
  | consume {buf buf' : Buffer} {queue : Bytes} (before : BufferRun buf queue) {n : Nat}
      (within : n ≤ buf.size) (run : bufConsume buf n = some buf') : BufferRun buf' (queue.drop n)
  | shrink {buf buf' : Buffer} {queue : Bytes} (before : BufferRun buf queue) {n : Nat}
      (within : n ≤ buf.size) (run : bufResize buf n = some buf') : BufferRun buf' (queue.take n)

theorem BufferRun.holds {buf : Buffer} {queue : Bytes} (run : BufferRun buf queue) :
    buf.Holds queue := by
  induction run with
  | empty => exact .empty
  | append before data spacious run ih =>
      obtain ⟨_, run', holds⟩ := (ih.append data).2 spacious
      rw [run] at run'
      cases run'
      exact holds
  | consume before within run ih =>
      rw [ih.size] at within
      obtain ⟨_, run', holds⟩ := ih.consume within
      rw [run] at run'
      cases run'
      exact holds
  | shrink before within run ih =>
      rw [ih.size] at within
      obtain ⟨_, run', holds⟩ := ih.shrink within
      rw [run] at run'
      cases run'
      exact holds

/-- In every state of a run without crowded appends the pointers are in order and the data
is the queue; the next operation stays inside the block exactly if it is no crowded append. -/
theorem buffer_reachable {buf : Buffer} {queue : Bytes} (run : BufferRun buf queue) :
    (buf.dataBegin ≤ buf.dataEnd ∧ buf.dataEnd ≤ buf.capacity ∧ buf.data = queue) ∧
      (∀ data : Bytes, (∃ buf', bufAppend buf data = some buf') ↔ ¬buf.Crowded data.length) ∧
      (∀ n ≤ buf.size, ∃ buf', bufConsume buf n = some buf') ∧
      ∀ n ≤ buf.size, ∃ buf', bufResize buf n = some buf' := by
  have holds := run.holds
  obtain ⟨position, inside⟩ := holds.inside
  refine ⟨⟨by omega, inside, holds.data⟩, fun data => ?_, fun n within => ?_, fun n within => ?_⟩
  · obtain ⟨overflows, appends⟩ := holds.append data
    constructor
    · rintro ⟨buf', done⟩ crowded
      rw [overflows crowded] at done
      cases done
    · intro spacious
      obtain ⟨buf', done, -⟩ := appends spacious
      exact ⟨buf', done⟩
  · rw [holds.size] at within
    obtain ⟨buf', done, -⟩ := holds.consume within
    exact ⟨buf', done⟩
  · rw [holds.size] at within
    obtain ⟨buf', done, -⟩ := holds.shrink within
    exact ⟨buf', done⟩

/-- An empty buffer has room for anything. -/
theorem not_crowded_empty (len : Nat) : ¬Buffer.Crowded {} len := by
  rintro ⟨-, k, covers, short⟩
  simp [Buffer.capacity, Buffer.size] at covers short
  omega

/-- After an append of two bytes and the consumption of one, the other is the data. -/
theorem buffer_reachable_consume : ∃ buf : Buffer, buf.data = [2] ∧ buf.dataEnd ≤ buf.capacity := by
  obtain ⟨full, appended, fullHolds⟩ :=
    (Buffer.Holds.empty.append [1, 2]).2 (not_crowded_empty _)
  have filled := BufferRun.append .empty [1, 2] (not_crowded_empty _) appended
  have one : 1 ≤ ([] ++ [1, 2] : Bytes).length := by decide
  have within : 1 ≤ full.size := by rwa [fullHolds.size]
  obtain ⟨buf, consumed, -⟩ := fullHolds.consume one
  obtain ⟨⟨-, inside, data⟩, -⟩ := buffer_reachable (.consume filled within consumed)
  exact ⟨buf, data, inside⟩

/-- Consuming a part of a block moves the beginning of the data only. -/
theorem bufConsume_part {block : Bytes} {gap : Nat} (part : gap < 64) :
    bufConsume ⟨block, 0, 64⟩ gap = some ⟨block, gap, 64⟩ := by
  simp [bufConsume, Buffer.size, part.le, part.ne]

/-- 64 bytes of which some have been consumed. -/
theorem bufferRun_gap {gap : Nat} (part : gap < 64) :
    BufferRun ⟨List.replicate 64 0, 0, 64⟩ (List.replicate 64 0) ∧
      bufConsume ⟨List.replicate 64 0, 0, 64⟩ gap = some ⟨List.replicate 64 0, gap, 64⟩ ∧
      BufferRun ⟨List.replicate 64 0, gap, 64⟩ (List.replicate (64 - gap) 0) := by
  have grown : growCapacity 64 64 = 64 := by
    rw [growCapacity]
    rfl
  have appended : bufAppend {} (List.replicate 64 0) = some ⟨List.replicate 64 0, 0, 64⟩ := by
    have room : bufMakeRoom {} 64 = some ⟨List.replicate 64 0, 0, 0⟩ := by
      simp [bufMakeRoom, Buffer.capacity, Buffer.size, reallocBlock, grown]
    rw [bufAppend, List.length_replicate, room]
    rfl
  have filled := BufferRun.append .empty (List.replicate 64 0) (not_crowded_empty _) appended
  rw [List.nil_append] at filled
  have size : Buffer.size ⟨List.replicate 64 0, 0, 64⟩ = 64 := rfl
  have consumed : bufConsume ⟨List.replicate 64 0, 0, 64⟩ gap = some ⟨List.replicate 64 0, gap, 64⟩ :=
    bufConsume_part part
  have gapped := filled.consume (part.le.trans size.ge) consumed
  rw [List.drop_replicate] at gapped
  exact ⟨filled, consumed, gapped⟩

/-- 64 bytes, 54 consumed, 118 more: the reallocated block of 128 bytes keeps the gap of 54
bytes in front, and the copy ends at 182. -/
theorem buffer_overflow : ∃ first second : Buffer,
    BufferRun first (List.replicate 64 0) ∧ bufConsume first 54 = some second ∧
      BufferRun second (List.replicate 10 0) ∧ bufAppend second (List.replicate 118 0) = none := by
  obtain ⟨filled, consumed, gapped⟩ := @bufferRun_gap 54 (by decide)
  refine ⟨_, _, filled, consumed, gapped, (gapped.holds.append _).1 ⟨by decide, 1, ?_⟩⟩
  decide

end MiniRedis
