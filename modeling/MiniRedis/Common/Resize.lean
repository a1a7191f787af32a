import MiniRedis.Common.Buffer

/-!
# Growing a buffer (`common.hpp`)

`resize` remembers the end of the data as an offset into the block before `buf_append` makes
room. The offset is stale once the data has been moved to the front.
-/

namespace MiniRedis

theorem length_copyAt {block block' data : Bytes} {pos : Nat}
    (run : copyAt block pos data = some block') : block'.length = block.length := by
  obtain ⟨inside, rfl⟩ := copyAt_eq_some_iff.mp run
  simp
  omega

namespace Buffer

/-- An append moves the data to the front: behind it there is too little space, in the whole
block enough. -/
def Shifts (buf : Buffer) (len : Nat) : Prop :=
  buf.capacity - buf.dataEnd < len ∧ len ≤ buf.capacity - buf.size

/-- Growing needs no move to the front, and no reallocation which leaves too little room. -/
def ResizeFits (buf : Buffer) (n : Nat) : Prop :=
  buf.size < n → ¬buf.Shifts (n - buf.size) ∧ ¬buf.Crowded (n - buf.size)

variable {buf buf' : Buffer} {queue : Bytes}

/-- Where the data ends after room has been made. -/
theorem Holds.makeRoom_end (holds : buf.Holds queue) {len : Nat}
    (run : bufMakeRoom buf len = some buf') :
    (buf.Shifts len → buf'.capacity = buf.capacity) ∧ (¬buf.Shifts len → buf'.dataEnd = buf.dataEnd) := by
  obtain ⟨position, -⟩ := holds.inside
  rw [bufMakeRoom] at run
  split at run
  next behind =>
    simp only at run
    split at run
    next fragmented =>
      obtain ⟨block, moved, run⟩ := Option.bind_eq_some_iff.mp run
      cases run
      exact ⟨fun _ => length_copyAt moved, fun stays => absurd ⟨behind, fragmented⟩ stays⟩
    next full =>
      cases run
      refine ⟨fun shifts => absurd shifts.2 full, fun _ => ?_⟩
      simp only [holds.size, position]
  next room =>
    cases run
    exact ⟨fun shifts => absurd shifts.1 room, fun _ => rfl⟩

/-- A `resize` to more bytes appends zeros, or writes outside the block. -/
theorem Holds.grow (holds : buf.Holds queue) {n : Nat} (more : queue.length < n) :
    (buf.ResizeFits n → ∃ buf', bufResize buf n = some buf' ∧
        buf'.Holds (queue ++ List.replicate (n - queue.length) 0)) ∧
      (¬buf.ResizeFits n → bufResize buf n = none) := by
  have size := holds.size
  obtain ⟨ready, room, holds', fits⟩ := holds.makeRoom (n - queue.length)
  obtain ⟨shifted, stayed⟩ := holds.makeRoom_end room
  have run : bufResize buf n = (do
      let block ← copyAt ready.block buf.dataEnd (List.replicate (n - queue.length) 0)
      return { ready with block := block, dataEnd := ready.dataEnd + (n - queue.length) }) := by
    rw [bufResize, size, if_neg (by omega), if_neg (by omega)]
    simp only [room, Option.bind_eq_bind, Option.bind_some]
  have zeros : (List.replicate (n - queue.length) (0 : UInt8)).length = n - queue.length :=
    List.length_replicate
  rw [ResizeFits, size]
  rw [run]
  by_cases shifts : buf.Shifts (n - queue.length)
  · -- the old offset plus the growth lies behind the end of the block
    constructor
    · intro resizes
      exact absurd shifts (resizes more).1
    · intro _
      have outside : ready.block.length < buf.dataEnd + (n - queue.length) := by
        have same : ready.block.length = buf.capacity := shifted shifts
        have behind := shifts.1
        omega
      rw [copyAt_outside (by rwa [zeros])]
      rfl
  · have same := stayed shifts
    constructor
    · intro resizes
      have inside := fits.mpr (resizes more).2
      obtain ⟨block, copied, grown⟩ := holds'.copy (by rwa [zeros])
      rw [zeros] at grown
      exact ⟨_, by rw [← same, copied]; rfl, grown⟩
    · intro stale
      have crowded : buf.Crowded (n - queue.length) := by
        by_contra spacious
        exact stale fun _ => ⟨shifts, spacious⟩
      have outside : ready.block.length < buf.dataEnd + (n - queue.length) := by
        rw [← same]
        exact Nat.lt_of_not_le fun enough => fits.mp enough crowded
      rw [copyAt_outside (by rwa [zeros])]
      rfl

end Buffer

/-- In every state of a run `resize` writes inside the block, and leaves the old bytes and then
zeros, exactly if it need not move the data to the front and the block is not crowded. -/
theorem resize_iff {buf : Buffer} {queue : Bytes} (run : BufferRun buf queue) (n : Nat) :
    (∃ buf', bufResize buf n = some buf' ∧ buf'.dataBegin ≤ buf'.dataEnd ∧
        buf'.dataEnd ≤ buf'.capacity ∧ buf'.size = n ∧
        buf'.data = buf.data.take n ++ List.replicate (n - buf.size) 0) ↔ buf.ResizeFits n := by
  have holds := run.holds
  have size := holds.size
  rw [holds.data, size]
  by_cases within : n ≤ queue.length
  · obtain ⟨buf', shrinks, holds'⟩ := holds.shrink within
    obtain ⟨position, inside⟩ := holds'.inside
    apply iff_of_true
    · have length : (queue.take n).length = n := List.length_take_of_le within
      refine ⟨buf', shrinks, by omega, inside, by rw [holds'.size, length], ?_⟩
      rw [holds'.data, Nat.sub_eq_zero_of_le within, List.replicate_zero, List.append_nil]
    · intro more
      omega
  · have more := Nat.lt_of_not_le within
    obtain ⟨grows, overflows⟩ := holds.grow more
    constructor
    · rintro ⟨buf', resized, -⟩
      by_contra stale
      rw [overflows stale] at resized
      cases resized
    · intro fits
      obtain ⟨buf', resized, holds'⟩ := grows fits
      obtain ⟨position, inside⟩ := holds'.inside
      refine ⟨buf', resized, by omega, inside, ?_, ?_⟩
      · rw [holds'.size]
        simp
        omega
      · rw [holds'.data, List.take_of_length_le more.le]

/-- Behind a consumed byte the buffer grows in place: the old byte stays, and zeros follow. -/
theorem resize_iff_consumed : ∃ buf buf' : Buffer, BufferRun buf [2] ∧ buf.dataBegin = 1 ∧
    bufResize buf 4 = some buf' ∧ buf'.data = [2, 0, 0, 0] := by
  have grown : growCapacity 64 2 = 64 := by
    rw [growCapacity]
    rfl
  have appended : bufAppend {} [1, 2] = some ⟨[1, 2] ++ List.replicate 62 0, 0, 2⟩ := by
    have room : bufMakeRoom {} 2 = some ⟨List.replicate 64 0, 0, 0⟩ := by
      simp [bufMakeRoom, Buffer.capacity, Buffer.size, reallocBlock, grown]
    rw [bufAppend, List.length_cons, List.length_singleton, room]
    rfl
  have consumed : bufConsume ⟨[1, 2] ++ List.replicate 62 0, 0, 2⟩ 1 =
      some ⟨[1, 2] ++ List.replicate 62 0, 1, 2⟩ := rfl
  have run := (BufferRun.append .empty [1, 2] (not_crowded_empty _) appended).consume (by decide)
    consumed
  have fits : Buffer.ResizeFits ⟨[1, 2] ++ List.replicate 62 0, 1, 2⟩ 4 := fun _ =>
    ⟨fun shifts => absurd shifts.1 (by decide), fun crowded => absurd crowded.1 (by decide)⟩
  obtain ⟨buf', resized, -, -, -, data⟩ := (resize_iff run 4).mpr fits
  exact ⟨_, buf', run, rfl, resized, data⟩

/-- 64 bytes, 60 consumed, and a `resize` to 10: the six bytes are set behind the end. -/
theorem resize_overflow : ∃ buf : Buffer, BufferRun buf (List.replicate 4 0) ∧
    buf.dataBegin = 60 ∧ buf.capacity = 64 ∧ bufResize buf 10 = none := by
  obtain ⟨-, -, gapped⟩ := @bufferRun_gap 60 (by decide)
  refine ⟨_, gapped, rfl, rfl, (gapped.holds.grow (by decide)).2 fun fits => ?_⟩
  have shifts : Buffer.Shifts ⟨List.replicate 64 0, 60, 64⟩ (10 - 4) := ⟨by decide, by decide⟩
  exact (fits (by decide)).1 shifts

end MiniRedis
