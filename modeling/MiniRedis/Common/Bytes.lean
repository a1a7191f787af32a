import Mathlib

/-!
# Byte strings: `str_hash` and `memcmp`
-/

namespace MiniRedis

/-- The content of a `std::string`, or of a pointer and a length. -/
abbrev Bytes := List UInt8

/-- `str_hash`: the FNV loop on a `uint32_t`, widened on return. -/
def strHash (data : Bytes) : UInt64 :=
  (data.foldl (fun h byte => (h + byte.toUInt32) * 0x01000193) (0x811C9DC5 : UInt32)).toUInt64

/-- The sign of `memcmp` on the first `len` bytes, which both sides have. -/
def memcmp : Bytes → Bytes → Nat → Int
  | a :: lhs, b :: rhs, len + 1 => if a < b then -1 else if b < a then 1 else memcmp lhs rhs len
  | _, _, _ => 0

/-- `memcpy` into a block at a position; writing outside the block is an error. -/
def copyAt (block : Bytes) (pos : Nat) (data : Bytes) : Option Bytes := do
  guard (pos + data.length ≤ block.length)
  return block.take pos ++ data ++ block.drop (pos + data.length)

/-- Copying over as many bytes in the middle keeps the rest. -/
theorem copyAt_middle (front back : Bytes) {middle data : Bytes}
    (same : middle.length = data.length) :
    copyAt (front ++ (middle ++ back)) front.length data = some (front ++ (data ++ back)) := by
  have behind : (front ++ (middle ++ back)).drop (front.length + data.length) = back := by
    rw [← same, ← List.length_append, ← List.append_assoc]
    exact List.drop_left
  rw [copyAt, behind, List.take_left]
  simp [same]

theorem copyAt_outside {block data : Bytes} {pos : Nat} (outside : block.length < pos + data.length) :
    copyAt block pos data = none := by
  have overrun : ¬pos + data.length ≤ block.length := by omega
  simp [copyAt, overrun]

theorem copyAt_eq_some_iff {block data block' : Bytes} {pos : Nat} :
    copyAt block pos data = some block' ↔ pos + data.length ≤ block.length ∧
      block.take pos ++ data ++ block.drop (pos + data.length) = block' := by
  by_cases inside : pos + data.length ≤ block.length
  · simp [copyAt, inside]
  · simp [copyAt, inside]

/-- Bytes before the position stay. -/
theorem copyAt_before {block data block' : Bytes} {pos i : Nat}
    (run : copyAt block pos data = some block') (before : i < pos) : block'[i]? = block[i]? := by
  obtain ⟨inside, rfl⟩ := copyAt_eq_some_iff.mp run
  rw [List.append_assoc, List.getElem?_append_left (by rw [List.length_take]; omega),
    List.getElem?_take_of_lt before]

/-- Bytes as numbers, whose lists Mathlib orders lexicographically. -/
def codes (bytes : Bytes) : List Nat := bytes.map UInt8.toNat

theorem codes_injective : Function.Injective codes :=
  List.map_injective_iff.mpr fun _ _ same => UInt8.toNat_inj.mp same

@[simp] theorem codes_inj {lhs rhs : Bytes} : codes lhs = codes rhs ↔ lhs = rhs :=
  codes_injective.eq_iff

/-- Comparing the common prefix and then the lengths is the lexicographic order. -/
theorem memcmp_spec (lhs rhs : Bytes) :
    (memcmp lhs rhs (min lhs.length rhs.length) < 0 ∨
      memcmp lhs rhs (min lhs.length rhs.length) = 0 ∧ lhs.length < rhs.length ↔
        codes lhs < codes rhs) ∧
    (memcmp lhs rhs (min lhs.length rhs.length) = 0 ∧ lhs.length = rhs.length ↔ lhs = rhs) := by
  induction lhs generalizing rhs with
  | nil =>
      cases rhs with
      | nil => simp [memcmp, codes]
      | cons b rhs => simp [memcmp, codes]
  | cons a lhs ih =>
      cases rhs with
      | nil => simp [memcmp, codes]
      | cons b rhs =>
          obtain ⟨less, equal⟩ := ih rhs
          have step : min (a :: lhs).length (b :: rhs).length =
              min lhs.length rhs.length + 1 := by simp
          have lexicographic : codes (a :: lhs) < codes (b :: rhs) ↔
              a < b ∨ a = b ∧ codes lhs < codes rhs := by
            simp [codes, List.cons_lt_cons_iff, UInt8.lt_iff_toNat_lt, UInt8.toNat_inj]
          rw [step, memcmp, lexicographic, List.cons.injEq]
          rcases lt_trichotomy a.toNat b.toNat with lower | same | upper
          · have order : a < b := lower
            have differs : a ≠ b := fun same => by simp [same] at lower
            simp [order, differs]
          · rw [UInt8.toNat_inj] at same
            subst same
            simp [less, equal]
          · have order : b < a := upper
            have notLess : ¬a < b := fun order' => absurd (lt_trans upper order') (lt_irrefl _)
            have differs : a ≠ b := fun same => by simp [same] at upper
            simp [order, notLess, differs]

end MiniRedis
