import Mathlib

/-!
# Fixed-width little-endian numbers
-/

namespace LittleEndian

/-- The low `width` bytes of a number, least significant first. -/
def encode : Nat → Nat → List UInt8
  | 0, _ => []
  | width + 1, n => UInt8.ofNat n :: encode width (n / 256)

/-- The number which the bytes stand for. -/
def decode : List UInt8 → Nat
  | [] => 0
  | byte :: rest => byte.toNat + 256 * decode rest

@[simp] theorem length_encode (width n : Nat) : (encode width n).length = width := by
  induction width generalizing n with
  | zero => rfl
  | succ width ih => simp [encode, ih]

/-- Encoding drops what does not fit. -/
theorem decode_encode (width n : Nat) : decode (encode width n) = n % 256 ^ width := by
  induction width generalizing n with
  | zero => simp [encode, decode, Nat.mod_one]
  | succ width ih =>
      have low : (UInt8.ofNat n).toNat = n % 256 := UInt8.toNat_ofNat'
      have digits : n % 256 ^ (width + 1) = n % 256 + 256 * (n / 256 % 256 ^ width) := by
        rw [Nat.pow_succ', Nat.mod_mul]
      rw [encode, decode, ih, low, digits]

/-- It fits the width. -/
theorem decode_lt (bytes : List UInt8) : decode bytes < 256 ^ bytes.length := by
  induction bytes with
  | nil => simp [decode]
  | cons byte rest ih =>
      have bound := byte.toNat_lt
      rw [decode, List.length_cons, Nat.pow_succ]
      omega

/-- Zeros behind the most significant byte change nothing. -/
theorem decode_append_zeros (bytes : List UInt8) (count : Nat) :
    decode (bytes ++ List.replicate count 0) = decode bytes := by
  induction bytes with
  | nil =>
      induction count with
      | zero => rfl
      | succ count ih =>
          rw [List.nil_append] at ih ⊢
          rw [List.replicate_succ, decode.eq_def]
          simp only [ih]
          rfl
  | cons byte rest ih => rw [List.cons_append, decode, decode, ih]

/-- Every string of bytes is the encoding of its number. -/
theorem encode_decode (bytes : List UInt8) : encode bytes.length (decode bytes) = bytes := by
  induction bytes with
  | nil => rfl
  | cons byte rest ih =>
      have bound := byte.toNat_lt
      have quotient : (byte.toNat + 256 * decode rest) / 256 = decode rest := by omega
      have low : UInt8.ofNat (byte.toNat + 256 * decode rest) = byte := by
        apply UInt8.toNat_inj.mp
        rw [UInt8.toNat_ofNat']
        omega
      rw [decode, List.length_cons, encode, quotient, ih, low]

end LittleEndian
