import Mathlib

/-!
# Comparing IEEE 754 doubles

A double is its bit pattern: one sign bit, eleven exponent bits and 52 fraction
bits. Read as a natural number, exponent and fraction order the magnitudes, so all
doubles which are numbers line up on the integers, the two zeros at the same place.
-/

namespace Binary64

structure Double where
  bits : UInt64
  deriving DecidableEq

namespace Double

/-- The pattern without its sign bit. -/
def magnitude (d : Double) : Nat := d.bits.toNat % 2 ^ 63

/-- All exponent bits are set and the fraction is not zero. -/
def isNan (d : Double) : Bool := decide (0x7FF0000000000000 < d.magnitude)

/-- The place of a number among all numbers; `-0.0` and `0.0` share theirs. -/
def rank (d : Double) : Int :=
  if d.bits.toNat < 2 ^ 63 then d.magnitude else -d.magnitude

/-- `a < b`, false if either is not a number. -/
def lt (a b : Double) : Bool := !a.isNan && !b.isNan && decide (a.rank < b.rank)

/-- `a == b`, false if either is not a number. -/
def eq (a b : Double) : Bool := !a.isNan && !b.isNan && decide (a.rank = b.rank)

example : lt ⟨0x8000000000000000⟩ ⟨0⟩ = false ∧ eq ⟨0x8000000000000000⟩ ⟨0⟩ = true ∧
    lt ⟨0xBFF0000000000000⟩ ⟨0x3FF0000000000000⟩ = true := by decide

end Double

/-- A double which is a number. -/
structure Number where
  double : Double
  notNan : double.isNan = false
  deriving DecidableEq

namespace Number

def rank (a : Number) : Int := a.double.rank

@[simp] theorem lt_iff (a b : Number) : a.double.lt b.double = true ↔ a.rank < b.rank := by
  simp [Double.lt, a.notNan, b.notNan, rank]

@[simp] theorem eq_iff (a b : Number) : a.double.eq b.double = true ↔ a.rank = b.rank := by
  simp [Double.eq, a.notNan, b.notNan, rank]

end Number

end Binary64
