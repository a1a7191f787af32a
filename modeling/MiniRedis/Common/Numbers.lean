import MiniRedis.Common.Bytes
import MiniRedis.Library.Binary64

/-!
# `str2int` and `str2dbl`

`strtoll` is written out; `strtod` is a parameter, of which nothing is assumed. Both
read the C string, which ends at the first NUL byte or at the end of the data.
-/

namespace MiniRedis

open Binary64

/-- `s.c_str()` as far as a C function reads it. -/
def cStr (s : Bytes) : Bytes := s.takeWhile fun byte => byte != 0

/-- `isspace` in the C locale. -/
def isSpace (byte : UInt8) : Bool := byte == 32 || (9 ≤ byte && byte ≤ 13)

def isDigit (byte : UInt8) : Bool := 48 ≤ byte && byte ≤ 57

def int64Max : Int := 2 ^ 63 - 1

def int64Min : Int := -2 ^ 63

/-- Values out of range are clamped. -/
def clampInt64 (value : Int) : Int := max int64Min (min value int64Max)

/-- The length of an optional sign. -/
def signLength (s : Bytes) : Nat := if s.head? = some 45 ∨ s.head? = some 43 then 1 else 0

/-- The value of a run of decimal digits. -/
def digitsValue (negative : Bool) (digits : Bytes) : Int :=
  let magnitude : Nat := digits.foldl (fun value digit => value * 10 + (digit.toNat - 48)) 0
  if negative then -(magnitude : Int) else magnitude

/-- `strtoll` to base ten: the value and the number of bytes consumed, zero if there
are no digits. -/
def strtoll (s : Bytes) : Int × Nat :=
  let blanks := s.takeWhile isSpace
  let rest := s.drop blanks.length
  let digits := (rest.drop (signLength rest)).takeWhile isDigit
  if digits.isEmpty then (0, 0)
  else
    (clampInt64 (digitsValue (rest.head? == some 45) digits),
      blanks.length + signLength rest + digits.length)

/-- The whole string has to be consumed. -/
def str2int (s : Bytes) : Option Int :=
  let (value, used) := strtoll (cStr s)
  if used = s.length then some value else none

/-- `strtod` returns the value and the number of bytes consumed. -/
def str2dbl (strtod : Bytes → Double × Nat) (s : Bytes) : Option Number :=
  let (value, used) := strtod (cStr s)
  if used = s.length then
    if notNan : value.isNan = false then some ⟨value, notNan⟩ else none
  else none

example : str2int [45, 49, 50] = some (-12) ∧ str2int [49, 32] = none := by decide

theorem clampInt64_bounds (value : Int) :
    int64Min ≤ clampInt64 value ∧ clampInt64 value ≤ int64Max := by
  unfold clampInt64 int64Min int64Max
  omega

/-- An accepted integer is an `int64_t`. -/
theorem str2int_bounds {s : Bytes} {value : Int} (accepted : str2int s = some value) :
    int64Min ≤ value ∧ value ≤ int64Max := by
  simp only [str2int] at accepted
  split at accepted
  next =>
    rw [Option.some.injEq] at accepted
    subst accepted
    simp only [strtoll]
    split
    · simp [int64Min, int64Max]
    · exact clampInt64_bounds _
  next => cases accepted

end MiniRedis
