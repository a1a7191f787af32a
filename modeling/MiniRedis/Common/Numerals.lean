import MiniRedis.Common.Numbers

/-!
# What `str2int` and `str2dbl` accept

A numeral is described without `strtoll`: blanks, a sign and decimal digits up to the end.
-/

namespace MiniRedis

open Binary64

/-- The number which decimal digits stand for. -/
def decimalValue (digits : Bytes) : Nat :=
  Nat.ofDigits 10 (digits.reverse.map fun digit => digit.toNat - 48)

/-- The spellings of an optional sign, and whether it negates. -/
inductive Sign : Bytes → Bool → Prop
  | none : Sign [] false
  | plus : Sign [43] false
  | minus : Sign [45] true

/-- A decimal numeral and its value. -/
inductive Numeral : Bytes → Int → Prop
  | intro {blanks sign digits : Bytes} {negative : Bool}
      (spaces : ∀ byte ∈ blanks, isSpace byte = true) (signed : Sign sign negative)
      (nonempty : digits ≠ []) (decimal : ∀ byte ∈ digits, isDigit byte = true) :
      Numeral (blanks ++ (sign ++ digits))
        (if negative then -(decimalValue digits : Int) else decimalValue digits)

/-- A numeral whose value is an `int64_t`. -/
structure Int64Numeral (s : Bytes) (value : Int) : Prop where
  numeral : Numeral s value
  lower : int64Min ≤ value
  upper : value ≤ int64Max

variable {s blanks sign digits : Bytes} {negative : Bool} {value value' : Int}

/-! ## Digits, signs and blanks -/

/-- The loop of `strtoll` computes the decimal value. -/
theorem foldl_digits (digits : Bytes) :
    digits.foldl (fun value digit => value * 10 + (digit.toNat - 48)) 0 = decimalValue digits := by
  induction digits using List.reverseRecOn with
  | nil => rfl
  | append_singleton front last ih =>
      rw [List.foldl_append, ih, List.foldl_cons, List.foldl_nil, decimalValue, decimalValue,
        List.reverse_append, List.reverse_singleton, List.singleton_append, List.map_cons,
        Nat.ofDigits_cons]
      ring

theorem digitsValue_eq (negative : Bool) (digits : Bytes) : digitsValue negative digits =
    if negative then -(decimalValue digits : Int) else decimalValue digits := by
  simp only [digitsValue, foldl_digits]

/-- The characters of a numeral are told apart by their codes. -/
theorem digit_ne_zero {byte : UInt8} (digit : isDigit byte = true) : byte ≠ 0 := by
  rintro rfl
  cases digit

theorem digit_not_sign {byte : UInt8} (digit : isDigit byte = true) : byte ≠ 45 ∧ byte ≠ 43 := by
  constructor <;> rintro rfl <;> cases digit

theorem digit_not_space {byte : UInt8} (digit : isDigit byte = true) : isSpace byte = false := by
  have digit' : 48 ≤ byte.toNat := by
    simp only [isDigit, Bool.and_eq_true, decide_eq_true_eq] at digit
    exact digit.1
  have above : ¬byte ≤ 13 := fun within => by
    have within' : byte.toNat ≤ 13 := within
    omega
  have blank : byte ≠ 32 := by
    rintro rfl
    cases digit
  simp [isSpace, above, blank]

theorem space_ne_zero {byte : UInt8} (space : isSpace byte = true) : byte ≠ 0 := by
  rintro rfl
  cases space

theorem Sign.ne_zero (signed : Sign sign negative) : ∀ byte ∈ sign, byte ≠ 0 := by
  cases signed <;> simp

/-- The parts of a numeral as `strtoll` finds them. -/
structure Scanned (blanks sign digits : Bytes) (negative : Bool) : Prop where
  spaces : (blanks ++ (sign ++ digits)).takeWhile isSpace = blanks
  signed : signLength (sign ++ digits) = sign.length
  negates : ((sign ++ digits).head? == some 45) = negative
  decimal : digits.takeWhile isDigit = digits

/-- What `strtoll` scans: blanks, a sign and digits. -/
theorem scanned (spaces : ∀ byte ∈ blanks, isSpace byte = true) (signed : Sign sign negative)
    (nonempty : digits ≠ []) (decimal : ∀ byte ∈ digits, isDigit byte = true) :
    Scanned blanks sign digits negative := by
  obtain ⟨first, rest, rfl⟩ := List.exists_cons_of_ne_nil nonempty
  have digit := decimal first List.mem_cons_self
  obtain ⟨minus, plus⟩ := digit_not_sign digit
  constructor
  · rw [List.takeWhile_append_of_pos spaces]
    cases signed with
    | none => simp [digit_not_space digit]
    | plus => simp [isSpace]
    | minus => simp [isSpace]
  · cases signed <;> simp [signLength, minus, plus]
  · cases signed <;> simp [minus]
  · exact List.takeWhile_eq_self_iff.mpr decimal

/-- A numeral has one value. -/
theorem Numeral.unique (first : Numeral s value) (second : Numeral s value') : value = value' := by
  cases first with
  | @intro blanks sign digits negative spaces signed nonempty decimal =>
  generalize whole : blanks ++ (sign ++ digits) = s at second
  cases second with
  | @intro blanks' sign' digits' negative' spaces' signed' nonempty' decimal' =>
  have scan := scanned spaces signed nonempty decimal
  have scan' := scanned spaces' signed' nonempty' decimal'
  have sameBlanks : blanks = blanks' := by rw [← scan.spaces, whole, scan'.spaces]
  subst sameBlanks
  have rest : sign ++ digits = sign' ++ digits' := List.append_cancel_left whole
  have sameSign : sign.length = sign'.length := by rw [← scan.signed, rest, scan'.signed]
  have sameDigits : digits = digits' := (List.append_inj rest sameSign).2
  have negates : negative = negative' := by rw [← scan.negates, rest, scan'.negates]
  rw [sameDigits, negates]

/-! ## `str2int` -/

/-- A string without a zero byte is the C string of it. -/
theorem cStr_eq_self (nonzero : ∀ byte ∈ s, byte ≠ 0) : cStr s = s := by
  rw [cStr, List.takeWhile_eq_self_iff]
  simpa using nonzero

theorem Numeral.ne_zero (numeral : Numeral s value) : ∀ byte ∈ s, byte ≠ 0 := by
  cases numeral with
  | intro spaces signed nonempty decimal =>
      intro byte mem
      obtain mem | mem := List.mem_append.mp mem
      · exact space_ne_zero (spaces byte mem)
      obtain mem | mem := List.mem_append.mp mem
      · exact signed.ne_zero byte mem
      · exact digit_ne_zero (decimal byte mem)

/-- A numeral is accepted, clamped to an `int64_t`. -/
theorem Numeral.str2int (numeral : Numeral s value) : str2int s = some (clampInt64 value) := by
  have whole := cStr_eq_self numeral.ne_zero
  cases numeral with
  | @intro blanks sign digits negative spaces signed nonempty decimal =>
      have scan := scanned spaces signed nonempty decimal
      have run : strtoll (blanks ++ (sign ++ digits)) =
          (clampInt64 (digitsValue negative digits), blanks.length + sign.length + digits.length) := by
        rw [strtoll]
        simp only [scan.spaces, List.drop_left, scan.signed, scan.negates, scan.decimal]
        rw [if_neg (by simpa using nonempty)]
      rw [MiniRedis.str2int, whole, run]
      simp only [List.length_append, Nat.add_assoc, if_true, digitsValue_eq]

/-- At most one character is taken as a sign. -/
theorem sign_signLength (s : Bytes) : Sign (s.take (signLength s)) (s.head? == some 45) := by
  cases s with
  | nil => exact .none
  | cons byte rest =>
      by_cases minus : byte = 45
      · subst minus
        exact .minus
      by_cases plus : byte = 43
      · subst plus
        exact .plus
      · have other : (byte == 45) = false := by simpa using minus
        simpa [signLength, minus, plus, other] using Sign.none

theorem signLength_le (s : Bytes) : signLength s ≤ s.length := by
  cases s with
  | nil => simp [signLength]
  | cons => simp [signLength]; split <;> omega

/-- Without a conversion nothing is consumed, otherwise a numeral is. -/
theorem strtoll_cases (c : Bytes) : strtoll c = (0, 0) ∨
    ∃ front rest exact, c = front ++ rest ∧ Numeral front exact ∧
      strtoll c = (clampInt64 exact, front.length) := by
  let blanks := c.takeWhile isSpace
  let behind := c.drop blanks.length
  let digits := (behind.drop (signLength behind)).takeWhile isDigit
  let negative := behind.head? == some 45
  by_cases nonempty : digits = []
  · left
    have empty : digits.isEmpty = true := List.isEmpty_iff.mpr nonempty
    exact if_pos empty
  · right
    have convert : strtoll c = (clampInt64 (digitsValue negative digits),
        blanks.length + signLength behind + digits.length) :=
      if_neg (by rwa [List.isEmpty_iff])
    have decimal : ∀ byte ∈ digits, isDigit byte = true := fun byte => List.mem_takeWhile_imp
    have spaces : ∀ byte ∈ blanks, isSpace byte = true := fun byte => List.mem_takeWhile_imp
    have split : blanks ++ behind = c := List.prefix_iff_eq_append.mp (List.takeWhile_prefix _)
    have signed : behind.take (signLength behind) ++ behind.drop (signLength behind) = behind :=
      List.take_append_drop ..
    have further : digits ++ (behind.drop (signLength behind)).drop digits.length =
        behind.drop (signLength behind) := List.prefix_iff_eq_append.mp (List.takeWhile_prefix _)
    refine ⟨blanks ++ (behind.take (signLength behind) ++ digits),
      (behind.drop (signLength behind)).drop digits.length, _, ?_,
      .intro spaces (sign_signLength behind) nonempty decimal, ?_⟩
    · rw [List.append_assoc, List.append_assoc, further, signed, split]
    · rw [convert, digitsValue_eq, List.length_append, List.length_append, List.length_take,
        Nat.min_eq_left (signLength_le _), Nat.add_assoc]

/-- What is accepted is empty or a numeral. -/
theorem numeral_of_str2int {value : Int} (accepted : str2int s = some value) :
    s = [] ∧ value = 0 ∨ ∃ exact, Numeral s exact ∧ value = clampInt64 exact := by
  have before : cStr s <+: s := List.takeWhile_prefix _
  obtain unconverted | ⟨front, rest, exact, split, numeral, converted⟩ := strtoll_cases (cStr s)
  · rw [MiniRedis.str2int, unconverted] at accepted
    simp only at accepted
    split_ifs at accepted with used
    cases accepted
    exact .inl ⟨List.eq_nil_of_length_eq_zero used.symm, rfl⟩
  · rw [MiniRedis.str2int, converted] at accepted
    simp only at accepted
    split_ifs at accepted with used
    cases accepted
    have whole : front = s :=
      ((split ▸ List.prefix_append front rest).trans before).eq_of_length used
    exact .inr ⟨exact, whole ▸ numeral, rfl⟩

/-- `str2int` accepts the empty string as zero and clamps the value of a numeral. -/
theorem str2int_iff {value : Int} : str2int s = some value ↔
    s = [] ∧ value = 0 ∨ ∃ exact, Numeral s exact ∧ value = clampInt64 exact := by
  constructor
  · exact numeral_of_str2int
  · rintro (⟨rfl, rfl⟩ | ⟨exact, numeral, rfl⟩)
    · decide
    · exact numeral.str2int

/-- A value in range is not clamped. -/
theorem clampInt64_eq_self (lower : int64Min ≤ value) (upper : value ≤ int64Max) :
    clampInt64 value = value := by
  rw [clampInt64, min_eq_left upper, max_eq_right lower]

/-- The strings which `str2int` treats as they should be: not empty, and in range if they
are numerals. -/
structure ReadsAsWritten (s : Bytes) : Prop where
  nonempty : s ≠ []
  range : ∀ value, Numeral s value → int64Min ≤ value ∧ value ≤ int64Max

/-- `str2int` accepts a string as it stands. -/
theorem ReadsAsWritten.str2int_iff (fits : ReadsAsWritten s) {value : Int} :
    str2int s = some value ↔ Int64Numeral s value := by
  rw [MiniRedis.str2int_iff]
  constructor
  · rintro (⟨empty, -⟩ | ⟨exact, numeral, rfl⟩)
    · exact absurd empty fits.nonempty
    · obtain ⟨lower, upper⟩ := fits.range exact numeral
      rw [clampInt64_eq_self lower upper]
      exact ⟨numeral, lower, upper⟩
  · intro int
    exact .inr ⟨value, int.numeral, (clampInt64_eq_self int.lower int.upper).symm⟩

theorem Numeral.ne_nil (numeral : Numeral s value) : s ≠ [] := by
  cases numeral with
  | intro spaces signed nonempty decimal => simp [nonempty]

/-- A numeral in range is read as it is written. -/
theorem Int64Numeral.fits (int : Int64Numeral s value) : ReadsAsWritten s where
  nonempty := int.numeral.ne_nil
  range other numeral := by
    rw [numeral.unique int.numeral]
    exact ⟨int.lower, int.upper⟩

/-- Digits without a sign. -/
theorem int64Numeral_of_digits (nonempty : digits ≠ []) (decimal : digits.all isDigit = true)
    (upper : decimalValue digits < 2 ^ 63) : Int64Numeral digits (decimalValue digits) where
  numeral := @Numeral.intro [] [] digits false (by simp) .none nonempty (List.all_eq_true.mp decimal)
  lower := by
    rw [int64Min]
    omega
  upper := by
    rw [int64Max]
    omega

/-- The other strings are accepted, though they are no numeral in range. -/
theorem str2int_of_not_fits (misfit : ¬ReadsAsWritten s) :
    (∃ value, str2int s = some value) ∧ ¬∃ value, Int64Numeral s value := by
  refine ⟨?_, fun ⟨value, int⟩ => misfit int.fits⟩
  by_contra refused
  refine misfit ⟨fun empty => refused ?_, fun value numeral => absurd ?_ refused⟩
  · exact ⟨0, MiniRedis.str2int_iff.mpr (.inl ⟨empty, rfl⟩)⟩
  · exact ⟨_, numeral.str2int⟩

/-- Neither empty nor a numeral. -/
structure NotNumeral (s : Bytes) : Prop where
  nonempty : s ≠ []
  unnumeral : ∀ value, ¬Numeral s value

/-- `str2int` refuses what is not empty and no numeral. -/
theorem str2int_eq_none_iff (s : Bytes) : str2int s = none ↔ NotNumeral s := by
  constructor
  · intro refused
    constructor
    · rintro rfl
      cases refused
    · intro value numeral
      rw [numeral.str2int] at refused
      cases refused
  · intro notNumeral
    rw [Option.eq_none_iff_forall_not_mem]
    intro value accepted
    obtain ⟨empty, -⟩ | ⟨exact, numeral, -⟩ := numeral_of_str2int accepted
    · exact notNumeral.nonempty empty
    · exact notNumeral.unnumeral exact numeral

/-! ## `str2dbl` -/

/-- What the C standard says of `strtod`: no more is consumed than there is, and without a
conversion the value is zero. -/
structure StrtodStandard (strtod : Bytes → Double × Nat) : Prop where
  within : ∀ s, (strtod s).2 ≤ s.length
  unconverted : ∀ s, (strtod s).2 = 0 → (strtod s).1 = ⟨0⟩

/-- `str2dbl` accepts only what `strtod` has converted, except for the empty string. -/
theorem str2dbl_converted_iff {strtod : Bytes → Double × Nat} (standard : StrtodStandard strtod)
    (s : Bytes) : (∀ score, str2dbl strtod s = some score → 0 < (strtod (cStr s)).2) ↔ s ≠ [] := by
  constructor
  · rintro converted rfl
    have nothing : (strtod []).2 = 0 := Nat.le_zero.mp (standard.within [])
    have zero := standard.unconverted [] nothing
    have notNan : (strtod []).1.isNan = false := by
      rw [zero]
      decide
    have accepted : str2dbl strtod [] = some ⟨(strtod []).1, notNan⟩ := by
      simp [str2dbl, cStr, nothing, notNan]
    exact (converted _ accepted).ne' nothing
  · intro nonempty score accepted
    simp only [str2dbl] at accepted
    split_ifs at accepted with used notNan
    rw [used]
    exact List.length_pos_iff.mpr nonempty

/-- A score which is not fully converted, or is no number. -/
def RefusedScore (strtod : Bytes → Double × Nat) (s : Bytes) : Prop :=
  (strtod (cStr s)).2 ≠ s.length ∨ (strtod (cStr s)).1.isNan = true

/-- `str2dbl` refuses what `strtod` leaves a rest of, and NaN. -/
theorem str2dbl_eq_none_iff (strtod : Bytes → Double × Nat) (s : Bytes) :
    str2dbl strtod s = none ↔ RefusedScore strtod s := by
  simp only [str2dbl, RefusedScore]
  split_ifs with used notNan <;> simp [*]

end MiniRedis
