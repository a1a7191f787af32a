import MiniRedis.Common.Numerals
import MiniRedis.Server.Reachable

/-!
# The numeric arguments of `pexpire` and `zquery`
-/

namespace MiniRedis

open Binary64

/-- `exec_pexpire` behind the check of its argument. -/
def pexpireTtl (env : Env) (state : Server) (key out : Bytes) (ttlMs : Int) :
    Option (Server × Bytes) := do
  guard (ttlMs ≥ 0)
  let (node, state) ← getEntry state key
  match node with
  | none => return (state, outInt out 0)
  | some ent =>
    let state ← entrySetTtl env state ent ttlMs.toNat
    return (state, outInt out 1)

/-- `exec_zquery` behind the checks of its arguments. -/
def zqueryChecked (state : Server) (cmd : List Bytes) (out : Bytes) (score : Number) (name : Bytes)
    (offset limit : Int) : Option (Server × Bytes) :=
  withZset state cmd out (fun out => outArr out 0) fun state ent => do
    let out ← zqueryRange state.zmemory (state.zset ent) score name offset limit out
    return (state, out)

variable {env : Env} {state state' : Server} {key ttlArg scoreArg name offsetArg limitArg : Bytes}
  {out out' : Bytes}

/-- With two arguments, `pexpire` parses the second. -/
theorem execCmd_pexpire : execCmd env state [ascii "pexpire", key, ttlArg] out =
    match str2int ttlArg with
    | none => some (state, outErr out .badArg "expect int64")
    | some ttlMs => pexpireTtl env state key out ttlMs := by
  have target : (cmdTable.find? fun entry => ascii "pexpire" == ascii entry.name) =
      some ⟨"pexpire", execPexpire, 3⟩ := rfl
  rw [execCmd]
  simp only [target]
  rfl

/-- With five, `zquery` parses the score and then both numbers. -/
theorem execCmd_zquery :
    execCmd env state [ascii "zquery", key, scoreArg, name, offsetArg, limitArg] out =
      match str2dbl env.strtod scoreArg with
      | none => some (state, outErr out .badArg "expect double")
      | some score =>
        match str2int offsetArg, str2int limitArg with
        | some offset, some limit =>
          zqueryChecked state [ascii "zquery", key, scoreArg, name, offsetArg, limitArg] out score
            name offset limit
        | _, _ => some (state, outErr out .badArg "expect int") := by
  have target : (cmdTable.find? fun entry => ascii "zquery" == ascii entry.name) =
      some ⟨"zquery", execZquery, 6⟩ := rfl
  rw [execCmd]
  simp only [target]
  rfl

/-! ## Answers -/

/-- The command is answered with `ERR_BAD_ARG` and changes nothing. -/
def AnsweredBadArg (state : Server) (out : Bytes) (result : Option (Server × Bytes)) : Prop :=
  ∃ msg, result = some (state, outErr out .badArg msg)

/-- The reply is an error with its code. -/
theorem AnsweredBadArg.tags (answered : AnsweredBadArg state out (some (state', out'))) :
    out'[out.length]? = some Tag.err.byte ∧ out'[out.length + 1]? = some 4 := by
  obtain ⟨msg, same⟩ := answered
  obtain ⟨-, rfl⟩ := Prod.mk.inj (Option.some.inj same)
  rw [outErr_eq, List.getElem?_append_right le_rfl, List.getElem?_append_right (Nat.le_succ _)]
  simp [errValue, WireValue.encode, ErrCode.toNat, LittleEndian.encode]

/-- Other replies have other tags or codes. -/
theorem outInt_tag (out : Bytes) (val : Int) : (outInt out val)[out.length]? = some Tag.int.byte := by
  rw [outInt_eq, List.getElem?_append_right le_rfl]
  simp [WireValue.encode]

theorem outArr_tag (out : Bytes) (n : Nat) : (outArr out n)[out.length]? = some Tag.arr.byte := by
  simp [outArr, bufAppendU32, bufAppendU8]

theorem outErr_badType (out : Bytes) (msg : String) :
    (outErr out .badType msg)[out.length + 1]? = some 3 := by
  rw [outErr_eq, List.getElem?_append_right (Nat.le_succ _)]
  simp [errValue, WireValue.encode, ErrCode.toNat, LittleEndian.encode]

/-- The count is filled in behind the tag. -/
theorem outEndArr_tag {arr : Bytes} {n : Nat}
    (run : outEndArr arr (outBeginArr out).2 n = some out') :
    out'[out.length]? = some Tag.arr.byte := by
  have pos : (outBeginArr out).2 = out.length + 1 := by
    simp [outBeginArr, bufAppendU32, bufAppendU8]
  rw [pos, outEndArr, Nat.add_sub_cancel] at run
  by_cases tagged : arr[out.length]? = some Tag.arr.byte
  · simp only [tagged, Nat.succ_pos, and_self, guard_true, Option.pure_def, Option.bind_eq_bind,
      Option.bind_some] at run
    rw [copyAt_before run (Nat.lt_succ_self _), tagged]
  · simp [tagged] at run

/-- So they can be told from the refusal of an argument. -/
theorem not_answeredBadArg {val : UInt8} (tag : out'[out.length]? = some val) (other : val ≠ 1) :
    ¬AnsweredBadArg state out (some (state', out')) := by
  intro answered
  rw [answered.tags.1] at tag
  exact other (Option.some.inj tag).symm

/-- What `pexpire` does with a value is no refusal. -/
theorem pexpireTtl_answer (key : Bytes) (ttlMs : Int) :
    ¬AnsweredBadArg state out (pexpireTtl env state key out ttlMs) := by
  cases result : pexpireTtl env state key out ttlMs with
  | none =>
      rintro ⟨msg, same⟩
      cases same
  | some last =>
      obtain ⟨state', out'⟩ := last
      obtain ⟨val, rfl⟩ : ∃ val, out' = outInt out val := by
        simp only [pexpireTtl, Option.bind_eq_bind, Option.bind_eq_some_iff] at result
        obtain ⟨-, -, ⟨node, looked⟩, -, result⟩ := result
        cases node with
        | none =>
            cases result
            exact ⟨0, rfl⟩
        | some ent =>
            obtain ⟨last, -, result⟩ := Option.bind_eq_some_iff.mp result
            cases result
            exact ⟨1, rfl⟩
      exact not_answeredBadArg (outInt_tag out val) (by decide)

/-- Behind its checks `zquery` refuses no argument. -/
theorem zqueryChecked_answer (cmd : List Bytes) (score : Number) (name : Bytes)
    (offset limit : Int) :
    ¬AnsweredBadArg state out (zqueryChecked state cmd out score name offset limit) := by
  cases result : zqueryChecked state cmd out score name offset limit with
  | none =>
      rintro ⟨msg, same⟩
      cases same
  | some last =>
      obtain ⟨state', out'⟩ := last
      simp only [zqueryChecked, withZset, Option.bind_eq_bind, Option.bind_eq_some_iff] at result
      obtain ⟨key, -, ⟨node, looked⟩, -, result⟩ := result
      cases node with
      | none =>
          cases result
          exact not_answeredBadArg (outArr_tag out 0) (by decide)
      | some ent =>
          simp only at result
          split at result
          · cases result
            intro answered
            have code := answered.tags.2
            rw [outErr_badType] at code
            cases code
          · obtain ⟨range, run, result⟩ := Option.bind_eq_some_iff.mp result
            cases result
            have tag : out'[out.length]? = some Tag.arr.byte := by
              rw [zqueryRange] at run
              split at run
              · cases run
                exact outArr_tag out 0
              · simp only [Option.bind_eq_bind, Option.bind_eq_some_iff] at run
                obtain ⟨_, -, _, -, ⟨arr, n⟩, -, ended⟩ := run
                exact outEndArr_tag ended
            exact not_answeredBadArg tag (by decide)

/-! ## Which arguments are used -/

/-- `pexpire` uses exactly the value of a numeral in range and refuses all else. -/
structure PexpireTakes (env : Env) (state : Server) (key ttlArg out : Bytes) : Prop where
  used : ∀ ttlMs, Int64Numeral ttlArg ttlMs →
    execCmd env state [ascii "pexpire", key, ttlArg] out = pexpireTtl env state key out ttlMs
  refused : (∀ ttlMs, ¬Int64Numeral ttlArg ttlMs) →
    AnsweredBadArg state out (execCmd env state [ascii "pexpire", key, ttlArg] out)

/-- `zquery` uses exactly the values of two numerals in range and refuses all else. -/
structure ZqueryTakes (env : Env) (state : Server)
    (key scoreArg name offsetArg limitArg out : Bytes) : Prop where
  used : ∀ score offset limit, str2dbl env.strtod scoreArg = some score →
    Int64Numeral offsetArg offset → Int64Numeral limitArg limit →
    execCmd env state [ascii "zquery", key, scoreArg, name, offsetArg, limitArg] out =
      zqueryChecked state [ascii "zquery", key, scoreArg, name, offsetArg, limitArg] out score name
        offset limit
  refused : str2dbl env.strtod scoreArg = none ∨ (∀ offset, ¬Int64Numeral offsetArg offset) ∨
      (∀ limit, ¬Int64Numeral limitArg limit) →
    AnsweredBadArg state out
      (execCmd env state [ascii "zquery", key, scoreArg, name, offsetArg, limitArg] out)

/-- What is no numeral is refused. -/
theorem ReadsAsWritten.refused {s : Bytes} (fits : ReadsAsWritten s)
    (none_fits : ∀ value, ¬Int64Numeral s value) : str2int s = none := by
  rw [Option.eq_none_iff_forall_not_mem]
  exact fun value accepted => none_fits value (fits.str2int_iff.mp accepted)

/-- A numeral in range is used, anything else refused. -/
theorem ReadsAsWritten.pexpireTakes (fits : ReadsAsWritten ttlArg) :
    PexpireTakes env state key ttlArg out := by
  constructor
  · intro ttlMs int
    rw [execCmd_pexpire, fits.str2int_iff.mpr int]
  · intro none_fits
    rw [execCmd_pexpire, fits.refused none_fits]
    exact ⟨_, rfl⟩

/-- Conversely, a value which is used or refused so was parsed as it is written. -/
theorem PexpireTakes.fits (takes : PexpireTakes env state key ttlArg out) :
    ReadsAsWritten ttlArg := by
  by_contra misfit
  obtain ⟨⟨ttlMs, accepted⟩, none_fits⟩ := str2int_of_not_fits misfit
  have answered := takes.refused fun ttlMs int => none_fits ⟨ttlMs, int⟩
  rw [execCmd_pexpire, accepted] at answered
  exact pexpireTtl_answer key ttlMs answered

/-- One bad number is enough. -/
theorem zquery_refused (refused : str2dbl env.strtod scoreArg = none ∨ str2int offsetArg = none ∨
      str2int limitArg = none) :
    AnsweredBadArg state out
      (execCmd env state [ascii "zquery", key, scoreArg, name, offsetArg, limitArg] out) := by
  rw [execCmd_zquery]
  cases accepted : str2dbl env.strtod scoreArg with
  | none => exact ⟨_, rfl⟩
  | some score =>
      cases acceptedOffset : str2int offsetArg with
      | none => exact ⟨_, rfl⟩
      | some offset =>
          cases acceptedLimit : str2int limitArg with
          | none => exact ⟨_, rfl⟩
          | some limit => simp [accepted, acceptedOffset, acceptedLimit] at refused

/-- The arguments which `zquery` treats as it should: one is refused as it stands, or both
integers fit. -/
def ZqueryFits (strtod : Bytes → Double × Nat) (scoreArg offsetArg limitArg : Bytes) : Prop :=
  RefusedScore strtod scoreArg ∨ NotNumeral offsetArg ∨ NotNumeral limitArg ∨
    ReadsAsWritten offsetArg ∧ ReadsAsWritten limitArg

/-- The three numbers of `zquery` are used as they are written. -/
theorem ZqueryFits.takes (fits : ZqueryFits env.strtod scoreArg offsetArg limitArg) :
    ZqueryTakes env state key scoreArg name offsetArg limitArg out := by
  rw [ZqueryFits, ← str2dbl_eq_none_iff] at fits
  obtain noScore | notNumeral | notNumeral | ⟨fitsOffset, fitsLimit⟩ := fits
  · constructor
    · intro score offset limit accepted
      rw [noScore] at accepted
      cases accepted
    · exact fun _ => zquery_refused (.inl noScore)
  · constructor
    · exact fun score offset limit _ int => absurd int.numeral (notNumeral.unnumeral _)
    · exact fun _ => zquery_refused (.inr (.inl ((str2int_eq_none_iff _).mpr notNumeral)))
  · constructor
    · exact fun score offset limit _ _ int => absurd int.numeral (notNumeral.unnumeral _)
    · exact fun _ => zquery_refused (.inr (.inr ((str2int_eq_none_iff _).mpr notNumeral)))
  · constructor
    · intro score offset limit accepted int int'
      rw [execCmd_zquery, accepted, fitsOffset.str2int_iff.mpr int, fitsLimit.str2int_iff.mpr int']
    · rintro (noScore | none_fits | none_fits)
      · exact zquery_refused (.inl noScore)
      · exact zquery_refused (.inr (.inl (fitsOffset.refused none_fits)))
      · exact zquery_refused (.inr (.inr (fitsLimit.refused none_fits)))

/-- And they are so only if each of them was parsed so. -/
theorem ZqueryTakes.fits (takes : ZqueryTakes env state key scoreArg name offsetArg limitArg out) :
    ZqueryFits env.strtod scoreArg offsetArg limitArg := by
  rw [ZqueryFits, ← str2dbl_eq_none_iff, ← str2int_eq_none_iff, ← str2int_eq_none_iff]
  cases accepted : str2dbl env.strtod scoreArg with
  | none => exact .inl rfl
  | some score =>
      cases acceptedOffset : str2int offsetArg with
      | none => exact .inr (.inl rfl)
      | some offset =>
          cases acceptedLimit : str2int limitArg with
          | none => exact .inr (.inr (.inl rfl))
          | some limit =>
              have used : ¬AnsweredBadArg state out
                  (execCmd env state [ascii "zquery", key, scoreArg, name, offsetArg, limitArg] out) := by
                rw [execCmd_zquery, accepted, acceptedOffset, acceptedLimit]
                exact zqueryChecked_answer _ score name offset limit
              refine .inr (.inr (.inr ⟨?_, ?_⟩))
              · by_contra misfit
                obtain ⟨-, none_fits⟩ := str2int_of_not_fits misfit
                exact used (takes.refused (.inr (.inl fun value int => none_fits ⟨value, int⟩)))
              · by_contra misfit
                obtain ⟨-, none_fits⟩ := str2int_of_not_fits misfit
                exact used (takes.refused (.inr (.inr fun value int => none_fits ⟨value, int⟩)))

/-- `pexpire` and `zquery` use a numeral in range with its value and refuse all other
arguments unless they come to an empty string or a numeral out of range; `str2dbl` accepts
without a conversion only the empty string. A negative time to live is used, too: there both
sides of `PexpireTakes` are the failed assertion of `do_pexpire`. -/
theorem numeric_arguments_iff (env : Env) (standard : StrtodStandard env.strtod) (state : Server)
    (out : Bytes) :
    (∀ key ttlArg, PexpireTakes env state key ttlArg out ↔ ReadsAsWritten ttlArg) ∧
    (∀ key scoreArg name offsetArg limitArg,
      ZqueryTakes env state key scoreArg name offsetArg limitArg out ↔
        ZqueryFits env.strtod scoreArg offsetArg limitArg) ∧
    ∀ s, (∀ score, str2dbl env.strtod s = some score → 0 < (env.strtod (cStr s)).2) ↔ s ≠ [] := by
  refine ⟨fun key ttlArg => ?_, fun key scoreArg name offsetArg limitArg => ?_, ?_⟩
  · constructor
    · exact PexpireTakes.fits
    · exact ReadsAsWritten.pexpireTakes
  · constructor
    · exact ZqueryTakes.fits
    · exact ZqueryFits.takes
  · exact str2dbl_converted_iff standard

/-- `zquery z 0 a 1 10`. -/
theorem numeric_arguments_ten :
    ZqueryTakes Env.counting Server.start [122] [48] [97] [49] [49, 48] [] := by
  have standard : StrtodStandard Env.counting.strtod := ⟨fun _ => le_rfl, fun _ _ => rfl⟩
  have one : ReadsAsWritten [49] :=
    (int64Numeral_of_digits (by decide) (by decide) (by decide)).fits
  have ten : ReadsAsWritten [49, 48] :=
    (int64Numeral_of_digits (by decide) (by decide) (by decide)).fits
  exact ((numeric_arguments_iff Env.counting standard Server.start []).2.1 [122] [48] [97] [49]
    [49, 48]).mpr (.inr (.inr (.inr ⟨one, ten⟩)))

/-- An empty argument expires the key at once, and one out of range is clamped. -/
theorem numeric_arguments_accepted :
    (∃ state state', ServerReachable state 0 ∧
      execCmd Env.counting state [ascii "pexpire", [122], []] [] = some (state', outInt [] 1) ∧
      state'.contents [122] = some ⟨.zset singleScore, some 0⟩) ∧
    (∃ state state', ServerReachable state 0 ∧
      execCmd Env.counting state [ascii "pexpire", [122], ascii "9223372036854775808"] [] =
        some (state', outInt [] 1) ∧
      state'.contents [122] = some ⟨.zset singleScore, some 9223372036854775807⟩) ∧
    str2dbl Env.counting.strtod [] = some ⟨⟨0⟩, by decide⟩ := by
  have empty : str2int [] = some ((0 : Nat) : Int) := by decide
  have clamped : str2int (ascii "9223372036854775808") = some ((9223372036854775807 : Nat) : Int) := by
    decide +kernel
  obtain ⟨state, state', reachable, -, run, stored⟩ := reachable_pexpire_arg empty
  obtain ⟨state₁, state₁', reachable₁, -, run₁, stored₁⟩ := reachable_pexpire_arg clamped
  exact ⟨⟨state, state', reachable, run, stored⟩, ⟨state₁, state₁', reachable₁, run₁, stored₁⟩,
    by decide⟩

end MiniRedis
