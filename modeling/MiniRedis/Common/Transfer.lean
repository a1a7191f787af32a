import MiniRedis.Common.Bytes

/-!
# `readn` and `writen` (`common.cpp`)

The kernel's answers come as a sequence, one for each call. `errno` is a variable of its
own: `read` sets it when it fails, and leaves what was in it otherwise.
-/

namespace MiniRedis

/-! ## Writing -/

/-- `writen`: the bytes which were sent, and whether these are all. `accepts` says how much
the kernel takes of each `write`; none is a failure. -/
def writen (accepts : Nat → Nat → Nat) (call : Nat) (data : Bytes) : Bytes × Bool :=
  if data.length = 0 then ([], true)
  else
    let rv := min (accepts call data.length) data.length
    if rv = 0 then ([], false)
    else
      let (sent, done) := writen accepts (call + 1) (data.drop rv)
      (data.take rv ++ sent, done)
termination_by data.length
decreasing_by
  rw [List.length_drop]
  omega

/-- A kernel which takes something of every `write`. -/
def AcceptsAll (accepts : Nat → Nat → Nat) : Prop := ∀ call n, 0 < n → 0 < accepts call n

theorem writen_all {accepts : Nat → Nat → Nat} (all : AcceptsAll accepts) (call : Nat) (data : Bytes) :
    writen accepts call data = (data, true) := by
  induction call, data using writen.induct accepts with
  | case1 call data empty =>
      rw [writen, if_pos empty, List.eq_nil_of_length_eq_zero empty]
  | case2 call data nonempty rv failed =>
      have some' := all call data.length (Nat.pos_of_ne_zero nonempty)
      omega
  | case3 call data nonempty rv progress sent done recursed ih =>
      rw [writen, if_neg nonempty]
      simp only [if_neg progress, ih, rv, List.take_append_drop]

/-! ## Reading -/

/-- The code of an interrupted call. -/
def eintr : Nat := 4

/-- What one call of `read` returns. -/
inductive ReadOutcome where
  | bytes (data : Bytes) (nonempty : data ≠ [])
  | eof
  | fails (code : Nat)

def ReadOutcome.data : ReadOutcome → Bytes
  | bytes data _ => data
  | _ => []

/-- The results of the calls of `read` to come, and `errno`. -/
structure Input where
  outcomes : Nat → ReadOutcome
  errno : Nat

namespace Input

/-- `read`: its result and what comes after it. -/
def read (input : Input) : ReadOutcome × Input :=
  (input.outcomes 0,
    { outcomes := fun call => input.outcomes (call + 1)
      errno := match input.outcomes 0 with
        | .fails code => code
        | _ => input.errno })

/-- `readn`: its result, and the bytes which it has stored. -/
def readn (input : Input) (n : Nat) : Option (Int × Bytes × Input) :=
  if n > 0 then
    match input.read with
    | (.bytes data _, input) => do
      guard (data.length ≤ n)
      let (err, stored, input) ← input |>.readn (n - data.length)
      return (err, data ++ stored, input)
    | (_, input) => if input.errno = eintr then input |>.readn n else some (-1, [], input)
  else some (0, [], input)
partial_fixpoint

/-! ## What the calls deliver -/

/-- The state behind a number of calls. -/
def after (input : Input) : Nat → Input
  | 0 => input
  | calls + 1 => (input.after calls).read.2

/-- The bytes which a number of calls have delivered. -/
def arrived (input : Input) (calls : Nat) : Bytes :=
  (List.range calls).flatMap fun call => (input.outcomes call).data

/-- The calls have delivered bytes or were interrupted. -/
def Progress (input : Input) (calls : Nat) : Prop :=
  ∀ call < calls, input.outcomes call ≠ .eof ∧
    ∀ code, input.outcomes call = .fails code → code = eintr

/-- `read` returns at most what is asked for, and the end of a file does not go away. -/
structure WellFormed (input : Input) (n : Nat) : Prop where
  chunks : ∀ calls, input.Progress calls → (input.arrived calls).length < n →
    (input.arrived (calls + 1)).length ≤ n
  ended : ∀ call, input.outcomes call = .eof → input.outcomes (call + 1) = .eof

/-- All bytes have arrived. -/
def Completes (input : Input) (n calls : Nat) : Prop :=
  input.Progress calls ∧ (input.arrived calls).length = n

/-- The next call meets the end of the file or fails while bytes are missing. -/
def Breaks (input : Input) (n calls : Nat) : Prop :=
  input.Progress calls ∧ (input.arrived calls).length < n ∧
    (input.outcomes calls = .eof ∨ ∃ code ≠ eintr, input.outcomes calls = .fails code)

/-- What `readn` is meant to do. -/
structure Served (input : Input) (n : Nat) : Prop where
  completes : ∀ stored, (∃ rest, input.readn n = some (0, stored, rest)) ↔
    ∃ calls, input.Completes n calls ∧ input.arrived calls = stored
  breaks : ∀ calls, input.Breaks n calls →
    input.readn n = some (-1, input.arrived calls, input.after (calls + 1))
  terminates : (¬∃ calls, ∀ call ≥ calls, input.outcomes call = .fails eintr) →
    ∃ result, input.readn n = some result

/-- The file ends while bytes are missing, and the last failure was an interrupt, be it before
or during this `readn`. -/
def EndsInterrupted (input : Input) (n : Nat) : Prop :=
  ∃ calls, input.Progress calls ∧ (input.arrived calls).length < n ∧
    input.outcomes calls = .eof ∧
      (input.errno = eintr ∨ ∃ call < calls, input.outcomes call = .fails eintr)

variable {input : Input} {n calls : Nat}

theorem after_outcomes (input : Input) (calls call : Nat) :
    (input.after calls).outcomes call = input.outcomes (calls + call) := by
  induction calls generalizing call with
  | zero => rw [Nat.zero_add, after]
  | succ calls ih =>
      have shifted : (input.after (calls + 1)).outcomes call = (input.after calls).outcomes (call + 1) :=
        rfl
      rw [shifted, ih, Nat.add_assoc, Nat.add_comm 1]

theorem arrived_succ (input : Input) (calls : Nat) :
    input.arrived (calls + 1) = input.arrived calls ++ (input.outcomes calls).data := by
  simp [arrived, List.range_succ]

theorem progress_zero (input : Input) : input.Progress 0 :=
  fun _ before => absurd before (Nat.not_lt_zero _)

theorem progress_succ : input.Progress (calls + 1) ↔ input.Progress calls ∧
    input.outcomes calls ≠ .eof ∧ ∀ code, input.outcomes calls = .fails code → code = eintr :=
  Nat.forall_lt_succ_right

theorem progress_one : input.Progress 1 ↔
    input.outcomes 0 ≠ .eof ∧ ∀ code, input.outcomes 0 = .fails code → code = eintr :=
  progress_succ.trans (and_iff_right input.progress_zero)

theorem Progress.mono (progress : input.Progress calls) {fewer : Nat} (le : fewer ≤ calls) :
    input.Progress fewer := fun call before => progress call (before.trans_le le)

/-- The bytes of some calls, put in front of what the rest stores. -/
def prepend (front : Bytes) (result : Int × Bytes × Input) : Int × Bytes × Input :=
  (result.1, front ++ result.2.1, result.2.2)

/-- One round of the loop. -/
theorem readn_step (positive : 0 < n) (progress : input.Progress 1)
    (fits : (input.outcomes 0).data.length ≤ n) :
    input.readn n = ((input.after 1).readn (n - (input.outcomes 0).data.length)).map
      (prepend (input.outcomes 0).data) := by
  obtain ⟨notEof, interrupted⟩ := progress_one.mp progress
  have next : input.read = (input.outcomes 0, input.after 1) := rfl
  rw [readn, if_pos positive, next]
  cases outcome : input.outcomes 0 with
  | bytes data nonempty =>
      rw [outcome] at fits
      have long : data.length ≤ n := fits
      simp only [long, guard_true, Option.bind_eq_bind, ReadOutcome.data]
      cases (input.after 1).readn (n - data.length) <;> rfl
  | eof => exact absurd outcome notEof
  | fails code =>
      obtain rfl := interrupted code outcome
      have errno : (input.after 1).errno = eintr := by simp [after, read, outcome]
      simp only [errno, if_true, ReadOutcome.data, List.length_nil, Nat.sub_zero]
      cases (input.after 1).readn n <;> rfl

/-- The round which ends the loop early. -/
theorem readn_break (positive : 0 < n) {code : Nat}
    (broken : input.outcomes 0 = .eof ∧ input.errno = code ∨ input.outcomes 0 = .fails code)
    (final : code ≠ eintr) : input.readn n = some (-1, [], input.after 1) := by
  have next : input.read = (input.outcomes 0, input.after 1) := rfl
  rw [readn, if_pos positive, next]
  obtain ⟨outcome, rfl⟩ | outcome := broken
  · have errno : (input.after 1).errno = input.errno := by simp [after, read, outcome]
    simp [outcome, errno, final]
  · have errno : (input.after 1).errno = code := by simp [after, read, outcome]
    simp [outcome, errno, final]

/-- The loop behind some calls which have made progress. -/
theorem readn_after (wellFormed : input.WellFormed n) (progress : input.Progress calls)
    (short : ∀ call < calls, (input.arrived call).length < n) :
    input.readn n = ((input.after calls).readn (n - (input.arrived calls).length)).map
      (prepend (input.arrived calls)) := by
  induction calls with
  | zero => cases run : input.readn n <;> simp [after, arrived, prepend, run]
  | succ calls ih =>
      obtain ⟨earlier, next⟩ := progress_succ.mp progress
      have missing := short calls (Nat.lt_succ_self calls)
      have fits := wellFormed.chunks calls earlier missing
      have first : (input.after calls).outcomes 0 = input.outcomes calls := after_outcomes _ _ _
      rw [arrived_succ, List.length_append] at fits
      rw [← first] at next
      have step := @readn_step (input.after calls) (n - (input.arrived calls).length) (by omega)
        (progress_one.mpr next) (by
          rw [first]
          omega)
      have same : (input.after calls).after 1 = input.after (calls + 1) := rfl
      rw [ih earlier fun call before => short call (before.trans (Nat.lt_succ_self calls)), step, first,
        same, arrived_succ, Option.map_map, List.length_append, Nat.sub_sub]
      congr 1
      ext result : 1
      simp [prepend]

theorem arrived_prefix (input : Input) {calls more : Nat} (le : calls ≤ more) :
    input.arrived calls <+: input.arrived more := by
  induction le with
  | refl => exact List.prefix_refl _
  | step le ih =>
      rw [arrived_succ]
      exact ih.trans (List.prefix_append _ _)

/-- Once all bytes have arrived, `readn` has stored them. -/
theorem readn_completes (wellFormed : input.WellFormed n) (completes : input.Completes n calls) :
    ∃ rest, input.readn n = some (0, input.arrived calls, rest) := by
  obtain ⟨progress, all⟩ := completes
  -- the first moment at which all bytes have arrived
  have reached : ∃ first, n ≤ (input.arrived first).length := ⟨calls, all.ge⟩
  have least := Nat.find_min' reached all.ge
  have enough := Nat.find_spec reached
  have short : ∀ call < Nat.find reached, (input.arrived call).length < n := fun call before =>
    Nat.lt_of_not_le (Nat.find_min reached before)
  generalize Nat.find reached = first at least enough short
  have same : input.arrived first = input.arrived calls :=
    (input.arrived_prefix least).eq_of_length_le (by omega)
  rw [readn_after wellFormed (progress.mono least) short, same, all, Nat.sub_self, readn]
  exact ⟨_, by simp [prepend]; rfl⟩

/-- While there is only progress, `errno` tells of interrupts alone. -/
theorem after_errno (progress : input.Progress calls) : (input.after calls).errno = eintr ↔
    input.errno = eintr ∨ ∃ call < calls, input.outcomes call = .fails eintr := by
  induction calls with
  | zero => simp [after]
  | succ calls ih =>
      have first : (input.after calls).outcomes 0 = input.outcomes calls := after_outcomes _ _ _
      obtain ⟨earlier, notEof, interrupted⟩ := progress_succ.mp progress
      have ih := ih earlier
      cases outcome : input.outcomes calls with
      | eof => exact absurd outcome notEof
      | bytes data nonempty =>
          have errno : (input.after (calls + 1)).errno = (input.after calls).errno := by
            simp [after, read, first, outcome]
          have new : input.outcomes calls ≠ .fails eintr := by simp [outcome]
          rw [errno, ih]
          apply or_congr_right
          constructor
          · rintro ⟨call, before, failed⟩
            exact ⟨call, before.trans (Nat.lt_succ_self calls), failed⟩
          · rintro ⟨call, before, failed⟩
            obtain before | rfl := Nat.lt_succ_iff_lt_or_eq.mp before
            · exact ⟨call, before, failed⟩
            · exact absurd failed new
      | fails code =>
          obtain rfl := interrupted code outcome
          have errno : (input.after (calls + 1)).errno = eintr := by
            simp [after, read, first, outcome]
          exact iff_of_true errno (.inr ⟨calls, Nat.lt_succ_self calls, outcome⟩)

/-- `readn` up to the call at which the loop may end early. -/
theorem readn_upTo (wellFormed : input.WellFormed n) (breaks : input.Breaks n calls) :
    input.readn n = ((input.after calls).readn (n - (input.arrived calls).length)).map
      (prepend (input.arrived calls)) := by
  apply readn_after wellFormed breaks.1
  intro call before
  exact (input.arrived_prefix before.le).length_le.trans_lt breaks.2.1

/-- A failure, or the end of the file behind no interrupt, ends the loop. -/
theorem readn_breaks (wellFormed : input.WellFormed n) (breaks : input.Breaks n calls)
    (noticed : input.outcomes calls = .eof → (input.after calls).errno ≠ eintr) :
    input.readn n = some (-1, input.arrived calls, input.after (calls + 1)) := by
  have first : (input.after calls).outcomes 0 = input.outcomes calls := after_outcomes _ _ _
  have missing : 0 < n - (input.arrived calls).length := Nat.sub_pos_of_lt breaks.2.1
  have ends : (input.after calls).readn (n - (input.arrived calls).length) =
      some (-1, [], input.after (calls + 1)) := by
    obtain ended | ⟨code, final, failed⟩ := breaks.2.2
    · exact readn_break missing (.inl ⟨first.trans ended, rfl⟩) (noticed ended)
    · exact readn_break missing (.inr (first.trans failed)) final
  rw [readn_upTo wellFormed breaks, ends]
  simp [prepend]

/-- With an interrupt left in `errno` the loop goes on for ever at the end of the file. -/
theorem readn_diverges (positive : 0 < n) (interrupted : input.errno = eintr)
    (ended : ∀ call, input.outcomes call = .eof) : input.readn n = none := by
  have never : ∀ (input : Input) (n : Nat) result, input.readn n = some result →
      ¬(0 < n ∧ input.errno = eintr ∧ ∀ call, input.outcomes call = .eof) := by
    apply readn.partial_correctness
    rintro loop ih input n result run ⟨positive, interrupted, ended⟩
    have next : input.read = (.eof, input.after 1) := by
      rw [← ended 0]
      rfl
    have errno : (input.after 1).errno = eintr := by simp [after, read, ended 0, interrupted]
    have outcomes : ∀ call, (input.after 1).outcomes call = .eof := by
      intro call
      rw [after_outcomes]
      exact ended (1 + call)
    rw [if_pos positive, next] at run
    simp only [errno, if_true] at run
    exact ih (input.after 1) n result run ⟨positive, errno, outcomes⟩
  cases run : input.readn n with
  | none => rfl
  | some result => exact absurd ⟨positive, interrupted, ended⟩ (never input n result run)

theorem WellFormed.ended_forever (wellFormed : input.WellFormed n)
    (ended : input.outcomes calls = .eof) (call : Nat) : input.outcomes (calls + call) = .eof := by
  induction call with
  | zero => exact ended
  | succ call ih => exact wellFormed.ended _ ih

/-- Interrupts deliver nothing. -/
theorem Progress.interrupted (progress : input.Progress calls) {later : Nat} (le : calls ≤ later)
    (interrupts : ∀ call, calls ≤ call → call < later → input.outcomes call = .fails eintr) :
    input.Progress later ∧ input.arrived later = input.arrived calls := by
  induction le with
  | refl => exact ⟨progress, rfl⟩
  | @step later le ih =>
      obtain ⟨before, same⟩ := ih fun call from' below =>
        interrupts call from' (below.trans (Nat.lt_succ_self _))
      have last := interrupts later le (Nat.lt_succ_self later)
      constructor
      · apply progress_succ.mpr
        rw [last]
        exact ⟨before, by simp, by simp [eq_comm]⟩
      · rw [arrived_succ, last, same]
        exact List.append_nil _

/-- Unless all calls to come are interrupted, some call is the next which is not. -/
theorem Progress.next (fair : ¬∃ calls, ∀ call ≥ calls, input.outcomes call = .fails eintr)
    (progress : input.Progress calls) : ∃ call, input.Progress call ∧
      input.arrived call = input.arrived calls ∧ input.outcomes call ≠ .fails eintr := by
  classical
  have other : ∃ call, calls ≤ call ∧ input.outcomes call ≠ .fails eintr := by
    by_contra none
    push Not at none
    exact fair ⟨calls, none⟩
  obtain ⟨from', differs⟩ := Nat.find_spec other
  have interrupts : ∀ call, calls ≤ call → call < Nat.find other →
      input.outcomes call = .fails eintr := by
    intro call from' below
    by_contra differs
    exact Nat.find_min other below ⟨from', differs⟩
  obtain ⟨progress', same⟩ := progress.interrupted from' interrupts
  exact ⟨Nat.find other, progress', same, differs⟩

/-- Unless it is interrupted for ever, `readn` meets what it waits for or an end. -/
theorem WellFormed.exists_end (wellFormed : input.WellFormed n)
    (fair : ¬∃ calls, ∀ call ≥ calls, input.outcomes call = .fails eintr)
    (progress : input.Progress calls) (short : (input.arrived calls).length ≤ n) :
    ∃ last, input.Completes n last ∨ input.Breaks n last := by
  induction gap : n - (input.arrived calls).length using Nat.strong_induction_on
    generalizing calls with
  | _ missing ih =>
      by_cases all : (input.arrived calls).length = n
      · exact ⟨calls, .inl ⟨progress, all⟩⟩
      · obtain ⟨call, progress', same, differs⟩ := progress.next fair
        have less : (input.arrived call).length < n := by
          rw [same]
          omega
        cases outcome : input.outcomes call with
        | eof => exact ⟨call, .inr ⟨progress', less, .inl outcome⟩⟩
        | fails code =>
            refine ⟨call, .inr ⟨progress', less, .inr ⟨code, ?_, outcome⟩⟩⟩
            rintro rfl
            exact differs outcome
        | bytes data nonempty =>
            have positive := List.length_pos_of_ne_nil nonempty
            have more : input.arrived (call + 1) = input.arrived calls ++ data := by
              rw [arrived_succ, same, outcome]
              rfl
            have fits := wellFormed.chunks call progress' less
            have progress'' : input.Progress (call + 1) :=
              progress_succ.mpr ⟨progress', by simp [outcome]⟩
            have less' : n - (input.arrived (call + 1)).length < missing := by
              rw [more, List.length_append]
              omega
            exact ih _ less' progress'' fits rfl

theorem arrived_shift (input : Input) (calls : Nat) :
    input.arrived (calls + 1) = (input.outcomes 0).data ++ (input.after 1).arrived calls := by
  induction calls with
  | zero => simp [arrived]
  | succ calls ih =>
      rw [arrived_succ, ih, arrived_succ, after_outcomes, Nat.add_comm 1, List.append_assoc]

/-- What completes the rest completes the whole, with the bytes of the first call in front. -/
theorem Completes.shift {rest : Nat} (first : input.Progress 1)
    (completes : (input.after 1).Completes rest calls) :
    input.Completes ((input.outcomes 0).data.length + rest) (calls + 1) ∧
      input.arrived (calls + 1) = (input.outcomes 0).data ++ (input.after 1).arrived calls := by
  obtain ⟨progress, all⟩ := completes
  have whole := input.arrived_shift calls
  refine ⟨⟨?_, by rw [whole, List.length_append, all]⟩, whole⟩
  intro call below
  cases call with
  | zero => exact first 0 Nat.one_pos
  | succ call =>
      have same := after_outcomes input 1 call
      rw [Nat.add_comm 1] at same
      rw [← same]
      exact progress call (Nat.lt_of_succ_lt_succ below)

/-- Bytes which are still to arrive do not come after the end of the file. -/
theorem Completes.not_ended (completes : input.Completes n calls) (positive : 0 < n) :
    input.outcomes 0 ≠ .eof := by
  obtain ⟨progress, all⟩ := completes
  cases calls with
  | zero => exact absurd all (Nat.ne_of_lt positive)
  | succ calls => exact (progress 0 (Nat.succ_pos calls)).1

/-- `readn` returns zero only if all bytes have arrived. -/
theorem completes_of_readn
    (ended : ∀ call, input.outcomes call = .eof → input.outcomes (call + 1) = .eof)
    {stored : Bytes} {rest : Input} (run : input.readn n = some (0, stored, rest)) :
    ∃ calls, input.Completes n calls ∧ input.arrived calls = stored := by
  have sound : ∀ (input : Input) (n : Nat) (result : Int × Bytes × Input),
      input.readn n = some result →
        (∀ call, input.outcomes call = .eof → input.outcomes (call + 1) = .eof) → result.1 = 0 →
          ∃ calls, input.Completes n calls ∧ input.arrived calls = result.2.1 := by
    apply readn.partial_correctness
    intro loop ih input n result run ended zero
    have next : input.read = (input.outcomes 0, input.after 1) := rfl
    have ended' : ∀ call, (input.after 1).outcomes call = .eof →
        (input.after 1).outcomes (call + 1) = .eof := by
      intro call
      rw [after_outcomes, after_outcomes, ← Nat.add_assoc]
      exact ended (1 + call)
    rw [next] at run
    split at run
    next positive =>
      cases outcome : input.outcomes 0 with
      | bytes data nonempty =>
          rw [outcome] at run
          obtain ⟨⟨⟩, fits, run⟩ := Option.bind_eq_some_iff.mp run
          obtain ⟨⟨err, stored, rest⟩, inner, run⟩ := Option.bind_eq_some_iff.mp run
          cases run
          have small : data.length ≤ n := by
            by_contra large
            simp [large] at fits
          obtain ⟨calls, completes, same⟩ := ih _ _ _ inner ended' zero
          have first : input.Progress 1 := progress_one.mpr (by simp [outcome])
          obtain ⟨completes', whole⟩ := completes.shift first
          rw [outcome] at completes' whole
          rw [ReadOutcome.data, Nat.add_sub_cancel' small] at completes'
          exact ⟨calls + 1, completes', by rw [whole, same]; rfl⟩
      | eof =>
          simp only [outcome] at run
          split at run
          · obtain ⟨calls, completes, -⟩ := ih _ _ _ run ended' zero
            have again : (input.after 1).outcomes 0 = .eof := by
              rw [after_outcomes]
              exact ended 0 outcome
            exact absurd again (completes.not_ended (by omega))
          · cases run
            cases zero
      | fails code =>
          simp only [outcome] at run
          split at run
          next interrupted =>
            have errno : (input.after 1).errno = code := by simp [after, read, outcome]
            obtain rfl := errno.symm.trans interrupted
            obtain ⟨calls, completes, same⟩ := ih _ _ _ run ended' zero
            have first : input.Progress 1 := progress_one.mpr (by simp [outcome, eq_comm])
            obtain ⟨completes', whole⟩ := completes.shift first
            rw [outcome] at completes' whole
            have nothing : (ReadOutcome.fails eintr).data.length + n = n := Nat.zero_add n
            rw [nothing] at completes'
            exact ⟨calls + 1, completes', by rw [whole, same]; rfl⟩
          next =>
            cases run
            cases zero
    next finished =>
      cases run
      refine ⟨0, ⟨progress_zero _, ?_⟩, rfl⟩
      simp [arrived]
      omega
  exact sound input n _ run ended rfl

/-- `readn` does what it is meant to do exactly if the file does not end, before all bytes have
arrived, with an interrupt as the last failure. -/
theorem readn_served_iff (wellFormed : input.WellFormed n) :
    input.Served n ↔ ¬input.EndsInterrupted n := by
  constructor
  · rintro served ⟨calls, progress, missing, ended, interrupted⟩
    have breaks : input.Breaks n calls := ⟨progress, missing, .inl ended⟩
    have diverges : (input.after calls).readn (n - (input.arrived calls).length) = none := by
      apply readn_diverges (Nat.sub_pos_of_lt missing) ((after_errno progress).mpr interrupted)
      intro call
      rw [after_outcomes]
      exact wellFormed.ended_forever ended call
    have returns := served.breaks calls breaks
    rw [readn_upTo wellFormed breaks, diverges] at returns
    cases returns
  · intro notices
    have noticed : ∀ calls, input.Breaks n calls → input.outcomes calls = .eof →
        (input.after calls).errno ≠ eintr := by
      intro calls breaks ended interrupted
      exact notices ⟨calls, breaks.1, breaks.2.1, ended, (after_errno breaks.1).mp interrupted⟩
    constructor
    · intro stored
      constructor
      · rintro ⟨rest, run⟩
        exact completes_of_readn wellFormed.ended run
      · rintro ⟨calls, completes, rfl⟩
        exact readn_completes wellFormed completes
    · intro calls breaks
      exact readn_breaks wellFormed breaks (noticed calls breaks)
    · intro fair
      obtain ⟨calls, completes | breaks⟩ :=
        wellFormed.exists_end fair input.progress_zero (by simp [arrived])
      · obtain ⟨rest, run⟩ := readn_completes wellFormed completes
        exact ⟨_, run⟩
      · exact ⟨_, readn_breaks wellFormed breaks (noticed calls breaks)⟩

/-- One interrupt, then the end of the file. -/
def interruptedEnd : Input where
  outcomes call := if call = 0 then .fails eintr else .eof
  errno := 0

theorem interruptedEnd_arrived (calls : Nat) : interruptedEnd.arrived calls = [] := by
  induction calls with
  | zero => rfl
  | succ calls ih =>
      rw [arrived_succ, ih, interruptedEnd]
      by_cases first : calls = 0 <;> simp [first, ReadOutcome.data]

/-- `readn` of four bytes does not return, although the file ends. -/
theorem readn_interruptedEnd : interruptedEnd.WellFormed 4 ∧ interruptedEnd.Breaks 4 1 ∧
    interruptedEnd.readn 4 = none ∧ ¬interruptedEnd.Served 4 := by
  have wellFormed : interruptedEnd.WellFormed 4 := by
    constructor
    · intro calls _ _
      rw [interruptedEnd_arrived]
      exact Nat.zero_le 4
    · intro call ended
      simp [interruptedEnd]
  have breaks : interruptedEnd.Breaks 4 1 := by
    refine ⟨progress_one.mpr ?_, by rw [interruptedEnd_arrived]; decide, .inl rfl⟩
    simp [interruptedEnd, eq_comm]
  have diverges : interruptedEnd.readn 4 = none := by
    have forever : (interruptedEnd.after 1).readn 4 = none :=
      readn_diverges (by decide) rfl fun call => by simp [after, read, interruptedEnd]
    rw [readn_upTo wellFormed breaks, interruptedEnd_arrived, List.length_nil, Nat.sub_zero, forever]
    rfl
  refine ⟨wellFormed, breaks, diverges, fun served => ?_⟩
  have returns := served.breaks 1 breaks
  rw [diverges] at returns
  cases returns

/-- One byte arrives: what an earlier interrupt left in `errno` is not looked at. -/
theorem readn_served_one : ∃ rest, Input.readn
    ⟨fun call => if call = 0 then .bytes [7] (by decide) else .eof, eintr⟩ 1 =
      some (0, [7], rest) := by
  have arrives : ∀ calls, 0 < calls → Input.arrived
      ⟨fun call => if call = 0 then .bytes [7] (by decide) else .eof, eintr⟩ calls = [7] := by
    intro calls positive
    induction calls, positive using Nat.le_induction with
    | base => rfl
    | succ calls positive ih =>
        have behind : calls ≠ 0 := Nat.ne_of_gt positive
        rw [arrived_succ, ih]
        simp [behind, ReadOutcome.data]
  have wellFormed : Input.WellFormed
      ⟨fun call => if call = 0 then .bytes [7] (by decide) else .eof, eintr⟩ 1 := by
    constructor
    · intro calls _ _
      rw [arrives (calls + 1) (Nat.succ_pos calls)]
      exact le_rfl
    · intro call ended
      simp
  have notices : ¬Input.EndsInterrupted
      ⟨fun call => if call = 0 then .bytes [7] (by decide) else .eof, eintr⟩ 1 := by
    rintro ⟨calls, -, missing, ended, -⟩
    cases calls with
    | zero => simp at ended
    | succ calls =>
        rw [arrives (calls + 1) (Nat.succ_pos calls)] at missing
        exact absurd missing (by decide)
  apply (((readn_served_iff wellFormed).mpr notices).completes [7]).mpr
  refine ⟨1, ⟨progress_one.mpr ?_, by rw [arrives 1 Nat.one_pos]; rfl⟩, arrives 1 Nat.one_pos⟩
  simp

end Input

end MiniRedis
