import MiniRedis.Server.Process
import MiniRedis.Server.Overdue

/-!
# The timeout of `poll` (`server.cpp`)

`next_timer_ms` looks at the stalest connection and at the root of the heap. The deadline
it finds is the earliest of all, but the milliseconds until then need not fit an `int32_t`.
-/

namespace MiniRedis

/-- The deadline of the first connection in the idle list, or `(uint64_t)-1`. -/
def EventLoop.nextIdleMs {σ κ : Type} (loop : EventLoop σ κ) : Option Nat :=
  if dlistEmpty loop.idleList none then some (2 ^ 64 - 1)
  else do
    let node ← loop.idleList.next none
    let conn ← node
    guard (conn ∈ loop.live)
    return (loop.lastActiveMs conn + kIdleTimeoutMs) % 2 ^ 64

/-- How long `poll` may wait until `nextMs`; `-1` is for ever. -/
def pollTimeout (nextMs nowMs : Nat) : Int :=
  if nextMs = 2 ^ 64 - 1 then -1
  else if nextMs ≤ nowMs then 0
  else toInt32 (nextMs - nowMs)

/-- `next_timer_ms`. -/
def EventLoop.nextTimerMs {κ : Type} (loop : EventLoop Server κ) (nowMs : Nat) : Option Int := do
  let nextMs ← loop.nextIdleMs
  let nextMs :=
    match loop.db.ttlHeap.arr[0]? with
    | none => nextMs
    | some top => if top.val < nextMs then top.val else nextMs
  return pollTimeout nextMs nowMs

/-! ## The deadlines -/

/-- When the connections will have been idle for too long. -/
def EventLoop.idleDeadlines {σ : Type} (loop : EventLoop σ Conn) : Set Nat :=
  {ms | ∃ conn ∈ loop.live, loop.lastActiveMs conn + kIdleTimeoutMs = ms}

/-- The deadlines of the keys. -/
def Contents.deadlines (map : Contents) : Set Nat :=
  {ms | ∃ key record, map key = some record ∧ record.deadline = some ms}

def EventLoop.deadlines (loop : EventLoop Server Conn) : Set Nat :=
  loop.idleDeadlines ∪ loop.db.contents.deadlines

variable {loop loop' : EventLoop Server Conn} {phase : LoopPhase} {state : Server} {clock now : Nat}

/-- The stalest connection times out first. -/
theorem EventLoop.Sound.nextIdleMs {σ : Type} {loop : EventLoop σ Conn} (sound : loop.Sound phase clock)
    (bound : clock < 2 ^ 63) :
    (loop.idleDeadlines = ∅ ∧ loop.nextIdleMs = some (2 ^ 64 - 1)) ∨
      ∃ ms < 2 ^ 64 - 1, loop.nextIdleMs = some ms ∧ IsLeast loop.idleDeadlines ms := by
  obtain ⟨idle, invariant, -⟩ := sound
  have empty := dlistEmpty_spec invariant.ring
  cases idle with
  | nil =>
      refine .inl ⟨Set.eq_empty_of_forall_notMem ?_, by simp [EventLoop.nextIdleMs, empty]⟩
      rintro ms ⟨conn, live, -⟩
      cases (invariant.listed conn).mpr live
  | cons conn rest =>
      have first : loop.idleList.next none = some (some conn) := invariant.ring.first
      have live := (invariant.listed conn).mp List.mem_cons_self
      have below : loop.lastActiveMs conn + kIdleTimeoutMs < 2 ^ 64 - 1 := by
        have active := invariant.past conn List.mem_cons_self
        rw [kIdleTimeoutMs]
        omega
      refine .inr ⟨_, below, ?_, ⟨conn, live, rfl⟩, ?_⟩
      · simp [EventLoop.nextIdleMs, empty, first, live]
        omega
      · rintro ms ⟨other, live', rfl⟩
        apply Nat.add_le_add_right
        cases (invariant.listed other).mpr live' with
        | head => exact le_rfl
        | tail _ behind => exact List.rel_of_pairwise_cons invariant.sorted behind

/-- The root of the heap is the earliest deadline of a key. -/
theorem ServerReachable.deadlines (reachable : ServerReachable state clock) :
    (state.ttlHeap.arr[0]? = none ∧ state.contents.deadlines = ∅) ∨
      ∃ top, state.ttlHeap.arr[0]? = some top ∧ IsLeast state.contents.deadlines top.val ∧
        top.val < clock + 2 ^ 63 := by
  obtain ⟨entries, deadline, tree, invariant⟩ := reachable.consistent
  cases root : state.ttlHeap.arr[0]? with
  | none =>
      refine .inl ⟨rfl, Set.eq_empty_of_forall_notMem ?_⟩
      rintro ms ⟨key, record, found, due⟩
      have late : NoneDue (ms + 1) state.contents := invariant.noneDue (by simp [root])
      exact absurd (late key record ms found due) (Nat.not_succ_le_self ms)
  | some top =>
      have due := (invariant.timed.holds.items top).mp (List.mem_of_getElem? root)
      obtain ⟨member, bound⟩ := invariant.timed.due top.ref top.val due
      refine .inr ⟨top, rfl, ⟨?_, ?_⟩, bound⟩
      · exact ⟨_, _, invariant.contents_of_mem member, due⟩
      · rintro ms ⟨key, record, found, due'⟩
        have early : NoneDue top.val state.contents := invariant.noneDue (by simp [root])
        exact early key record ms found due'

/-- The timeout is computed from the earliest deadline, if there is one. -/
theorem nextTimerMs_spec (sound : loop.Sound phase clock) (bound : clock < 2 ^ 63) {clock' : Nat}
    (past : clock' ≤ clock) (reachable : ServerReachable loop.db clock') (now : Nat) :
    (loop.deadlines = ∅ ∧ loop.nextTimerMs now = some (-1)) ∨
      ∃ earliest, IsLeast loop.deadlines earliest ∧
        loop.nextTimerMs now = some (if earliest ≤ now then 0 else toInt32 (earliest - now)) := by
  rw [EventLoop.deadlines]
  have proper : ∀ ms < 2 ^ 64 - 1, pollTimeout ms now =
      if ms ≤ now then 0 else toInt32 (ms - now) := fun ms below => if_neg below.ne
  obtain ⟨silent, idle⟩ | ⟨ms, below, idle, first⟩ := sound.nextIdleMs bound
  · rw [silent, Set.empty_union]
    obtain ⟨root, none⟩ | ⟨top, root, least, ahead⟩ := reachable.deadlines
    · exact .inl ⟨none, by simp [EventLoop.nextTimerMs, idle, root, pollTimeout]⟩
    · have below : top.val < 2 ^ 64 - 1 := by omega
      refine .inr ⟨top.val, least, ?_⟩
      rw [← proper top.val below]
      simp only [EventLoop.nextTimerMs, idle, root, Option.bind_eq_bind, Option.bind_some, below,
        if_true]
      rfl
  · obtain ⟨root, none⟩ | ⟨top, root, least, ahead⟩ := reachable.deadlines
    · refine .inr ⟨ms, by rwa [none, Set.union_empty], ?_⟩
      rw [← proper ms below]
      simp [EventLoop.nextTimerMs, idle, root]
    · refine .inr ⟨min ms top.val, first.union least, ?_⟩
      have smaller : (if top.val < ms then top.val else ms) = min ms top.val := by
        split <;> omega
      rw [← proper _ (lt_of_le_of_lt (min_le_left _ _) below)]
      simp only [EventLoop.nextTimerMs, idle, root, Option.bind_eq_bind, Option.bind_some, smaller]
      rfl

/-! ## Waking in time -/

/-- `poll` waits for ever only if nothing is timed, and else until the earliest deadline at
the latest, not at all once that has come. -/
structure EventLoop.WakesInTime (loop : EventLoop Server Conn) (now : Nat) (timeout : Int) : Prop where
  forever : timeout = -1 ↔ loop.live = ∅ ∧ loop.db.contents.deadlines = ∅
  past : ∀ earliest, IsLeast loop.deadlines earliest → earliest ≤ now → timeout = 0
  ahead : ∀ earliest, IsLeast loop.deadlines earliest → now < earliest →
    0 < timeout ∧ now + timeout ≤ earliest

/-- A connection is open, or the time to the earliest deadline of a key is positive as an
`int32_t`. -/
def EventLoop.TimeoutFits (loop : EventLoop Server Conn) (now : Nat) : Prop :=
  loop.live = ∅ → ∀ earliest, IsLeast loop.db.contents.deadlines earliest → now < earliest →
    0 < (earliest - now) % 2 ^ 32 ∧ (earliest - now) % 2 ^ 32 < 2 ^ 31

/-- The conversion to `int32_t` is harmless exactly for these numbers. -/
theorem toInt32_fits_iff (n : Nat) :
    (0 < toInt32 n ∧ toInt32 n ≤ n) ↔ 0 < n % 2 ^ 32 ∧ n % 2 ^ 32 < 2 ^ 31 := by
  unfold toInt32
  rw [Int.bmod_def]
  split <;> omega

theorem idleDeadlines_eq_empty_iff {σ : Type} {loop : EventLoop σ Conn} :
    loop.idleDeadlines = ∅ ↔ loop.live = ∅ := by
  rw [Set.eq_empty_iff_forall_notMem, Finset.eq_empty_iff_forall_notMem]
  constructor
  · intro silent conn live
    exact silent _ ⟨conn, live, rfl⟩
  · rintro empty ms ⟨conn, live, -⟩
    exact empty conn live

theorem deadlines_eq_empty_iff :
    loop.deadlines = ∅ ↔ loop.live = ∅ ∧ loop.db.contents.deadlines = ∅ := by
  rw [EventLoop.deadlines, Set.union_empty_iff, idleDeadlines_eq_empty_iff]

theorem deadlines_of_alone (alone : loop.live = ∅) : loop.deadlines = loop.db.contents.deadlines := by
  rw [EventLoop.deadlines, idleDeadlines_eq_empty_iff.mpr alone, Set.empty_union]

/-- A connection times out at most `kIdleTimeoutMs` from now. -/
theorem EventLoop.Sound.idleDeadline_le {σ : Type} {loop : EventLoop σ Conn}
    (sound : loop.Sound phase clock) (later : clock ≤ now) {ms : Nat}
    (member : ms ∈ loop.idleDeadlines) : ms ≤ now + kIdleTimeoutMs := by
  obtain ⟨idle, invariant, -⟩ := sound
  obtain ⟨conn, live, rfl⟩ := member
  have active := invariant.past conn ((invariant.listed conn).mpr live)
  exact Nat.add_le_add_right (active.trans later) _

/-- What `TimeoutFits` asks of the earliest deadline. -/
theorem EventLoop.Sound.timeoutFits_iff (sound : loop.Sound phase clock) (later : clock ≤ now)
    {earliest : Nat} (least : IsLeast loop.deadlines earliest) (ahead : now < earliest) :
    loop.TimeoutFits now ↔ 0 < (earliest - now) % 2 ^ 32 ∧ (earliest - now) % 2 ^ 32 < 2 ^ 31 := by
  by_cases alone : loop.live = ∅
  · rw [deadlines_of_alone alone] at least
    constructor
    · intro fits
      exact fits alone earliest least ahead
    · intro fits _ other least' _
      rwa [← least.unique least']
  · obtain ⟨conn, live⟩ := Finset.nonempty_iff_ne_empty.mpr alone
    have near := sound.idleDeadline_le later ⟨conn, live, rfl⟩
    have first := least.2 (.inl ⟨conn, live, rfl⟩)
    rw [kIdleTimeoutMs] at near first
    apply iff_of_true
    · intro empty
      exact absurd empty alone
    · omega

/-- In every reachable state `poll` wakes in time exactly if a connection is open or the
milliseconds to the earliest deadline of a key, taken modulo `2 ^ 32`, are positive and
below `2 ^ 31`. -/
theorem next_timer_iff (run : ProcessRun loop phase clock) (later : clock ≤ now) :
    (∃ timeout, loop.nextTimerMs now = some timeout ∧ loop.WakesInTime now timeout) ↔
      loop.TimeoutFits now := by
  obtain ⟨bound, sound, clock', past, reachable⟩ := run.sound
  obtain ⟨none, timeout⟩ | ⟨earliest, least, timeout⟩ := nextTimerMs_spec sound bound past reachable now
  · have nothing := deadlines_eq_empty_iff.mp none
    have serves : loop.WakesInTime now (-1) := by
      constructor
      · exact iff_of_true rfl nothing
      · intro earliest least
        exact absurd least.1 (none ▸ Set.notMem_empty earliest)
      · intro earliest least
        exact absurd least.1 (none ▸ Set.notMem_empty earliest)
    apply iff_of_true ⟨-1, timeout, serves⟩
    intro _ earliest least
    exact absurd least.1 (nothing.2 ▸ Set.notMem_empty earliest)
  · have timed : ¬(loop.live = ∅ ∧ loop.db.contents.deadlines = ∅) := by
      rw [← deadlines_eq_empty_iff]
      exact Set.nonempty_iff_ne_empty.mp ⟨earliest, least.1⟩
    by_cases due : earliest ≤ now
    · rw [if_pos due] at timeout
      have serves : loop.WakesInTime now 0 := by
        constructor
        · exact iff_of_false (by decide) timed
        · exact fun _ _ _ => rfl
        · intro other least' ahead
          rw [least.unique least'] at due
          omega
      apply iff_of_true ⟨0, timeout, serves⟩
      intro alone other least' ahead
      rw [deadlines_of_alone alone] at least
      rw [least.unique least'] at due
      omega
    · rw [if_neg due] at timeout
      have ahead := Nat.lt_of_not_le due
      rw [sound.timeoutFits_iff later least ahead, ← toInt32_fits_iff]
      constructor
      · rintro ⟨result, same, serves⟩
        rw [timeout, Option.some.injEq] at same
        have inTime := serves.ahead earliest least ahead
        omega
      · rintro ⟨positive, atMost⟩
        refine ⟨_, timeout, iff_of_false (by omega) timed, ?_, ?_⟩
        · intro other least' past
          rw [least.unique least'] at due
          omega
        · intro other least' _
          rw [← least.unique least']
          omega

/-- The deadlines of a map with one key. -/
theorem deadlines_single (key : Bytes) (value : Value) (ms : Nat) :
    Contents.deadlines (Function.update (fun _ => none) key (some ⟨value, some ms⟩)) = {ms} := by
  ext other
  rw [Set.mem_singleton_iff]
  constructor
  · rintro ⟨k, record, found, due⟩
    rw [Function.update_apply] at found
    split at found
    · cases found
      exact (Option.some.inj due).symm
    · cases found
  · rintro rfl
    exact ⟨key, _, Function.update_self _ _ _, rfl⟩

/-- A deadline ten milliseconds ahead. -/
theorem next_timer_ten : ∃ (loop : EventLoop Server Conn) (timeout : Int),
    loop.db.contents.deadlines = {10} ∧ loop.nextTimerMs 0 = some timeout ∧
      loop.WakesInTime 0 timeout := by
  obtain ⟨loop, run, alone, stored⟩ := @ProcessRun.expiring (ascii "10") 10 (by decide) (by decide)
  have single : loop.db.contents.deadlines = {10} := by rw [stored, deadlines_single]
  have fits : loop.TimeoutFits 0 := by
    intro _ earliest least _
    obtain rfl : earliest = 10 := by simpa [single] using least.1
    decide
  obtain ⟨timeout, same, serves⟩ := (next_timer_iff run le_rfl).mpr fits
  exact ⟨loop, timeout, single, same, serves⟩

/-- `pexpire z 2147483648` and no connection: the timeout is negative, so `poll` waits for
ever although a key has a deadline. -/
theorem next_timer_overflows : ∃ loop : EventLoop Server Conn, ProcessRun loop (.serving []) 0 ∧
    loop.live = ∅ ∧ loop.db.contents.deadlines = {2 ^ 31} ∧
      loop.nextTimerMs 0 = some (-2 ^ 31) ∧ ¬loop.WakesInTime 0 (-2 ^ 31) := by
  obtain ⟨loop, run, alone, stored⟩ :=
    @ProcessRun.expiring (ascii "2147483648") (2 ^ 31) (by decide) (by decide)
  have single : loop.db.contents.deadlines = {2 ^ 31} := by rw [stored, deadlines_single]
  have all : loop.deadlines = {2 ^ 31} := by rw [deadlines_of_alone alone, single]
  obtain ⟨bound, sound, clock', past, reachable⟩ := run.sound
  refine ⟨loop, run, alone, single, ?_, fun serves => ?_⟩
  · obtain ⟨none, -⟩ | ⟨earliest, least, timeout⟩ := nextTimerMs_spec sound bound past reachable 0
    · rw [all] at none
      exact absurd none (Set.singleton_ne_empty _)
    · obtain rfl : earliest = 2 ^ 31 := by simpa [all] using least.1
      rw [timeout, if_neg (by decide)]
      unfold toInt32
      decide
  · have ahead := serves.ahead (2 ^ 31) (all ▸ isLeast_singleton) (by norm_num)
    omega

/-! ## After a pass -/

/-- The pass closes the connections whose deadline has come. -/
theorem EventLoop.Sound.closeIdle_deadlines {σ : Type} {loop closed : EventLoop σ Conn}
    (sound : loop.Sound phase clock) (later : clock ≤ now) (bound : now < 2 ^ 63)
    (run : loop.closeIdle now = some closed) :
    closed.idleDeadlines = {ms | ms ∈ loop.idleDeadlines ∧ now < ms} := by
  obtain ⟨idle, invariant, -⟩ := sound
  obtain ⟨_, run', invariant', -, active, -⟩ := closeIdle_spec invariant later bound
  rw [run] at run'
  cases run'
  have kept : ∀ conn, conn ∈ closed.live ↔
      conn ∈ loop.live ∧ now < loop.lastActiveMs conn + kIdleTimeoutMs := by
    intro conn
    rw [← invariant'.listed, mem_dropWhile_timedOut invariant.sorted, invariant.listed]
  ext ms
  constructor
  · rintro ⟨conn, live, rfl⟩
    rw [active]
    obtain ⟨live', ahead⟩ := (kept conn).mp live
    exact ⟨⟨conn, live', rfl⟩, ahead⟩
  · rintro ⟨⟨conn, live, rfl⟩, ahead⟩
    exact ⟨conn, (kept conn).mpr ⟨live, ahead⟩, by rw [active]⟩

theorem Contents.unexpired_deadlines (map : Contents) (nowMs : Nat) :
    (map.unexpired nowMs).deadlines = {ms | ms ∈ map.deadlines ∧ nowMs ≤ ms} := by
  ext ms
  constructor
  · rintro ⟨key, record, found, due⟩
    obtain ⟨found, early⟩ := Option.filter_eq_some_iff.mp found
    refine ⟨⟨key, record, found, due⟩, ?_⟩
    simpa [due] using early
  · rintro ⟨⟨key, record, found, due⟩, early⟩
    refine ⟨key, record, Option.filter_eq_some_iff.mpr ⟨found, ?_⟩, due⟩
    simpa [due] using early

/-- No key is due at this very moment; and if all connections are closed, the next deadline
of a key is not a multiple of `2 ^ 32` milliseconds ahead. -/
def EventLoop.Settled (loop : EventLoop Server Conn) (now : Nat) : Prop :=
  now ∉ loop.db.contents.deadlines ∧ ((∀ ms ∈ loop.idleDeadlines, ms ≤ now) → ∀ earliest,
    IsLeast {ms | ms ∈ loop.db.contents.deadlines ∧ now < ms} earliest →
      (earliest - now) % 2 ^ 32 ≠ 0)

theorem toInt32_eq_zero_iff (n : Nat) : toInt32 n = 0 ↔ n % 2 ^ 32 = 0 := by
  unfold toInt32
  rw [Int.bmod_def]
  split <;> omega

/-- What `Settled` asks of the earliest deadline which a pass leaves. -/
theorem EventLoop.Sound.settled_iff (sound : loop.Sound phase clock) (later : clock ≤ now)
    {earliest : Nat} (least : IsLeast ({ms | ms ∈ loop.idleDeadlines ∧ now < ms} ∪
      {ms | ms ∈ loop.db.contents.deadlines ∧ now ≤ ms}) earliest) :
    loop.Settled now ↔ (earliest - now) % 2 ^ 32 ≠ 0 := by
  have atLeast : now ≤ earliest := by
    obtain ⟨-, ahead⟩ | ⟨-, ahead⟩ := least.1
    · exact ahead.le
    · exact ahead
  by_cases busy : ∃ ms ∈ loop.idleDeadlines, now < ms
  · -- a connection which stays open is less than `2 ^ 32` milliseconds away
    obtain ⟨ms, member, ahead⟩ := busy
    have near := sound.idleDeadline_le later member
    have first : earliest ≤ ms := least.2 (.inl ⟨member, ahead⟩)
    have small : (earliest - now) % 2 ^ 32 ≠ 0 ↔ now < earliest := by
      rw [kIdleTimeoutMs] at near
      omega
    rw [small]
    constructor
    · rintro ⟨undue, -⟩
      obtain ⟨-, after⟩ | ⟨due, -⟩ := least.1
      · exact after
      · exact lt_of_le_of_ne atLeast fun same => undue (same ▸ due)
    · intro after
      refine ⟨fun due => ?_, fun closed => ?_⟩
      · exact absurd (least.2 (.inr ⟨due, le_rfl⟩)) (Nat.not_le.mpr after)
      · exact absurd (closed ms member) (Nat.not_le.mpr ahead)
  · push Not at busy
    have timed : earliest ∈ loop.db.contents.deadlines := by
      obtain ⟨idle, ahead⟩ | ⟨timed, -⟩ := least.1
      · exact absurd (busy earliest idle) (Nat.not_le.mpr ahead)
      · exact timed
    constructor
    · rintro ⟨undue, next⟩
      have ahead : now < earliest := lt_of_le_of_ne atLeast fun same => undue (same ▸ timed)
      apply next busy earliest
      refine ⟨⟨timed, ahead⟩, ?_⟩
      rintro ms ⟨member, ahead'⟩
      exact least.2 (.inr ⟨member, ahead'.le⟩)
    · intro apart
      have ahead : now < earliest := by
        apply lt_of_le_of_ne atLeast
        rintro rfl
        exact apart (by simp)
      refine ⟨fun due => ?_, fun _ other least' => ?_⟩
      · exact absurd (least.2 (.inr ⟨due, le_rfl⟩)) (Nat.not_le.mpr ahead)
      · have same : other = earliest := le_antisymm (least'.2 ⟨timed, ahead⟩)
          (least.2 (.inr ⟨least'.1.1, least'.1.2.le⟩))
        rwa [same]

/-- A pass which does not reach its limit leaves the deadlines which have not come, and the
keys which are due at this very moment. -/
theorem ProcessRun.pass_deadlines (run : ProcessRun loop phase clock) {env : Env}
    (later : clock ≤ env.now) :
    ∃ loop', loop.processTimers env = some loop' ∧ loop'.Sound .top env.now ∧
      ServerReachable loop'.db env.now ∧
      ((loop.db.contents.keys \ loop'.db.contents.keys).ncard < kMaxWorks →
        loop'.db.contents = loop.db.contents.unexpired env.now ∧ loop'.deadlines =
          {ms | ms ∈ loop.idleDeadlines ∧ env.now < ms} ∪
            {ms | ms ∈ loop.db.contents.deadlines ∧ env.now ≤ ms}) := by
  obtain ⟨-, sound, clock', past, reachable⟩ := run.sound
  obtain ⟨closed, db, closes, expires, pass, sound', reachable'⟩ :=
    sound.processTimers past reachable env later
  obtain ⟨_, expires', -, -, -, -, finished⟩ :=
    processTimers_overdue reachable.consistent (past.trans later)
  rw [expires] at expires'
  cases expires'
  refine ⟨_, pass, sound', reachable', fun few => ⟨finished few, ?_⟩⟩
  rw [← sound.closeIdle_deadlines later env.nowBound closes, ← Contents.unexpired_deadlines,
    ← finished few]
  rfl

/-- After a pass which did not reach its limit, in any reachable state, `poll` waits at the
same clock reading exactly if the state before it was settled. -/
theorem next_timer_settled_iff (run : ProcessRun loop phase clock) {env : Env}
    (later : clock ≤ env.now) :
    ∃ loop', loop.processTimers env = some loop' ∧
      ((loop.db.contents.keys \ loop'.db.contents.keys).ncard < kMaxWorks →
        ∃ timeout, loop'.nextTimerMs env.now = some timeout ∧
          (timeout ≠ 0 ↔ loop.Settled env.now)) := by
  obtain ⟨loop', pass, sound', reachable', left⟩ := run.pass_deadlines later
  refine ⟨loop', pass, fun few => ?_⟩
  obtain ⟨-, left⟩ := left few
  obtain ⟨none, timeout⟩ | ⟨earliest, least, timeout⟩ :=
    nextTimerMs_spec sound' env.nowBound le_rfl reachable' env.now
  · rw [left, Set.union_empty_iff] at none
    refine ⟨-1, timeout, iff_of_true (by decide) ⟨fun due => ?_, fun _ earliest least => ?_⟩⟩
    · exact absurd ⟨due, le_rfl⟩ (Set.eq_empty_iff_forall_notMem.mp none.2 env.now)
    · exact absurd ⟨least.1.1, least.1.2.le⟩ (Set.eq_empty_iff_forall_notMem.mp none.2 earliest)
  · rw [left] at least
    refine ⟨_, timeout, ?_⟩
    rw [run.sound.2.1.settled_iff later least]
    split
    next due =>
      have exactly : earliest - env.now = 0 := by omega
      simp [exactly]
    next => exact not_congr (toInt32_eq_zero_iff _)

/-- A map with one key loses fewer keys than a pass may remove. -/
theorem removed_single (key : Bytes) (record : Record) (after : Contents) :
    (Contents.keys (Function.update (fun _ => none) key (some record)) \ after.keys).ncard <
      kMaxWorks := by
  have single : Contents.keys (Function.update (fun _ => none) key (some record)) \ after.keys ⊆
      {key} := by
    rintro other ⟨present, -⟩
    by_contra differs
    exact present (Function.update_of_ne differs _ _)
  calc _ ≤ ({key} : Set Bytes).ncard := Set.ncard_le_ncard single
    _ = 1 := Set.ncard_singleton key
    _ < kMaxWorks := by decide

/-- A key which is due one millisecond after the pass. -/
theorem next_timer_settled_one : ∃ (loop loop' : EventLoop Server Conn) (timeout : Int),
    loop.db.contents.deadlines = {1} ∧ loop.processTimers Env.counting = some loop' ∧
      loop'.nextTimerMs 0 = some timeout ∧ timeout ≠ 0 := by
  obtain ⟨loop, run, alone, stored⟩ := @ProcessRun.expiring (ascii "1") 1 (by decide) (by decide)
  have single : loop.db.contents.deadlines = {1} := by rw [stored, deadlines_single]
  have settled : loop.Settled 0 := by
    refine ⟨by simp [single], fun _ earliest least => ?_⟩
    obtain rfl : earliest = 1 := by simpa [single] using least.1.1
    decide
  obtain ⟨loop', pass, few⟩ := @next_timer_settled_iff _ _ _ run Env.counting le_rfl
  obtain ⟨timeout, same, waits⟩ := few (stored ▸ removed_single _ _ _)
  exact ⟨loop, loop', timeout, single, pass, same, waits.mpr settled⟩

/-- `pexpire z 0` and no connection: the pass at the same moment does not remove the key, and
`poll` does not wait. -/
theorem next_timer_spins : ∃ loop loop' : EventLoop Server Conn, ProcessRun loop (.serving []) 0 ∧
    loop.db.contents.deadlines = {0} ∧ loop.processTimers Env.counting = some loop' ∧
      (loop.db.contents.keys \ loop'.db.contents.keys).ncard < kMaxWorks ∧
      loop'.db.contents = loop.db.contents ∧ loop'.nextTimerMs 0 = some 0 := by
  obtain ⟨loop, run, alone, stored⟩ := @ProcessRun.expiring (ascii "0") 0 (by decide) (by decide)
  have single : loop.db.contents.deadlines = {0} := by rw [stored, deadlines_single]
  obtain ⟨loop', pass, sound', reachable', left⟩ := @ProcessRun.pass_deadlines _ _ _ run Env.counting
    le_rfl
  have few : (loop.db.contents.keys \ loop'.db.contents.keys).ncard < kMaxWorks :=
    stored ▸ removed_single _ _ _
  obtain ⟨same, left⟩ := left few
  have early : NoneDue 0 loop.db.contents := fun _ _ val _ _ => Nat.zero_le val
  refine ⟨loop, loop', run, single, pass, few, same.trans (Contents.unexpired_eq_self early), ?_⟩
  have due : 0 ∈ loop'.deadlines := by
    rw [left, single]
    exact .inr ⟨rfl, le_rfl⟩
  obtain ⟨none, -⟩ | ⟨earliest, least, timeout⟩ :=
    nextTimerMs_spec sound' (by decide) le_rfl reachable' 0
  · exact absurd none (Set.nonempty_iff_ne_empty.mp ⟨0, due⟩)
  · rwa [if_pos (least.2 due)] at timeout

end MiniRedis
