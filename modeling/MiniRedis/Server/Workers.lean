import MiniRedis.Server.Frame
import MiniRedis.Server.System

/-!
# Destruction by steps and destruction at once

A worker needs two steps for an entry. To the main thread the entry is gone with the first
of them, so that all it sees are states of runs in which a task is one step.
-/

namespace MiniRedis

open Relation

variable {W : Type} [DecidableEq W] {trace : List (PoolEvent W Addr)} {sys : System W} {clock : Nat}

/-! ## Entries between the two steps -/

section Gone

variable {state state' : Server} {gone : Finset Addr} {ent : Addr}

/-- `zset_clear` reads and writes the memory of one sorted set. -/
theorem entryClear_memory (run : entryClear state ent = some state') {other : Server}
    (type : other.type = state.type) (zset : other.zset = state.zset)
    (zmemory : other.zmemory = state.zmemory) :
    entryClear other ent = some { other with zmemory := state'.zmemory, zset := state'.zset } := by
  rw [entryClear] at run ⊢
  rw [type, zset, zmemory]
  split at run
  · rename_i sorted
    simp only [Option.bind_eq_bind, Option.bind_eq_some_iff] at run
    obtain ⟨⟨zmemory, zset⟩, cleared, same⟩ := run
    cases same
    rw [if_pos sorted, cleared]
    rfl
  · rename_i plain
    cases run
    rw [if_neg plain, ← zset, ← zmemory, ← type]

/-- With the first step of a worker the task has as good as run. -/
theorem runTask_of_entryClear (queued : ent ∈ state.tasks) (once : state.tasks.Nodup)
    (live : ent ∈ state.live) (present : ent ∉ gone) (run : entryClear state ent = some state') :
    runTask (state.without gone) ent = some (state'.without (insert ent gone)) := by
  have whole : state' = { state with zmemory := state'.zmemory, zset := state'.zset } :=
    Option.some.inj (run.symm.trans (entryClear_memory run rfl rfl rfl))
  have waits : ent ∈ (state.without gone).tasks := by simp [Server.without, queued, present]
  have allocated : ent ∈ state.live \ gone := Finset.mem_sdiff.mpr ⟨live, present⟩
  have left : (state.live \ gone).erase ent = state.live \ insert ent gone :=
    (Finset.sdiff_insert ..).symm
  have waiting : (state.without gone).tasks.erase ent = state.tasks.filter (· ∉ insert ent gone) := by
    rw [Server.without, (once.filter _).erase_eq_filter, List.filter_filter]
    refine List.filter_congr fun x _ => ?_
    by_cases same : x = ent <;> simp [same]
  have clears := @entryClear_memory _ _ _ run
    { state.without gone with tasks := (state.without gone).tasks.erase ent } rfl rfl rfl
  rw [runTask, guard, if_pos waits]
  change entryDelSync { state.without gone with tasks := (state.without gone).tasks.erase ent } ent = _
  rw [entryDelSync, clears]
  refine (entryDelete_of_mem allocated).trans ?_
  rw [whole]
  simp only [Server.without] at waiting ⊢
  rw [← left, ← waiting]

/-- With its second step nothing changes any more. -/
theorem without_entryDelete (once : state.tasks.Nodup) (present : ent ∈ gone)
    (run : entryDelete state ent = some state') :
    ({ state' with tasks := state'.tasks.erase ent } : Server).without (gone.erase ent) =
      state.without gone := by
  simp only [entryDelete, Option.bind_eq_bind, Option.bind_eq_some_iff] at run
  obtain ⟨-, -, same⟩ := run
  cases same
  have live : state.live.erase ent \ gone.erase ent = state.live \ gone := by
    ext x
    by_cases same : x = ent <;> simp [same, present]
  have tasks : (state.tasks.erase ent).filter (· ∉ gone.erase ent) = state.tasks.filter (· ∉ gone) := by
    rw [once.erase_eq_filter, List.filter_filter]
    refine List.filter_congr fun x _ => ?_
    by_cases same : x = ent <;> simp [same, present]
  simp only [Server.without, live, tasks]

end Gone

/-- The entries between the two steps. -/
def System.gone [Fintype W] (sys : System W) : Finset Addr :=
  (Finset.univ.filter fun worker => sys.cleared worker).biUnion fun worker =>
    (sys.pool.consume worker).inHand.toFinset

omit [DecidableEq W] in
theorem System.mem_gone [Fintype W] {ent : Addr} :
    ent ∈ sys.gone ↔ ∃ worker, sys.cleared worker = true ∧ ent ∈ (sys.pool.consume worker).inHand := by
  simp [System.gone]

/-- No step of the pool but the last one leaves a task. -/
theorem PoolStep.running {τ : Type} {pool pool' : ThreadPool W Unit τ} {events : List (PoolEvent W τ)}
    (step : PoolStep pool events pool') (unrun : ranTasks events = []) {worker : W} {task : τ}
    (ready : pool.consume worker = .run task) : pool'.consume worker = .run task := by
  have other : ∀ {mover : W} {consume : Consume τ}, pool.consume mover ≠ .run task →
      Function.update pool.consume mover consume worker = .run task := by
    intro mover consume moves
    rw [Function.update_of_ne, ready]
    rintro rfl
    exact moves ready
  cases step with
  | acquire mover ready' =>
      exact other (by rcases ready' with ready' | ready' <;> rw [ready'] <;> simp)
  | testEmpty mover ready' => exact other (by rw [ready']; simp)
  | testFull mover ready' => exact other (by rw [ready']; simp)
  | condWait mover ready' => exact other (by rw [ready']; simp)
  | wake mover ready' => exact other (by rw [ready']; simp)
  | front mover ready' => exact other (by rw [ready']; simp)
  | popFront mover ready' => exact other (by rw [ready']; simp)
  | unlock mover ready' => exact other (by rw [ready']; simp)
  | run mover ready' => simp [ranTasks, PoolEvent.ran?] at unrun
  | call | callerLock | pushBack | callerUnlock => exact ready
  | signal caller ready' consume signals =>
      rcases signals.only worker with same | ⟨asleep, -⟩
      · exact same.trans ready
      · rw [ready] at asleep
        cases asleep

/-- A worker between the two steps is inside a task. -/
theorem SystemRun.running (run : SystemRun trace sys clock) {worker : W}
    (second : sys.cleared worker = true) : ∃ ent, sys.pool.consume worker = .run ent := by
  induction run with
  | start => cases second
  | exec before free between env later cmd run added ih => exact ih second
  | pass before free between env later ih => exact ih second
  | expire before free inside run added ih => exact ih second
  | passEnd before free inside ends ih => exact ih second
  | call before idle next ih => exact ih second
  | pool before step uncalled unrun ih =>
      obtain ⟨ent, ready⟩ := ih second
      exact ⟨ent, step.running unrun ready⟩
  | clear before mover ready first run ih =>
      rcases eq_or_ne worker mover with rfl | other
      · exact ⟨_, ready⟩
      · exact ih ((Function.update_of_ne other _ _).symm.trans second)
  | delete before mover ready half run ih =>
      rcases eq_or_ne worker mover with rfl | other
      · exact absurd ((Function.update_self _ _ _).symm.trans second) Bool.false_ne_true
      · obtain ⟨ent, ready'⟩ := ih ((Function.update_of_ne other _ _).symm.trans second)
        exact ⟨ent, (Function.update_of_ne other _ _).trans ready'⟩

section Reduction

variable [Fintype W]

theorem SystemRun.mem_gone (run : SystemRun trace sys clock) {ent : Addr} :
    ent ∈ sys.gone ↔ ∃ worker, sys.cleared worker = true ∧ sys.pool.consume worker = .run ent := by
  rw [System.mem_gone]
  refine exists_congr fun worker => and_congr_right fun second => ?_
  obtain ⟨other, ready⟩ := run.running second
  simp [ready, Consume.inHand, eq_comm]

/-- They wait for their destruction. -/
theorem SystemRun.gone_queued (run : SystemRun trace sys clock) :
    ∀ ent ∈ sys.gone, ent ∈ sys.server.tasks := by
  intro ent member
  obtain ⟨worker, -, ready⟩ := run.mem_gone.mp member
  exact run.mem_tasks ready

theorem SystemRun.owned (run : SystemRun trace sys clock) : sys.server.Owned :=
  run.accounted.owned run.consistent

theorem SystemRun.gone_live (run : SystemRun trace sys clock) : sys.gone ⊆ sys.server.live :=
  fun ent member => (run.owned.accounted ent).mpr (.inr (run.gone_queued ent member))

theorem SystemRun.gone_unlinked (run : SystemRun trace sys clock) :
    ∀ ent ∈ sys.server.db.nodes, ent ∉ sys.gone := fun ent linked member =>
  run.consistent.unlinked ent (run.gone_queued ent member) linked

theorem SystemRun.gone_untimed (run : SystemRun trace sys clock) :
    ∀ item ∈ sys.server.ttlHeap.arr, item.ref ∉ sys.gone := fun item inArr member =>
  (run.owned.unreached _ (.inl (run.gone_queued _ member))).2.2 item inArr rfl

/-! ## Refinement -/

/-- The atomic run which a state in the expiry loop stands for: one in front of the pass, and
the rounds so far without the tasks which have run in between. -/
structure Server.Passing (server : Server) (now left : Nat) (state middle : Server) : Prop where
  env : ∃ env : Env, env.now = now
  reachable : ∃ clock ≤ now, ServerReachable state clock
  consistent : middle.Consistent now
  rounds : expireFrom now state kMaxWorks = expireFrom now middle left
  tasks : ReflTransGen TaskStep middle server

/-- Between two operations the server has been reached by an atomic run, but for the entries
which workers are about to delete. -/
structure System.Refines (sys : System W) (clock : Nat) : Prop where
  between : sys.pass = none → ∃ clock' ≤ clock, ServerReachable (sys.server.without sys.gone) clock'
  inside : ∀ now left, sys.pass = some (now, left) → now = clock ∧
    ∃ state middle, (sys.server.without sys.gone).Passing now left state middle

theorem ServerReachable.tasks {state state' : Server} (reachable : ServerReachable state clock)
    (tasks : ReflTransGen TaskStep state state') : ServerReachable state' clock := by
  induction tasks with
  | refl => exact reachable
  | tail before step ih =>
      obtain ⟨ent, run⟩ := step
      exact ih.worker ent run

namespace Server.Passing

variable {server state middle : Server} {now left : Nat}

/-- A round of the loop is a round of the atomic pass. -/
theorem round (passing : server.Passing now (left + 1) state middle) {server' : Server}
    (run : expireStep now server = some (some server')) :
    ∃ next, server'.Passing now left state next := by
  obtain ⟨-, rounds⟩ := expireStep_tasks passing.consistent passing.tasks now
  obtain ⟨-, stop⟩ | ⟨next, next', first, second, tasks⟩ := rounds
  · rw [run] at stop
    cases stop
  · rw [run] at second
    cases second
    have consistent : next.Consistent now := by
      obtain stop | ⟨_, _, _, same, -, consistent⟩ := expireStep_removes passing.consistent now
      · rw [first] at stop
        cases stop
      · rw [ExpireRound, first] at same
        cases same
        exact consistent
    refine ⟨next, passing.env, passing.reachable, consistent, ?_, tasks⟩
    rw [passing.rounds, expireFrom_succ, first]
    rfl

/-- Behind the loop the atomic pass has been completed, and then the tasks. -/
theorem completed (passing : server.Passing now left state middle)
    (ends : left = 0 ∨ expireStep now server = some none) : ServerReachable server now := by
  have finished : expireFrom now state kMaxWorks = some middle := by
    rw [passing.rounds]
    cases left with
    | zero => rfl
    | succ left =>
        have stop := ends.resolve_left (Nat.succ_ne_zero left)
        obtain ⟨-, ⟨first, -⟩ | ⟨_, _, -, second, -⟩⟩ :=
          expireStep_tasks passing.consistent passing.tasks now
        · rw [expireFrom_succ, first]
          rfl
        · rw [stop] at second
          cases second
  obtain ⟨env, rfl⟩ := passing.env
  obtain ⟨clock, past, reachable⟩ := passing.reachable
  exact (reachable.timers env past finished).tasks passing.tasks

end Server.Passing

/-- A first step makes one entry more. -/
theorem SystemRun.gone_clear (run : SystemRun trace sys clock) {worker : W} {ent : Addr}
    (ready : sys.pool.consume worker = .run ent) (server : Server) :
    ({ sys with server := server, cleared := Function.update sys.cleared worker true } : System W).gone =
      insert ent sys.gone := by
  ext other
  rw [System.mem_gone, Finset.mem_insert, run.mem_gone]
  constructor
  · rintro ⟨mover, second, held⟩
    rcases eq_or_ne mover worker with rfl | differs
    · exact .inl (by simpa [ready, Consume.inHand] using held)
    · have second' := (Function.update_of_ne differs _ _).symm.trans second
      obtain ⟨_, ready'⟩ := run.running second'
      exact .inr ⟨mover, second', by simp_all [Consume.inHand]⟩
  · rintro (rfl | ⟨mover, second, ready'⟩)
    · exact ⟨worker, Function.update_self _ _ _, by simp [ready, Consume.inHand]⟩
    · refine ⟨mover, ?_, by simp [ready', Consume.inHand]⟩
      rcases eq_or_ne mover worker with rfl | differs
      · exact Function.update_self _ _ _
      · exact (Function.update_of_ne differs _ _).trans second

/-- A second step makes one entry less. -/
theorem SystemRun.gone_delete (run : SystemRun trace sys clock) {worker : W} {ent : Addr}
    (ready : sys.pool.consume worker = .run ent) (server : Server) :
    ({ sys with
        server := server
        pool := sys.pool.setConsume worker .lock
        cleared := Function.update sys.cleared worker false } : System W).gone =
      sys.gone.erase ent := by
  ext other
  rw [System.mem_gone, Finset.mem_erase, run.mem_gone]
  constructor
  · rintro ⟨mover, second, held⟩
    rcases eq_or_ne mover worker with rfl | differs
    · exact absurd ((Function.update_self _ _ _).symm.trans second) Bool.false_ne_true
    · have second' := (Function.update_of_ne differs _ _).symm.trans second
      obtain ⟨found, ready'⟩ := run.running second'
      have held' : other ∈ (sys.pool.consume mover).inHand := by
        simpa [ThreadPool.setConsume, differs] using held
      obtain rfl : other = found := by simpa [ready', Consume.inHand] using held'
      refine ⟨?_, mover, second', ready'⟩
      rintro rfl
      exact differs (run.inHand_unique run.owned.queuedOnce ready' ready)
  · rintro ⟨differs, mover, second, ready'⟩
    have distinct : mover ≠ worker := by
      rintro rfl
      exact differs (by simpa [ready] using ready'.symm)
    refine ⟨mover, (Function.update_of_ne distinct _ _).trans second, ?_⟩
    simp [ThreadPool.setConsume, distinct, ready', Consume.inHand]

/-- Other steps of the pool change nothing about them. -/
theorem SystemRun.gone_pool (run : SystemRun trace sys clock) {pool : ThreadPool W Unit Addr}
    {events : List (PoolEvent W Addr)} (step : PoolStep sys.pool events pool)
    (unrun : ranTasks events = []) : ({ sys with pool := pool } : System W).gone = sys.gone := by
  ext ent
  rw [System.mem_gone, System.mem_gone]
  refine exists_congr fun worker => and_congr_right fun second => ?_
  obtain ⟨other, ready⟩ := run.running second
  rw [ready, step.running unrun ready]

theorem SystemRun.refines (run : SystemRun trace sys clock) : sys.Refines clock := by
  induction run with
  | start initial clock =>
      refine ⟨fun _ => ⟨clock, le_rfl, .initial ?_ clock⟩, fun now left inside => ?_⟩
      · exact ⟨initial.db, initial.arr, by simp [Server.without, initial.live],
          by simp [Server.without, initial.tasks], initial.nodes⟩
      · cases inside
  | @exec trace sys clock before free between env later cmd out out' server calls run added ih =>
      obtain ⟨clock', past, reachable⟩ := ih.between between
      refine ⟨fun _ => ⟨env.now, le_rfl, ?_⟩, ?_⟩
      · have reduced := @execCmd_without _ _ env sys.gone cmd out before.consistent before.gone_live
          before.gone_unlinked
        rw [run] at reduced
        exact reachable.exec (env.without sys.gone) (past.trans later) cmd reduced
      · intro now left inside
        rw [between] at inside
        cases inside
  | @pass trace sys clock before free between env later ih =>
      obtain ⟨clock', past, reachable⟩ := ih.between between
      refine ⟨fun between => ?_, fun now left inside => ?_⟩
      · cases between
      · cases inside
        exact ⟨rfl, _, _, ⟨env, rfl⟩, ⟨clock', past.trans later, reachable⟩,
          reachable.consistent.later (past.trans later), rfl, .refl⟩
  | @expire trace sys clock now left before free inside server calls run added ih =>
      obtain ⟨rfl, state, middle, passing⟩ := ih.inside _ _ inside
      refine ⟨fun between => ?_, fun now' left' same => ?_⟩
      · cases between
      · cases same
        have reduced := expireStep_without before.gone_untimed now
        rw [run] at reduced
        obtain ⟨next, passing'⟩ := passing.round reduced
        exact ⟨rfl, state, next, passing'⟩
  | @passEnd trace sys clock now left before free inside ends ih =>
      obtain ⟨rfl, state, middle, passing⟩ := ih.inside _ _ inside
      refine ⟨fun _ => ⟨_, le_rfl, passing.completed (ends.imp_right fun stop => ?_)⟩,
        fun now' left' between => ?_⟩
      · rw [expireStep_without before.gone_untimed, stop]
        rfl
      · cases between
  | call before idle next ih => exact ⟨ih.between, ih.inside⟩
  | @pool trace events sys clock before pool step uncalled unrun ih =>
      have same := before.gone_pool step unrun
      exact ⟨by rw [same]; exact ih.between, by rw [same]; exact ih.inside⟩
  | @clear trace sys clock before worker ent ready first server run ih =>
      have gone := before.gone_clear ready server
      have queued := before.mem_tasks ready
      have once := before.owned.queuedOnce
      have present : ent ∉ sys.gone := fun member => by
        obtain ⟨other, second, ready'⟩ := before.mem_gone.mp member
        rw [before.inHand_unique once ready' ready, first] at second
        cases second
      have atomic := runTask_of_entryClear queued once
        ((before.owned.accounted ent).mpr (.inr queued)) present run
      refine ⟨fun between => ?_, fun now left inside => ?_⟩
      · obtain ⟨clock', past, reachable⟩ := ih.between between
        rw [gone]
        exact ⟨clock', past, reachable.worker _ atomic⟩
      · obtain ⟨same, state, middle, passing⟩ := ih.inside now left inside
        rw [gone]
        exact ⟨same, state, middle, { passing with tasks := passing.tasks.tail ⟨_, atomic⟩ }⟩
  | @delete trace sys clock before worker ent ready second server run ih =>
      have gone := before.gone_delete ready { server with tasks := server.tasks.erase ent }
      have same := without_entryDelete before.owned.queuedOnce
        (before.mem_gone.mpr ⟨worker, second, ready⟩) run
      refine ⟨fun between => ?_, fun now left inside => ?_⟩
      · rw [gone, same]
        exact ih.between between
      · rw [gone, same]
        exact ih.inside now left inside

/-! ## Calls of `thread_pool_queue` -/

/-- A removal queues its entry or nothing. -/
theorem Server.Removes.calls {state unlinked state' : Server} {ent : Addr}
    (removes : state.Removes ent unlinked state') :
    ∃ calls : List Addr, calls.length ≤ 1 ∧ state'.tasks = state.tasks ++ calls := by
  obtain ⟨destroyed, queued, single, handsOver⟩ := removes.handsOver
  refine ⟨queued, ?_, handsOver.tasks⟩
  have length := congrArg List.length single
  rw [List.length_append, List.length_singleton] at length
  omega

/-- A command calls `thread_pool_queue` at most once. -/
theorem Server.Accounts.calls {state state' : Server} (accounts : state.Accounts state') :
    ∃ calls : List Addr, calls.length ≤ 1 ∧ state'.tasks = state.tasks ++ calls := by
  rcases accounts with ⟨created, keeps⟩ | ⟨ent, unlinked, removes⟩
  · exact ⟨[], Nat.zero_le _, by rw [keeps.tasks, List.append_nil]⟩
  · exact removes.calls

/-! ## Every interleaving -/

/-- What holds at every point of every interleaving. -/
structure System.Sound (sys : System W) (clock : Nat) : Prop where
  /-- Between two operations the tasks of the entries which have been cleared might have run in
  one step, there and then. -/
  refines : sys.pass = none → ∃ clock' ≤ clock, ServerReachable (sys.server.without sys.gone) clock'
  /-- Nothing leads to an entry which waits for its destruction, and it is in one place. -/
  owned : sys.server.Owned
  balance : (sys.server.tasks : Multiset Addr) = (sys.calls : Multiset Addr) + sys.pool.inside
  tasks : ∀ worker ent, sys.pool.consume worker = .run ent →
    if sys.cleared worker then ∃ server, entryDelete sys.server ent = some server
    else ∃ server, entryClear sys.server ent = some server
  commands : ∀ (env : Env) (cmd : List Bytes) (out : Bytes), clock ≤ env.now → ¬NegativeTtl cmd →
    ∃ server reply calls, execCmd env sys.server cmd out = some (server, out ++ reply.encode) ∧
      SpecStep env sys.server.contents cmd reply server.contents ∧ sys.server.Accounts server ∧
      calls.length ≤ 1 ∧ server.tasks = sys.server.tasks ++ calls
  turns : ∀ now, expireStep now sys.server = some none ∨
    ∃ ent unlinked server calls, ExpireRound now sys.server server ∧
      sys.server.Removes ent unlinked server ∧ calls.length ≤ 1 ∧
      server.tasks = sys.server.tasks ++ calls
  /-- Once all tasks have run, what is allocated is what the table holds. -/
  settled : sys.calls = [] → sys.pool.inside = 0 →
    ∀ ent, ent ∈ sys.server.live ↔ ent ∈ sys.server.db.nodes

end Reduction

end MiniRedis
