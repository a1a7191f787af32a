import MiniRedis.Server.Lifecycle
import MiniRedis.ThreadPool.Reachable

/-!
# The main thread and the workers

The main thread runs commands and turns of the expiry loop; `entry_del` hands large sorted
sets to the thread pool as its last action. The workers run `entry_del_sync` in its two
steps, at any moment.
-/

namespace MiniRedis

/-! ## The system -/

/-- The task which a caller has not yet put into the queue. -/
def Produce.inCall {τ : Type} : Produce τ → List τ
  | .lock task => [task]
  | .pushBack task => [task]
  | _ => []

/-- The only caller of `thread_pool_queue` is the main thread. -/
structure System (W : Type) where
  server : Server
  pool : ThreadPool W Unit Addr := {}
  /-- The calls of `thread_pool_queue` which the operation under way has still to make. -/
  calls : List Addr := []
  /-- Inside the expiry loop: its clock reading, and the deletions which are left. -/
  pass : Option (Nat × Nat) := none
  /-- Inside `entry_del_sync`: whether a worker has done the first of its two steps. -/
  cleared : W → Bool := fun _ => false

variable {W : Type} [DecidableEq W]

/-- The main thread is not inside `thread_pool_queue`. -/
structure System.Free (sys : System W) : Prop where
  calls : sys.calls = []
  idle : sys.pool.produce () = .idle

/-- The states of any run with the last clock reading, and the events of the pool so far. -/
inductive SystemRun : List (PoolEvent W Addr) → System W → Nat → Prop where
  | start {server : Server} (initial : server.Initial) (clock : Nat) :
      SystemRun [] { server := server } clock
  | exec {trace : List (PoolEvent W Addr)} {sys : System W} {clock : Nat}
      (before : SystemRun trace sys clock) (free : sys.Free) (between : sys.pass = none) (env : Env)
      (later : clock ≤ env.now) (cmd : List Bytes) {out out' : Bytes} {server : Server}
      {calls : List Addr} (run : execCmd env sys.server cmd out = some (server, out'))
      (added : server.tasks = sys.server.tasks ++ calls) :
      SystemRun trace { sys with
        server := server
        calls := calls } env.now
  | pass {trace : List (PoolEvent W Addr)} {sys : System W} {clock : Nat}
      (before : SystemRun trace sys clock) (free : sys.Free) (between : sys.pass = none) (env : Env)
      (later : clock ≤ env.now) : SystemRun trace { sys with pass := some (env.now, kMaxWorks) } env.now
  | expire {trace : List (PoolEvent W Addr)} {sys : System W} {clock now left : Nat}
      (before : SystemRun trace sys clock) (free : sys.Free)
      (inside : sys.pass = some (now, left + 1))
      {server : Server} {calls : List Addr} (run : expireStep now sys.server = some (some server))
      (added : server.tasks = sys.server.tasks ++ calls) :
      SystemRun trace { sys with
        server := server
        calls := calls
        pass := some (now, left) } clock
  | passEnd {trace : List (PoolEvent W Addr)} {sys : System W} {clock now left : Nat}
      (before : SystemRun trace sys clock) (free : sys.Free) (inside : sys.pass = some (now, left))
      (ends : left = 0 ∨ expireStep now sys.server = some none) :
      SystemRun trace { sys with pass := none } clock
  | call {trace : List (PoolEvent W Addr)} {sys : System W} {clock : Nat}
      (before : SystemRun trace sys clock) (idle : sys.pool.produce () = .idle) {ent : Addr}
      {calls : List Addr} (next : sys.calls = ent :: calls) :
      SystemRun trace { sys with
        pool := sys.pool.setProduce () (.lock ent)
        calls := calls } clock
  /-- Any statement of a worker or of `thread_pool_queue`, but for those above and below. -/
  | pool {trace events : List (PoolEvent W Addr)} {sys : System W} {clock : Nat}
      (before : SystemRun trace sys clock) {pool : ThreadPool W Unit Addr}
      (step : PoolStep sys.pool events pool)
      (uncalled : sys.pool.produce () = .idle → pool.produce () = .idle)
      (unrun : ranTasks events = []) :
      SystemRun (trace ++ events) { sys with pool := pool } clock
  /-- A worker in `entry_del_task_fn` clears the sorted set of its entry, if it is one. -/
  | clear {trace : List (PoolEvent W Addr)} {sys : System W} {clock : Nat}
      (before : SystemRun trace sys clock) (worker : W) {ent : Addr}
      (ready : sys.pool.consume worker = .run ent) (first : sys.cleared worker = false)
      {server : Server} (run : entryClear sys.server ent = some server) :
      SystemRun trace { sys with
        server := server
        cleared := Function.update sys.cleared worker true } clock
  /-- Then it deletes the entry and returns. -/
  | delete {trace : List (PoolEvent W Addr)} {sys : System W} {clock : Nat}
      (before : SystemRun trace sys clock) (worker : W) {ent : Addr}
      (ready : sys.pool.consume worker = .run ent) (second : sys.cleared worker = true)
      {server : Server} (run : entryDelete sys.server ent = some server) :
      SystemRun (trace ++ [.ran worker ent]) { sys with
        server := { server with tasks := server.tasks.erase ent }
        pool := sys.pool.setConsume worker .lock
        cleared := Function.update sys.cleared worker false } clock

variable {trace : List (PoolEvent W Addr)} {sys : System W} {clock : Nat}

/-- The pool of a system is a thread pool. -/
theorem SystemRun.poolRun (run : SystemRun trace sys clock) : PoolRun trace sys.pool := by
  induction run with
  | start => exact .start
  | exec before free between env later cmd run added ih => exact ih
  | pass before free between env later ih => exact ih
  | expire before free inside run added ih => exact ih
  | passEnd before free inside ends ih => exact ih
  | @call trace sys clock before idle ent calls next ih =>
      have step := ih.step (.call () ent idle)
      rwa [List.append_nil] at step
  | pool before step uncalled unrun ih => exact ih.step step
  | clear before worker ready first run ih => exact ih
  | delete before worker ready second run ih => exact ih.step (.run worker ready)

/-! ## Tasks on their way -/

/-- A call ends with its task in the queue. -/
theorem PoolStep.inCall {τ : Type} {pool pool' : ThreadPool W Unit τ}
    {events : List (PoolEvent W τ)}
    (step : PoolStep pool events pool')
    (uncalled : pool.produce () = .idle → pool'.produce () = .idle) :
    (pool.produce ()).inCall = queuedTasks events ++ (pool'.produce ()).inCall := by
  cases step with
  | call caller task ready =>
      have started := uncalled ready
      simp [ThreadPool.setProduce] at started
  | callerLock caller ready free =>
      simp [ThreadPool.setProduce, ready, Produce.inCall, queuedTasks]
  | pushBack caller ready =>
      simp [ThreadPool.setProduce, ready, Produce.inCall, queuedTasks, PoolEvent.queued?]
  | callerUnlock caller ready =>
      simp [ThreadPool.setProduce, ready, Produce.inCall, queuedTasks]
  | signal caller ready consume signals =>
      simp [ThreadPool.setProduce, ready, Produce.inCall, queuedTasks]
  | _ => simp [ThreadPool.setConsume, queuedTasks, PoolEvent.queued?, List.filterMap_cons]

section Balance

variable [Fintype W] {τ : Type}

/-- The tasks which the workers have taken and not yet run. -/
def ThreadPool.hands (pool : ThreadPool W Unit τ) : Multiset τ :=
  ∑ worker, ((pool.consume worker).inHand : Multiset τ)

/-- The tasks which the pool has been given and which have not run. -/
def ThreadPool.inside (pool : ThreadPool W Unit τ) : Multiset τ :=
  ((pool.produce ()).inCall : Multiset τ) + (pool.queue : Multiset τ) + pool.hands

/-- Every task belongs to one worker. -/
theorem sum_tasksOf (tasks : List (W × τ)) :
    ∑ worker, (tasksOf worker tasks : Multiset τ) = (tasks.map Prod.snd : List τ) := by
  induction tasks with
  | nil => simp [tasksOf]
  | cons task tasks ih =>
      have split : ∀ worker, (tasksOf worker (task :: tasks) : Multiset τ) =
          (if worker = task.1 then {task.2} else 0) + (tasksOf worker tasks : Multiset τ) := by
        intro worker
        by_cases own : task.1 = worker
        · simp [tasksOf, own]
        · simp [tasksOf, own, Ne.symm own]
      simp only [split, Finset.sum_add_distrib, ih, Finset.sum_ite_eq', Finset.mem_univ, if_true]
      rfl

/-- A task leaves the pool when it runs. -/
theorem PoolStep.inside {pool pool' : ThreadPool W Unit τ} {events : List (PoolEvent W τ)}
    (step : PoolStep pool events pool') (invariant : pool.Invariant)
    (uncalled : pool.produce () = .idle → pool'.produce () = .idle) :
    pool.inside = ((ranTasks events).map Prod.snd : List τ) + pool'.inside := by
  have calls := congrArg (fun tasks : List τ => (tasks : Multiset τ)) (step.inCall uncalled)
  have queue := congrArg (fun tasks : List τ => (tasks : Multiset τ)) (step.queue invariant)
  have hands : pool.hands + ((takenTasks events).map Prod.snd : List τ) =
      ((ranTasks events).map Prod.snd : List τ) + pool'.hands := by
    rw [← sum_tasksOf, ← sum_tasksOf, ThreadPool.hands, ThreadPool.hands, ← Finset.sum_add_distrib,
      ← Finset.sum_add_distrib]
    refine Finset.sum_congr rfl fun worker _ => ?_
    rw [Multiset.coe_add, Multiset.coe_add, step.inHand worker]
  simp only [← Multiset.coe_add] at calls queue
  rw [ThreadPool.inside, ThreadPool.inside, calls]
  -- what is queued and what is taken cancels
  refine @add_right_cancel (Multiset τ) _ _ _
    (((takenTasks events).map Prod.snd : List τ) : Multiset τ) _ ?_
  calc _ = ((pool'.produce ()).inCall : Multiset τ) +
    ((pool.queue : Multiset τ) + (queuedTasks events : Multiset τ)) +
        (pool.hands + ((takenTasks events).map Prod.snd : List τ)) := by abel
    _ = _ := by
      rw [queue, hands]
      abel

theorem SystemRun.balance (run : SystemRun trace sys clock) :
    (sys.server.tasks : Multiset Addr) = (sys.calls : Multiset Addr) + sys.pool.inside := by
  have start : ThreadPool.inside ({} : ThreadPool W Unit Addr) = 0 := by
    simp [ThreadPool.inside, ThreadPool.hands, Produce.inCall, Consume.inHand]
  induction run with
  | start initial clock => simp [initial.tasks, start]
  | exec before free between env later cmd run added ih =>
      rw [free.calls] at ih
      rw [added, ← Multiset.coe_add, ih]
      simp [add_comm]
  | pass before free between env later ih => exact ih
  | expire before free inside run added ih =>
      rw [free.calls] at ih
      rw [added, ← Multiset.coe_add, ih]
      simp [add_comm]
  | passEnd before free inside ends ih => exact ih
  | @call trace sys clock before idle ent calls next ih =>
      rw [ih, next, ← Multiset.cons_coe, ← Multiset.singleton_add]
      simp only [ThreadPool.inside, ThreadPool.hands, ThreadPool.setProduce, idle,
        Function.update_self,
        Produce.inCall, Multiset.coe_nil, Multiset.coe_singleton]
      abel
  | pool before step uncalled unrun ih =>
      rw [ih, step.inside before.poolRun.invariant uncalled, unrun]
      simp
  | @clear trace sys clock before worker ent ready first server run ih =>
      obtain ⟨-, -, tasks, -⟩ := entryClear_apart run
      rw [tasks]
      exact ih
  | @delete trace sys clock before worker ent ready second server run ih =>
      have step := (PoolStep.run worker ready).inside before.poolRun.invariant fun idle => idle
      have same : server.tasks = sys.server.tasks := by
        simp only [entryDelete, Option.bind_eq_bind, Option.bind_eq_some_iff] at run
        obtain ⟨-, -, same⟩ := run
        cases same
        rfl
      change ((server.tasks.erase ent : List Addr) : Multiset Addr) = _
      rw [← Multiset.coe_erase, same, ih, step]
      simp [ranTasks, PoolEvent.ran?]

/-- What a worker has taken is waiting for its destruction. -/
theorem SystemRun.mem_tasks (run : SystemRun trace sys clock) {worker : W} {ent : Addr}
    (ready : sys.pool.consume worker = .run ent) : ent ∈ sys.server.tasks := by
  have held : ent ∈ sys.pool.hands := by
    rw [ThreadPool.hands, Multiset.mem_sum]
    exact ⟨worker, Finset.mem_univ worker, by simp [ready, Consume.inHand]⟩
  rw [← Multiset.mem_coe, run.balance, ThreadPool.inside, Multiset.mem_add, Multiset.mem_add]
  exact .inr (.inr held)

/-- As long as no task is waiting twice, no two workers have the same one. -/
theorem SystemRun.inHand_unique (run : SystemRun trace sys clock) (once : sys.server.tasks.Nodup)
    {worker other : W} {ent : Addr} (ready : sys.pool.consume worker = .run ent)
    (ready' : sys.pool.consume other = .run ent) : worker = other := by
  by_contra distinct
  rw [← Multiset.coe_nodup, run.balance, ThreadPool.inside] at once
  have hands := (Multiset.nodup_add.mp (Multiset.nodup_add.mp once).2.1).2.1
  rw [ThreadPool.hands, ← Finset.add_sum_erase _ _ (Finset.mem_univ worker)] at hands
  have held : ent ∈ ((sys.pool.consume worker).inHand : Multiset Addr) := by
    simp [ready, Consume.inHand]
  apply Multiset.disjoint_left.mp (Multiset.nodup_add.mp hands).2.2 held
  rw [Multiset.mem_sum]
  exact ⟨other, Finset.mem_erase.mpr ⟨Ne.symm distinct, Finset.mem_univ _⟩,
    by simp [ready', Consume.inHand]⟩

/-! ## Consistency -/

/-- At every point of every interleaving the database is consistent. -/
theorem SystemRun.consistent (run : SystemRun trace sys clock) : sys.server.Consistent clock := by
  induction run with
  | start initial clock => exact initial.consistent clock
  | exec before free between env later cmd run added ih => exact ih.command later run
  | pass before free between env later ih => exact ih.later later
  | @expire trace sys clock now left before free inside server calls run added ih =>
      obtain stop | ⟨_, _, _, round, -, consistent⟩ := expireStep_removes ih now
      · rw [run] at stop
        cases stop
      · rw [ExpireRound, run] at round
        cases round
        exact consistent
  | passEnd before free inside ends ih => exact ih
  | call before idle next ih => exact ih
  | pool before step uncalled unrun ih => exact ih
  | clear before worker ready first run ih =>
      obtain ⟨entries, deadline, tree, invariant⟩ := ih
      obtain ⟨_, run', consistent⟩ := entryClear_spec invariant (before.mem_tasks ready)
      rw [run] at run'
      cases run'
      exact consistent
  | delete before worker ready second run ih =>
      obtain ⟨entries, deadline, tree, invariant⟩ := ih
      obtain ⟨run', consistent⟩ := entryDelete_spec invariant (before.mem_tasks ready)
      rw [run] at run'
      cases run'
      exact consistent

/-- Every entry which has been allocated is in the table or waits for its destruction. -/
theorem SystemRun.accounted (run : SystemRun trace sys clock) : sys.server.Accounted := by
  induction run with
  | start initial clock => exact (ServerReachable.initial initial clock).accounted
  | exec before free between env later cmd run added ih =>
      have consistent := before.consistent
      exact (execCmd_accounts consistent run).accounted ih consistent.unlinked
  | pass before free between env later ih => exact ih
  | @expire trace sys clock now left before free inside server calls run added ih =>
      exact (ih.expireRounds before.consistent (.single run)).2
  | passEnd before free inside ends ih => exact ih
  | call before idle next ih => exact ih
  | pool before step uncalled unrun ih => exact ih
  | clear before worker ready first run ih =>
      obtain ⟨db, -, tasks, live⟩ := entryClear_apart run
      intro ent
      rw [db, tasks, live]
      exact ih ent
  | @delete trace sys clock before worker ent ready second server run ih =>
      have queued := before.mem_tasks ready
      have unlinked := before.consistent.unlinked ent queued
      obtain ⟨entries, deadline, tree, invariant⟩ := before.consistent
      obtain ⟨run', -⟩ := entryDelete_spec invariant queued
      rw [run] at run'
      cases run'
      intro other
      rw [Finset.mem_erase, invariant.allocated.nodup.mem_erase_iff, ih other]
      by_cases same : other = ent <;> simp [same, unlinked]

end Balance

end MiniRedis
