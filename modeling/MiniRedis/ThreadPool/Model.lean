import Mathlib

/-!
# The thread pool (`thread_pool.cpp`)

Workers `W` run `consume` and callers `P` run `thread_pool_queue`, one statement a step.
The mutex and the condition variable behave as POSIX has it: waiting gives up the mutex
in one step with going to sleep, a waiter may wake up by itself, and a signal wakes at
least one waiter if there is one.
-/

namespace MiniRedis

variable {W P τ : Type}

/-- The statement of `consume` at which a worker is. -/
inductive Consume (τ : Type) where
  | lock
  /-- The test of `while (tp->queue.empty())`. -/
  | test
  | condWait
  /-- Inside `pthread_cond_wait`. -/
  | asleep
  /-- Inside `pthread_cond_wait`, to reclaim the mutex. -/
  | woken
  | front
  | popFront (task : τ)
  | unlock (task : τ)
  | run (task : τ)

/-- The statement of `thread_pool_queue` at which a caller is. -/
inductive Produce (τ : Type) where
  | idle
  | lock (task : τ)
  | pushBack (task : τ)
  | unlock
  | signal

/-- The queue, the mutex, and where each thread is. Who waits for the condition variable is known by
that. -/
structure ThreadPool (W P τ : Type) where
  queue : List τ := []
  /-- The thread which has locked the mutex. -/
  mu : Option (W ⊕ P) := none
  consume : W → Consume τ := fun _ => .lock
  produce : P → Produce τ := fun _ => .idle

/-- What is visible of a step. -/
inductive PoolEvent (W τ : Type) where
  | queued (task : τ)
  | taken (worker : W) (task : τ)
  | ran (worker : W) (task : τ)

variable [DecidableEq W] [DecidableEq P]

/-- A worker goes on. -/
def ThreadPool.setConsume (pool : ThreadPool W P τ) (worker : W) (consume : Consume τ) :
    ThreadPool W P τ :=
  { pool with consume := Function.update pool.consume worker consume }

/-- A caller goes on. -/
def ThreadPool.setProduce (pool : ThreadPool W P τ) (caller : P) (produce : Produce τ) :
    ThreadPool W P τ :=
  { pool with produce := Function.update pool.produce caller produce }

/-- The effect of `pthread_cond_signal` on the workers. -/
structure Signals (before after : W → Consume τ) : Prop where
  only : ∀ worker, after worker = before worker ∨
    before worker = .asleep ∧ after worker = .woken
  some : (∃ worker, before worker = .asleep) → ∃ worker, before worker = .asleep ∧
    after worker = .woken

/-- The statements of `consume` and `thread_pool_queue`, one step for each. -/
inductive PoolStep : ThreadPool W P τ → List (PoolEvent W τ) → ThreadPool W P τ → Prop where
  | acquire {pool : ThreadPool W P τ} (worker : W)
      (ready : pool.consume worker = .lock ∨ pool.consume worker = .woken) (free : pool.mu = none) :
      PoolStep pool [] { pool.setConsume worker .test with mu := some (.inl worker) }
  | testEmpty {pool : ThreadPool W P τ} (worker : W) (ready : pool.consume worker = .test)
      (empty : pool.queue = []) : PoolStep pool [] (pool.setConsume worker .condWait)
  | testFull {pool : ThreadPool W P τ} (worker : W) (ready : pool.consume worker = .test)
      (full : pool.queue ≠ []) : PoolStep pool [] (pool.setConsume worker .front)
  | condWait {pool : ThreadPool W P τ} (worker : W) (ready : pool.consume worker = .condWait) :
      PoolStep pool [] { pool.setConsume worker .asleep with mu := none }
  /-- A spurious wake-up. -/
  | wake {pool : ThreadPool W P τ} (worker : W) (ready : pool.consume worker = .asleep) :
      PoolStep pool [] (pool.setConsume worker .woken)
  | front {pool : ThreadPool W P τ} (worker : W) {task : τ} (ready : pool.consume worker = .front)
      (first : pool.queue.head? = some task) : PoolStep pool [] (pool.setConsume worker (.popFront task))
  | popFront {pool : ThreadPool W P τ} (worker : W) {task : τ}
      (ready : pool.consume worker = .popFront task) :
      PoolStep pool [.taken worker task]
        { pool.setConsume worker (.unlock task) with queue := pool.queue.tail }
  | unlock {pool : ThreadPool W P τ} (worker : W) {task : τ}
      (ready : pool.consume worker = .unlock task) :
      PoolStep pool [] { pool.setConsume worker (.run task) with mu := none }
  | run {pool : ThreadPool W P τ} (worker : W) {task : τ} (ready : pool.consume worker = .run task) :
      PoolStep pool [.ran worker task] (pool.setConsume worker .lock)
  | call {pool : ThreadPool W P τ} (caller : P) (task : τ) (ready : pool.produce caller = .idle) :
      PoolStep pool [] (pool.setProduce caller (.lock task))
  | callerLock {pool : ThreadPool W P τ} (caller : P) {task : τ}
      (ready : pool.produce caller = .lock task) (free : pool.mu = none) :
      PoolStep pool [] { pool.setProduce caller (.pushBack task) with mu := some (.inr caller) }
  | pushBack {pool : ThreadPool W P τ} (caller : P) {task : τ}
      (ready : pool.produce caller = .pushBack task) :
      PoolStep pool [.queued task]
        { pool.setProduce caller .unlock with queue := pool.queue ++ [task] }
  | callerUnlock {pool : ThreadPool W P τ} (caller : P) (ready : pool.produce caller = .unlock) :
      PoolStep pool [] { pool.setProduce caller .signal with mu := none }
  | signal {pool : ThreadPool W P τ} (caller : P) (ready : pool.produce caller = .signal)
      (consume : W → Consume τ) (signals : Signals pool.consume consume) :
      PoolStep pool [] { pool.setProduce caller .idle with consume := consume }

/-- The states of any run, with the events so far. -/
inductive PoolRun : List (PoolEvent W τ) → ThreadPool W P τ → Prop where
  | start : PoolRun [] {}
  | step {trace events : List (PoolEvent W τ)} {pool pool' : ThreadPool W P τ}
      (before : PoolRun trace pool) (step : PoolStep pool events pool') :
      PoolRun (trace ++ events) pool'

end MiniRedis
