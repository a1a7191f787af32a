import MiniRedis.Library.Mutex
import MiniRedis.ThreadPool.Model

/-!
# The thread pool over all interleavings

The mutex keeps what a worker has seen of the queue true until it acts on it. A task
queued while every worker sleeps still has its signal to come.
-/

namespace MiniRedis

open Mutex

variable {W P τ : Type}

/-! ## Counting events -/

def PoolEvent.queued? : PoolEvent W τ → Option τ
  | .queued task => some task
  | _ => none

def PoolEvent.taken? : PoolEvent W τ → Option (W × τ)
  | .taken worker task => some (worker, task)
  | _ => none

def PoolEvent.ran? : PoolEvent W τ → Option (W × τ)
  | .ran worker task => some (worker, task)
  | _ => none

/-- The tasks queued, in order. -/
def queuedTasks (trace : List (PoolEvent W τ)) : List τ := trace.filterMap PoolEvent.queued?

/-- The tasks taken, in order, each with the worker which took it. -/
def takenTasks (trace : List (PoolEvent W τ)) : List (W × τ) := trace.filterMap PoolEvent.taken?

/-- The tasks run, in order, each with the worker which ran it. -/
def ranTasks (trace : List (PoolEvent W τ)) : List (W × τ) := trace.filterMap PoolEvent.ran?

/-- The tasks of one worker. -/
def tasksOf [DecidableEq W] (worker : W) (tasks : List (W × τ)) : List τ :=
  (tasks.filter fun task => task.1 = worker).map Prod.snd

/-- The task which a worker has taken and not yet run. -/
def Consume.inHand : Consume τ → List τ
  | .unlock task => [task]
  | .run task => [task]
  | _ => []

/-! ## The invariant -/

/-- The statements between lock and unlock. -/
def Consume.Locked : Consume τ → Prop
  | .test | .condWait | .front | .popFront _ | .unlock _ => True
  | _ => False

def Produce.Locked : Produce τ → Prop
  | .pushBack _ | .unlock => True
  | _ => False

/-- A signal for a task in the queue is still to be issued. -/
def Produce.OwesSignal : Produce τ → Prop
  | .unlock | .signal => True
  | _ => False

/-- What a worker knows of the queue. -/
def Consume.Knows (queue : List τ) : Consume τ → Prop
  | .condWait => queue = []
  | .front => queue ≠ []
  | .popFront task => queue.head? = some task
  | _ => True

def ThreadPool.Locked (pool : ThreadPool W P τ) : W ⊕ P → Prop
  | .inl worker => (pool.consume worker).Locked
  | .inr caller => (pool.produce caller).Locked

structure ThreadPool.Invariant (pool : ThreadPool W P τ) : Prop where
  mutex : Exclusive pool.mu pool.Locked
  knows : ∀ worker, (pool.consume worker).Knows pool.queue
  awake : pool.queue ≠ [] → (∀ worker, pool.consume worker = .asleep) →
    (∃ caller, (pool.produce caller).OwesSignal) ∨ IsEmpty W

theorem Consume.knows_of_not_locked {consume : Consume τ} (outside : ¬consume.Locked)
    (queue : List τ) : consume.Knows queue := by
  cases consume <;> first | trivial | exact (outside trivial).elim

namespace ThreadPool.Invariant

variable {pool : ThreadPool W P τ}

theorem start : ThreadPool.Invariant ({} : ThreadPool W P τ) where
  mutex := .free fun thread => by cases thread <;> exact id
  knows _ := trivial
  awake full := absurd rfl full

section Worker

variable [DecidableEq W] {worker : W} {consume : Consume τ}

/-- A worker which holds the mutex, or finds it free, may change the queue. -/
theorem workerStep (invariant : pool.Invariant) {queue : List τ} {mu : Option (W ⊕ P)}
    (entitled : Entitled pool.mu (.inl worker))
    (moved : consume.Locked ∧ mu = some (.inl worker) ∨ ¬consume.Locked ∧ mu = none)
    (knows : consume.Knows queue) (awake : consume ≠ .asleep ∨ queue = []) :
    ThreadPool.Invariant
      { pool.setConsume worker consume with queue := queue, mu := mu } := by
  constructor
  · apply invariant.mutex.move entitled
    · rintro (other | caller) distinct
      · simp only [Locked, setConsume]
        rw [Function.update_of_ne (by simpa using distinct)]
      · exact Iff.rfl
    · simpa [Locked, setConsume] using moved
  · intro other
    by_cases same : other = worker
    · subst same
      simpa [setConsume] using knows
    · simp only [setConsume]
      rw [Function.update_of_ne same]
      have outside : ¬pool.Locked (.inl other) :=
        invariant.mutex.outside entitled (by simpa using same)
      exact Consume.knows_of_not_locked outside queue
  · intro full sleeping
    have own := sleeping worker
    simp only [setConsume, Function.update_self] at own
    rcases awake with awake | empty
    · exact absurd own awake
    · exact absurd empty full

/-- Outside the mutex a worker moves without touching it. -/
theorem workerOutside (invariant : pool.Invariant)
    (before : ¬(pool.consume worker).Locked) (after : ¬consume.Locked) (awake : consume ≠ .asleep) :
    (pool.setConsume worker consume).Invariant := by
  constructor
  · apply invariant.mutex.congr
    rintro (other | caller)
    · by_cases same : other = worker
      · subst same
        simp [Locked, setConsume, before, after]
      · simp [Locked, setConsume, same]
    · exact Iff.rfl
  · intro other
    by_cases same : other = worker
    · subst same
      simpa [setConsume] using Consume.knows_of_not_locked after pool.queue
    · simpa [setConsume, same] using invariant.knows other
  · intro _ sleeping
    have own := sleeping worker
    simp only [setConsume, Function.update_self] at own
    exact absurd own awake

end Worker

section Caller

variable [DecidableEq P] {caller : P} {produce : Produce τ}

/-- A caller may change it too, and owes a signal for what it adds. -/
theorem callerStep (invariant : pool.Invariant) {queue : List τ} {mu : Option (W ⊕ P)}
    (entitled : Entitled pool.mu (.inr caller))
    (moved : produce.Locked ∧ mu = some (.inr caller) ∨ ¬produce.Locked ∧ mu = none)
    (owes : produce.OwesSignal ∨ queue = pool.queue ∧ ¬(pool.produce caller).OwesSignal) :
    ThreadPool.Invariant
      { pool.setProduce caller produce with queue := queue, mu := mu } := by
  constructor
  · apply invariant.mutex.move entitled
    · rintro (worker | other) distinct
      · exact Iff.rfl
      · simp only [Locked, setProduce]
        rw [Function.update_of_ne (by simpa using distinct)]
    · simpa [Locked, setProduce] using moved
  · intro worker
    have outside : ¬pool.Locked (.inl worker) := invariant.mutex.outside entitled (by simp)
    exact Consume.knows_of_not_locked outside queue
  · intro full sleeping
    rcases owes with owes | ⟨rfl, settled⟩
    · exact .inl ⟨caller, by simpa [setProduce] using owes⟩
    · rcases invariant.awake full sleeping with ⟨other, owes⟩ | none
      · have distinct : other ≠ caller := fun same => settled (same ▸ owes)
        exact .inl ⟨other, by simpa [setProduce, distinct] using owes⟩
      · exact .inr none

/-- Outside the mutex a caller which owes no signal moves without touching it. -/
theorem callerOutside (invariant : pool.Invariant) (before : ¬(pool.produce caller).Locked)
    (after : ¬produce.Locked) (settled : ¬(pool.produce caller).OwesSignal) :
    (pool.setProduce caller produce).Invariant := by
  constructor
  · apply invariant.mutex.congr
    rintro (worker | other)
    · exact Iff.rfl
    · by_cases same : other = caller
      · subst same
        simp [Locked, setProduce, before, after]
      · simp [Locked, setProduce, same]
  · exact invariant.knows
  · intro full sleeping
    rcases invariant.awake full sleeping with ⟨other, owes⟩ | none
    · have distinct : other ≠ caller := fun same => settled (same ▸ owes)
      exact .inl ⟨other, by simpa [setProduce, distinct] using owes⟩
    · exact .inr none

/-- A signal wakes a worker, or finds none asleep. -/
theorem signalStep (invariant : pool.Invariant) (ready : pool.produce caller = .signal)
    {consume : W → Consume τ} (signals : Signals pool.consume consume) :
    ThreadPool.Invariant { pool.setProduce caller .idle with consume := consume } := by
  have moved : ∀ worker, (consume worker).Locked ↔ (pool.consume worker).Locked := by
    intro worker
    rcases signals.only worker with same | ⟨asleep, woken⟩
    · rw [same]
    · rw [asleep, woken]
      exact Iff.rfl
  constructor
  · apply invariant.mutex.congr
    rintro (worker | other)
    · exact moved worker
    · by_cases same : other = caller
      · subst same
        simp [Locked, setProduce, ready, Produce.Locked]
      · simp [Locked, setProduce, same]
  · intro worker
    rcases signals.only worker with same | ⟨-, woken⟩
    · simpa only [setProduce, same] using invariant.knows worker
    · simp only [woken]
      trivial
  · intro _ sleeping
    -- nobody slept before either, or else someone is woken now
    have none : ∀ worker : W, False := by
      intro worker
      have slept : ∃ worker, pool.consume worker = .asleep := by
        refine ⟨worker, ?_⟩
        rcases signals.only worker with same | ⟨asleep, -⟩
        · rw [← same]
          exact sleeping worker
        · exact asleep
      obtain ⟨other, -, woken⟩ := signals.some slept
      have asleep := sleeping other
      simp only [woken] at asleep
      cases asleep
    exact .inr ⟨none⟩

end Caller

variable [DecidableEq W] [DecidableEq P]

theorem step {pool' : ThreadPool W P τ} {events : List (PoolEvent W τ)}
    (invariant : pool.Invariant) (step : PoolStep pool events pool') : pool'.Invariant := by
  -- a thread at a statement between lock and unlock holds the mutex
  have held : ∀ {worker : W} {consume : Consume τ}, pool.consume worker = consume →
      consume.Locked → pool.mu = some (.inl worker) := by
    rintro worker _ rfl locked
    exact (invariant.mutex (.inl worker)).mp locked
  have heldByCaller : ∀ {caller : P} {produce : Produce τ}, pool.produce caller = produce →
      produce.Locked → pool.mu = some (.inr caller) := by
    rintro caller _ rfl locked
    exact (invariant.mutex (.inr caller)).mp locked
  cases step with
  | acquire worker ready free =>
      exact invariant.workerStep (.inl free) (.inl ⟨trivial, rfl⟩) trivial (.inl nofun)
  | testEmpty worker ready empty =>
      have mu := held ready trivial
      exact invariant.workerStep (.inr mu) (.inl ⟨trivial, mu⟩) empty (.inl nofun)
  | testFull worker ready full =>
      have mu := held ready trivial
      exact invariant.workerStep (.inr mu) (.inl ⟨trivial, mu⟩) full (.inl nofun)
  | condWait worker ready =>
      have empty : pool.queue = [] := by
        have knows := invariant.knows worker
        rwa [ready] at knows
      exact invariant.workerStep (.inr (held ready trivial)) (.inr ⟨id, rfl⟩) trivial (.inr empty)
  | wake worker ready =>
      exact invariant.workerOutside (by rw [ready]; exact id) id nofun
  | front worker ready first =>
      have mu := held ready trivial
      exact invariant.workerStep (.inr mu) (.inl ⟨trivial, mu⟩) first (.inl nofun)
  | popFront worker ready =>
      have mu := held ready trivial
      exact invariant.workerStep (.inr mu) (.inl ⟨trivial, mu⟩) trivial (.inl nofun)
  | unlock worker ready =>
      exact invariant.workerStep (.inr (held ready trivial)) (.inr ⟨id, rfl⟩) trivial (.inl nofun)
  | run worker ready =>
      exact invariant.workerOutside (by rw [ready]; exact id) id nofun
  | call caller task ready =>
      exact invariant.callerOutside (by rw [ready]; exact id) id (by rw [ready]; exact id)
  | callerLock caller ready free =>
      exact invariant.callerStep (.inl free) (.inl ⟨trivial, rfl⟩)
        (.inr ⟨rfl, by rw [ready]; exact id⟩)
  | pushBack caller ready =>
      have mu := heldByCaller ready trivial
      exact invariant.callerStep (.inr mu) (.inl ⟨trivial, mu⟩) (.inl trivial)
  | callerUnlock caller ready =>
      exact invariant.callerStep (.inr (heldByCaller ready trivial)) (.inr ⟨id, rfl⟩) (.inl trivial)
  | signal caller ready consume signals => exact invariant.signalStep ready signals

end ThreadPool.Invariant

/-! ## Runs -/

variable [DecidableEq W] [DecidableEq P] {pool pool' : ThreadPool W P τ}
  {trace events : List (PoolEvent W τ)}

theorem PoolRun.invariant (run : PoolRun trace pool) : pool.Invariant := by
  induction run with
  | start => exact .start
  | step _ step ih => exact ih.step step

omit [DecidableEq W] in
theorem queuedTasks_append : queuedTasks (trace ++ events) = queuedTasks trace ++ queuedTasks events :=
  List.filterMap_append

omit [DecidableEq W] in
theorem takenTasks_append : takenTasks (trace ++ events) = takenTasks trace ++ takenTasks events :=
  List.filterMap_append

omit [DecidableEq W] in
theorem ranTasks_append : ranTasks (trace ++ events) = ranTasks trace ++ ranTasks events :=
  List.filterMap_append

theorem tasksOf_append (worker : W) (front back : List (W × τ)) :
    tasksOf worker (front ++ back) = tasksOf worker front ++ tasksOf worker back := by
  simp [tasksOf]

/-- A step takes from the front of the queue what was queued first. -/
theorem PoolStep.queue (step : PoolStep pool events pool') (invariant : pool.Invariant) :
    pool.queue ++ queuedTasks events = (takenTasks events).map Prod.snd ++ pool'.queue := by
  cases step with
  | popFront worker ready =>
      have knows := invariant.knows worker
      rw [ready] at knows
      have head := List.eq_cons_of_mem_head? knows
      simpa [queuedTasks, takenTasks, PoolEvent.queued?, PoolEvent.taken?, List.filterMap_cons]
  | _ => simp [queuedTasks, takenTasks, PoolEvent.queued?, PoolEvent.taken?, List.filterMap_cons,
      ThreadPool.setConsume, ThreadPool.setProduce]

theorem tasksOf_self (worker : W) (tasks : List τ) :
    tasksOf worker (tasks.map fun task => (worker, task)) = tasks := by
  simp [tasksOf, List.filter_map, Function.comp_def]

theorem tasksOf_other {worker other : W} (distinct : worker ≠ other) (tasks : List τ) :
    tasksOf worker (tasks.map fun task => (other, task)) = [] := by
  simp [tasksOf, List.filter_map, Function.comp_def, distinct.symm]

/-- One worker takes and runs tasks; the others' hands do not change. -/
theorem inHand_update {before : W → Consume τ} {mover : W} {after : Consume τ} (taken ran : List τ)
    (balance : (before mover).inHand ++ taken = ran ++ after.inHand) (worker : W) :
    (before worker).inHand ++ tasksOf worker (taken.map fun task => (mover, task)) =
      tasksOf worker (ran.map fun task => (mover, task)) ++
        (Function.update before mover after worker).inHand := by
  by_cases same : worker = mover
  · subst same
    rwa [tasksOf_self, tasksOf_self, Function.update_self]
  · rw [tasksOf_other same, tasksOf_other same, Function.update_of_ne same, List.append_nil,
      List.nil_append]

/-- A worker runs a task which it has taken, and then has it no more. -/
theorem PoolStep.inHand (step : PoolStep pool events pool') (worker : W) :
    (pool.consume worker).inHand ++ tasksOf worker (takenTasks events) =
      tasksOf worker (ranTasks events) ++ (pool'.consume worker).inHand := by
  have idle : ∀ {mover : W} {consume : Consume τ}, (pool.consume mover).inHand = consume.inHand →
      (pool.consume worker).inHand ++ [] = [] ++ (Function.update pool.consume mover consume worker).inHand :=
    fun same => inHand_update [] [] (by rw [same, List.append_nil, List.nil_append]) worker
  cases step with
  | acquire mover ready => exact idle (by rcases ready with ready | ready <;> rw [ready] <;> rfl)
  | testEmpty mover ready => exact idle (by rw [ready]; rfl)
  | testFull mover ready => exact idle (by rw [ready]; rfl)
  | condWait mover ready => exact idle (by rw [ready]; rfl)
  | wake mover ready => exact idle (by rw [ready]; rfl)
  | front mover ready => exact idle (by rw [ready]; rfl)
  | unlock mover ready => exact idle (by rw [ready]; rfl)
  | popFront mover ready => exact inHand_update [_] [] (by rw [ready]; rfl) worker
  | run mover ready => exact inHand_update [] [_] (by rw [ready]; rfl) worker
  | signal caller ready consume signals =>
      rcases signals.only worker with same | ⟨asleep, woken⟩
      · simp [same, takenTasks, ranTasks, tasksOf]
      · simp [asleep, woken, takenTasks, ranTasks, tasksOf, Consume.inHand]
  | call | callerLock | callerUnlock =>
      simp [takenTasks, ranTasks, tasksOf, ThreadPool.setProduce]
  | pushBack =>
      simp [takenTasks, ranTasks, tasksOf, ThreadPool.setProduce, PoolEvent.taken?, PoolEvent.ran?,
        List.filterMap_cons]

/-- The queue holds what was queued and not yet taken, in order. -/
theorem PoolRun.fifo (run : PoolRun trace pool) :
    queuedTasks trace = (takenTasks trace).map Prod.snd ++ pool.queue := by
  induction run with
  | start => rfl
  | step before step ih =>
      rw [queuedTasks_append, ih, takenTasks_append, List.map_append, List.append_assoc,
        List.append_assoc, step.queue before.invariant]

/-- Each worker has run what it has taken, in order, but for the task in its hands. -/
theorem PoolRun.once (run : PoolRun trace pool) (worker : W) :
    tasksOf worker (takenTasks trace) =
      tasksOf worker (ranTasks trace) ++ (pool.consume worker).inHand := by
  induction run with
  | start => rfl
  | step before step ih =>
      rw [takenTasks_append, tasksOf_append, ih, ranTasks_append, tasksOf_append, List.append_assoc,
        List.append_assoc, step.inHand worker]

/-- Whatever the interleaving, the tasks are taken one by one in the order in which they
were queued, and each by one worker, which runs it at most once. A queue in which a task
waits never leaves all workers asleep with no signal to come, unless there is no worker. -/
theorem thread_pool_reachable (run : PoolRun trace pool) :
    queuedTasks trace = (takenTasks trace).map Prod.snd ++ pool.queue ∧
    (∀ worker, tasksOf worker (takenTasks trace) =
      tasksOf worker (ranTasks trace) ++ (pool.consume worker).inHand) ∧
    (pool.queue ≠ [] → (∀ worker, pool.consume worker = .asleep) →
      (∀ caller, ¬(pool.produce caller).OwesSignal) → IsEmpty W) := by
  refine ⟨run.fifo, run.once, fun full sleeping settled => ?_⟩
  rcases run.invariant.awake full sleeping with ⟨caller, owes⟩ | none
  · exact absurd owes (settled caller)
  · exact none

/-! ## A run of two workers -/

/-- Two workers have found the queue empty and gone to sleep. -/
theorem poolRun_sleeping : ∃ pool : ThreadPool Bool Unit Nat, PoolRun [] pool ∧ pool.mu = none ∧
    pool.queue = [] ∧ (∀ worker, pool.consume worker = .asleep) ∧ pool.produce () = .idle := by
  have fresh : PoolRun [] ({} : ThreadPool Bool Unit Nat) := .start
  have asleep := ((fresh.step (.acquire false (.inl rfl) rfl)).step
    (.testEmpty false rfl rfl)).step (.condWait false rfl)
  have both := ((asleep.step (.acquire true (.inl rfl) rfl)).step (.testEmpty true rfl rfl)).step
    (.condWait true rfl)
  exact ⟨_, both, rfl, rfl, fun worker => by cases worker <;> rfl, rfl⟩

/-- A caller queues a task and wakes a worker. -/
theorem PoolRun.queueTask (run : PoolRun trace pool) (free : pool.mu = none) {caller : P}
    (idle : pool.produce caller = .idle) {worker : W} (asleep : pool.consume worker = .asleep)
    (task : τ) : ∃ pool' : ThreadPool W P τ, PoolRun (trace ++ [.queued task]) pool' ∧
      pool'.mu = none ∧ pool'.queue = pool.queue ++ [task] ∧
      pool'.consume = Function.update pool.consume worker .woken ∧
      pool'.produce = pool.produce := by
  have signals : Signals pool.consume (Function.update pool.consume worker .woken) := by
    refine ⟨fun other => ?_, fun _ => ⟨worker, asleep, Function.update_self ..⟩⟩
    by_cases same : other = worker
    · rw [same]
      exact .inr ⟨asleep, Function.update_self ..⟩
    · exact .inl (Function.update_of_ne same ..)
  have queued := ((((run.step (.call caller task idle)).step
    (.callerLock caller (Function.update_self ..) free)).step
    (.pushBack caller (Function.update_self ..))).step
    (.callerUnlock caller (Function.update_self ..))).step
    (.signal caller (Function.update_self ..) _ signals)
  simp only [List.append_nil] at queued
  refine ⟨_, queued, rfl, rfl, rfl, ?_⟩
  simp [ThreadPool.setProduce, ← idle]

/-- A worker which is not asleep takes the first task and gives the mutex back. -/
theorem PoolRun.takeTask (run : PoolRun trace pool) (free : pool.mu = none) {worker : W}
    (ready : pool.consume worker = .lock ∨ pool.consume worker = .woken) {task : τ}
    (first : pool.queue.head? = some task) :
    ∃ pool' : ThreadPool W P τ, PoolRun (trace ++ [.taken worker task]) pool' ∧ pool'.mu = none ∧
      pool'.queue = pool.queue.tail ∧
      pool'.consume = Function.update pool.consume worker (.run task) := by
  have full : pool.queue ≠ [] := by
    rintro empty
    simp [empty] at first
  have taken := ((((run.step (.acquire worker ready free)).step
    (.testFull worker (Function.update_self ..) full)).step
    (.front worker (Function.update_self ..) first)).step
    (.popFront worker (Function.update_self ..))).step
    (.unlock worker (Function.update_self ..))
  simp only [List.append_nil] at taken
  refine ⟨_, taken, rfl, rfl, ?_⟩
  simp [ThreadPool.setConsume]

/-- Two tasks are taken by two workers, and the second one has been run. -/
theorem thread_pool_reachable_two : ∃ full pool : ThreadPool Bool Unit Nat,
    PoolRun [.queued 7, .queued 8] full ∧ full.queue = [7, 8] ∧
    (∃ worker, full.consume worker ≠ .asleep) ∧
    PoolRun [.queued 7, .queued 8, .taken true 7, .taken false 8, .ran false 8] pool ∧
    pool.queue = [] ∧ (pool.consume true).inHand = [7] ∧ (pool.consume false).inHand = [] := by
  obtain ⟨sleeping, run, free, empty, asleep, idle⟩ := poolRun_sleeping
  obtain ⟨one, run, free, queue, consume, produce⟩ := run.queueTask free idle (asleep false) 7
  have asleep' : one.consume true = .asleep := by
    rw [consume, Function.update_of_ne (by decide), asleep]
  obtain ⟨full, both, free, queue', consume', produce'⟩ :=
    run.queueTask free ((congrFun produce ()).trans idle) asleep' 8
  have woken : ∀ worker, full.consume worker = .woken := by
    rintro (_ | _) <;> simp [consume', consume]
  have waiting : full.queue = [7, 8] := by simp [queue', queue, empty]
  have seven : full.queue.head? = some 7 := by rw [waiting]; rfl
  obtain ⟨first, run, free, rest, consume⟩ := both.takeTask free (.inr (woken true)) seven
  have eight : first.queue.head? = some 8 := by rw [rest, waiting]; rfl
  have ready : first.consume false = .woken := by
    rw [consume, Function.update_of_ne (by decide), woken]
  obtain ⟨second, run, -, -, consume'⟩ := run.takeTask free (.inr ready) eight
  have ran := run.step (.run false (congrFun consume' false))
  obtain ⟨fifo, once, -⟩ := thread_pool_reachable ran
  obtain ⟨-, -, wakes⟩ := thread_pool_reachable both
  have roused : ∃ worker, full.consume worker ≠ .asleep := by
    by_contra sleeping
    push Not at sleeping
    refine (wakes (by simp [waiting]) sleeping fun caller owes => ?_).false false
    rw [produce', produce, idle] at owes
    exact owes
  refine ⟨full, _, both, waiting, roused, ran, ?_, (once true).symm, ?_⟩
  · simpa [queuedTasks, takenTasks, PoolEvent.queued?, PoolEvent.taken?, List.filterMap_cons] using fifo
  · simpa [tasksOf, takenTasks, ranTasks, PoolEvent.taken?, PoolEvent.ran?, List.filterMap_cons] using
      once false

end MiniRedis
