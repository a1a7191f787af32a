import MiniRedis.Server.Destroy
import MiniRedis.Server.NextTimer

/-!
# What ends the server

Every step of `main` and of the workers succeeds in every state of a run over byte queues, except
where a command which is executed fails its assertion. `Server/Machine.lean` adds what the buffers
and the sockets can do to the process.
-/

namespace MiniRedis

variable {state : Server} {clock : Nat}

/-- The commands of a round leave a database unless one of them has a negative time to live. -/
theorem ServerReachable.aborts_iff {envs : List Env} {cmds : List (List Bytes)}
    (reachable : ServerReachable state clock)
    (readings : (clock :: envs.map Env.now).Pairwise (· ≤ ·)) (enough : cmds.length ≤ envs.length) :
    (runRequests execEach (some state, envs) cmds).1.1 = none ↔ ∃ cmd ∈ cmds, NegativeTtl cmd := by
  induction cmds generalizing state envs clock with
  | nil => simp [runRequests]
  | cons cmd cmds ih =>
      obtain ⟨env, envs, rfl⟩ := List.exists_cons_of_length_pos
        (Nat.lt_of_lt_of_le (Nat.succ_pos _) enough)
      have later : clock ≤ env.now := List.rel_of_pairwise_cons readings (by simp)
      by_cases negative : NegativeTtl cmd
      · have aborts : (runRequests execEach (some state, env :: envs) (cmd :: cmds)).1 =
            (runRequests execEach (none, envs) cmds).1 := by
          simp [runRequests, execEach, execCmd_negative negative]
        rw [aborts, runRequests_aborted]
        simp [negative]
      · obtain ⟨state', reply, run, -⟩ := execCmd_simulates reachable.consistent later negative []
        have goes : (runRequests execEach (some state, env :: envs) (cmd :: cmds)).1 =
            (runRequests execEach (some state', envs) cmds).1 := by
          simp [runRequests, execEach, run]
        rw [goes, ih (.exec reachable env later cmd run) (List.pairwise_cons.mp readings).2
          (Nat.le_of_succ_le_succ enough)]
        simp [negative]

variable {loop : EventLoop Server Conn} {phase : LoopPhase}

/-- In every state of every run over byte queues nothing fails but a command: the arguments and the
timeout of `poll` are computed, a connection is accepted, the timers and the workers do their work,
and whatever `poll` reports for a connection, its handlers return. They abort exactly when the
bytes which are read complete the request of a `pexpire` with a negative time to live. -/
theorem ProcessRun.aborts_iff (run : ProcessRun loop phase clock) :
    (∃ args, pollArgs loop loop.fd2conn = some args) ∧
    (∀ now, ∃ timeout, loop.nextTimerMs now = some timeout) ∧
    (∀ conn ∉ loop.live, ∀ connfd, (∀ other ∈ loop.live, loop.fd other ≠ connfd) →
      ∀ now, clock ≤ now → ∃ loop', handleAccept loop conn connfd now = some loop') ∧
    (∀ env, clock ≤ env.now → ∃ loop', loop.processTimers env = some loop') ∧
    (∀ ent ∈ loop.db.tasks, ∃ state, runTask loop.db ent = some state) ∧
    ∀ fd ready results, phase = .serving ((fd, some ready) :: results) →
      ∀ now envs, (clock :: now :: envs.map Env.now).Pairwise (· ≤ ·) → ∀ read write write',
        ∃ loop', serveReady execEach (loop.withDb
          (some loop.db, envs)) fd now ready read write write' =
            some loop' ∧ ∃ conn ∈ loop.live, loop.fd conn = fd ∧ ∃ cmds rest,
          Framed ((loop.io conn).incoming ++ if ready.pollIn then read.data else []) cmds rest ∧
          (cmds.length ≤ envs.length → (loop'.db.1 = none ↔ ∃ cmd ∈ cmds, NegativeTtl cmd)) := by
  obtain ⟨bound, sound, clock', past, reachable⟩ := run.sound
  obtain ⟨idle, invariant, -⟩ := id sound
  refine ⟨⟨_, invariant.pollArgs.1⟩, fun now => ?_, fun conn fresh connfd unopened now later => ?_,
    fun env later => ?_, fun ent queued => ?_, ?_⟩
  · obtain ⟨-, none⟩ | ⟨earliest, -, some⟩ := nextTimerMs_spec sound bound past reachable now
    · exact ⟨_, none⟩
    · exact ⟨_, some⟩
  · obtain ⟨loop', accepted, -⟩ := invariant.handleAccept later fresh unopened
    exact ⟨loop', accepted⟩
  · obtain ⟨_, _, -, -, passes, -⟩ := sound.processTimers past reachable env later
    exact ⟨_, passes⟩
  · exact ⟨_, (reachable.consistent.runTask queued).1⟩
  · rintro fd ready results rfl now envs readings read write write'
    obtain ⟨first, rest⟩ := List.pairwise_cons.mp readings
    obtain ⟨loop', serves, -, conn, member, same, -, cmds, left, framed, executed⟩ :=
      (sound.withDb (some loop.db, envs)).serve (first now (by simp)) execEach read write write'
    refine ⟨loop', serves, conn, member, same, cmds, left, framed, fun enough => ?_⟩
    have ordered : (clock' :: envs.map Env.now).Pairwise (· ≤ ·) := by
      refine List.pairwise_cons.mpr ⟨fun reading inside => ?_, (List.pairwise_cons.mp rest).2⟩
      exact past.trans (first reading (List.mem_cons_of_mem _ inside))
    rw [executed]
    exact reachable.aborts_iff ordered enough

end MiniRedis
