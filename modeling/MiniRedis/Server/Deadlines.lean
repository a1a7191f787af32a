import MiniRedis.Server.Locality

/-!
# The deadline of a key in a history

A `pexpire` binds the key until the next one, a `persist` or the end of the key. Whatever else is
stored under the key in between, `set` and `zadd` included, leaves the deadline alone.
-/

namespace MiniRedis

variable {event : ServerEvent} {history : List ServerEvent} {map map' : Contents} {clock : Nat}
  {key : Bytes} {env : Env}

/-- The event gives the key another deadline, or takes it away. -/
def ServerEvent.Retimes (key : Bytes) (event : ServerEvent) : Prop :=
  (∃ due, event.GivesDeadline key due) ∨
    ∃ client env value, event = .command client env [ascii "persist", key] value

/-- Any other event leaves the deadline of a key alone, or removes the key. -/
theorem SpecEvent.keeps_deadline (happens : SpecEvent event map map') (kept : ¬event.Retimes key)
    {due : Nat} (bound : map.deadline key = some due) :
    map'.deadline key = some due ∨ event.Removes key (some due) := by
  obtain ⟨⟨value, _⟩, stored, rfl⟩ := Option.bind_eq_some_iff.mp bound
  cases happens with
  | timers env expires =>
      obtain same | ⟨-, record, due', present, timed, passed⟩ := expires key
      · exact .inl (by rw [Contents.deadline, same, stored]; rfl)
      · rw [stored] at present
        cases present
        exact .inr ⟨due', timed, passed⟩
  | @command _ _ client env cmd reply answers =>
      have step := answers.step
      by_cases other : cmd[1]? ≠ some key
      · have same := congrFun (step.others other) key
        rw [Contents.only_self, Contents.only_self] at same
        exact .inl (by rw [Contents.deadline, same, stored]; rfl)
      rw [not_not] at other
      cases step with
      | get | keys | zscore | zrank | zquery | pttl | unknown | arity => exact .inl bound
      | set k val =>
          obtain rfl : k = key := by simpa using other
          left
          cases value <;> simp [specSet, stored, Contents.deadline]
      | zadd k score name =>
          obtain rfl : k = key := by simpa using other
          left
          cases parsed : str2dbl env.strtod score <;> cases value <;>
            simp [specZadd, parsed, stored, Contents.deadline]
      | del k =>
          obtain rfl : k = key := by simpa using other
          exact .inr rfl
      | zrem k name =>
          obtain rfl : k = key := by simpa using other
          left
          cases value <;> simp [specZrem, stored, Contents.deadline]
      | persist k =>
          obtain rfl : k = key := by simpa using other
          exact absurd (.inr ⟨_, _, _, rfl⟩) kept
      | pexpire k ttl answer =>
          obtain rfl : k = key := by simpa using other
          simp only [specPexpire] at answer
          split at answer
          · cases answer
            exact .inl bound
          · next ttlMs parsed => exact absurd (.inl ⟨_, ttl, ttlMs, rfl, parsed, rfl⟩) kept

/-- A deadline stays until the key is removed. -/
theorem SpecRun.timed {later : List ServerEvent} {due : Nat}
    (spec : SpecRun (history ++ later) map clock) (kept : ∀ event ∈ later, ¬event.Retimes key)
    (bound : ∀ map clock, SpecRun history map clock → map.deadline key = some due) :
    map.deadline key = some due ∨ ∃ event ∈ later, event.Removes key (some due) := by
  induction later using List.reverseRecOn generalizing map clock with
  | nil =>
      rw [List.append_nil] at spec
      exact .inl (bound map clock spec)
  | append_singleton later event ih =>
      rw [← List.append_assoc] at spec
      obtain ⟨before, clock', earlier, happens⟩ := spec.last
      obtain held | ⟨removal, member, removes⟩ := ih earlier fun event member =>
        kept event (List.mem_append_left _ member)
      · exact (happens.keeps_deadline (kept event (by simp)) held).imp_right fun removes =>
          ⟨event, by simp, removes⟩
      · exact .inr ⟨removal, List.mem_append_left _ member, removes⟩

/-- A `pexpire` which finds the key gives it the deadline. -/
theorem SpecRun.pexpire {client : Nat} {ttlArg : Bytes} {ttl : Int}
    (spec : SpecRun (history ++ [.command client env [ascii "pexpire", key, ttlArg]
      (WireValue.int 1).encode]) map clock) (parsed : str2int ttlArg = some ttl) :
    0 ≤ ttl ∧ map.deadline key = some (env.now + ttl.toNat) := by
  obtain ⟨before, clock', -, happens⟩ := spec.last
  generalize answer : (WireValue.int 1).encode = value at happens
  cases happens with
  | @command _ _ _ _ _ reply answers =>
      have result := answers.step.of_pexpire rfl
      simp only [specPexpire, parsed] at result
      split_ifs at result with negative
      refine ⟨Int.not_lt.mp negative, ?_⟩
      split at result
      · cases result
        exact absurd answer (by decide)
      · cases result
        simp [Contents.deadline]

variable {loop : EventLoop Server Conn} {phase : LoopPhase} {traffic : Traffic}

end MiniRedis
