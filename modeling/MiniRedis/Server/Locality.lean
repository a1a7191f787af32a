import MiniRedis.Server.Clients

/-!
# Every key on its own

A command which names a key reads and changes the record of this key only. What happens to one
key is therefore a history of its own, whatever else the clients do.
-/

namespace MiniRedis

/-- The record of one key. -/
def Contents.only (map : Contents) (key : Bytes) : Contents :=
  Function.update (fun _ => none) key (map key)

/-- Commands name their key behind their own name; every key is exposed to the timers. -/
def ServerEvent.concerns (key : Bytes) : ServerEvent → Bool
  | .command _ _ cmd _ => cmd[1]? = some key
  | .timers _ => true

namespace Contents

variable {map : Contents} {key other : Bytes} {record : Option Record}

@[simp] theorem only_self : map.only key key = map key := Function.update_self ..

/-- The other keys are absent. -/
theorem only_of_ne (distinct : other ≠ key) : map.only key other = none :=
  Function.update_of_ne distinct ..

@[simp] theorem only_update_self :
    only (Function.update map key record) key = Function.update (map.only key) key record := by
  rw [only, only, Function.update_self, Function.update_idem]

/-- What happens to them is not seen. -/
theorem only_update_of_ne (distinct : other ≠ key) :
    only (Function.update map other record) key = map.only key := by
  rw [only, only, Function.update_of_ne distinct.symm]

end Contents

/-! ## One command -/

section Commands

variable {env : Env} {map map' : Contents} {key : Bytes} {cmd : List Bytes} {reply : WireValue}

/-! The answers about a key depend on its record, and change nothing else. -/

/-- Each command on a key does the same to a map without other keys. -/
theorem specSet_only (val : Bytes) :
    specSet (map.only key) key val =
      ((specSet map key val).1, (specSet map key val).2.only key) := by
  simp only [specSet, Contents.only_self]
  split <;> simp

theorem specDel_only : specDel (map.only key) key =
    ((specDel map key).1, (specDel map key).2.only key) := by
  simp only [specDel, Contents.only_self]
  split <;> simp

theorem specZadd_only (score name : Bytes) : specZadd env (map.only key) key score name =
    ((specZadd env map key score name).1, (specZadd env map key score name).2.only key) := by
  simp only [specZadd, Contents.only_self]
  split
  · rfl
  · split <;> simp

theorem specZrem_only (name : Bytes) :
    specZrem (map.only key) key name =
      ((specZrem map key name).1, (specZrem map key name).2.only key) := by
  simp only [specZrem, Contents.only_self]
  split <;> simp

theorem specPersist_only :
    specPersist (map.only key) key =
      ((specPersist map key).1, (specPersist map key).2.only key) := by
  simp only [specPersist, Contents.only_self]
  split <;> simp

theorem specPexpire_only (ttl : Bytes) : specPexpire env (map.only key) key ttl =
    (specPexpire env map key ttl).map fun answer => (answer.1, answer.2.only key) := by
  simp only [specPexpire, Contents.only_self]
  split
  · rfl
  · split_ifs
    · rfl
    · split <;> simp

/-- A command about a key does to the record of this key what it does to the map. -/
theorem SpecStep.only (step : SpecStep env map cmd reply map') (own : cmd[1]? = some key) :
    SpecStep env (map.only key) cmd reply (map'.only key) := by
  cases step with
  | get k =>
      obtain rfl : k = key := by simpa using own
      have same : specGet (map.only k) k = specGet map k := by rw [specGet, specGet,
        Contents.only_self]
      exact same ▸ .get k
  | set k val =>
      obtain rfl : k = key := by simpa using own
      simpa [specSet_only] using @SpecStep.set env (map.only k) k val
  | del k =>
      obtain rfl : k = key := by simpa using own
      simpa [specDel_only] using @SpecStep.del env (map.only k) k
  | keys => simp at own
  | zadd k score name =>
      obtain rfl : k = key := by simpa using own
      simpa [specZadd_only] using @SpecStep.zadd env (map.only k) k score name
  | zrem k name =>
      obtain rfl : k = key := by simpa using own
      simpa [specZrem_only] using @SpecStep.zrem env (map.only k) k name
  | zscore k name =>
      obtain rfl : k = key := by simpa using own
      have same : specZscore (map.only k) k name = specZscore map k name := by
        rw [specZscore, specZscore, Contents.only_self]
      exact same ▸ .zscore k name
  | zrank k name => exact .zrank k name _
  | zquery k score name offset limit => exact .zquery k score name offset limit _
  | pexpire k ttl answer =>
      obtain rfl : k = key := by simpa using own
      exact .pexpire k ttl (by rw [specPexpire_only, answer]; rfl)
  | persist k =>
      obtain rfl : k = key := by simpa using own
      simpa [specPersist_only] using @SpecStep.persist env (map.only k) k
  | pttl k =>
      obtain rfl : k = key := by simpa using own
      have same : specPttl env (map.only k) k = specPttl env map k := by
        rw [specPttl, specPttl, Contents.only_self]
      exact same ▸ .pttl k
  | unknown _ unlisted => exact .unknown cmd unlisted
  | arity name args listed named differs => exact .arity name args listed named differs

/-- Any other command leaves the record alone. -/
theorem SpecStep.others (step : SpecStep env map cmd reply map') (other : cmd[1]? ≠ some key) :
    map'.only key = map.only key := by
  cases step with
  | get | keys | zscore | zrank | zquery | pttl | unknown | arity => rfl
  | set k val =>
      have distinct : k ≠ key := by simpa using other
      simp only [specSet]
      split <;> simp [Contents.only_update_of_ne distinct]
  | del k =>
      have distinct : k ≠ key := by simpa using other
      simp only [specDel]
      split <;> simp [Contents.only_update_of_ne distinct]
  | zadd k score name =>
      have distinct : k ≠ key := by simpa using other
      simp only [specZadd]
      split
      · rfl
      · split <;> simp [Contents.only_update_of_ne distinct]
  | zrem k name =>
      have distinct : k ≠ key := by simpa using other
      simp only [specZrem]
      split <;> simp [Contents.only_update_of_ne distinct]
  | pexpire k ttl answer =>
      have distinct : k ≠ key := by simpa using other
      simp only [specPexpire] at answer
      split at answer
      · cases answer
        rfl
      · split_ifs at answer
        split at answer
        · cases answer
          rfl
        · cases answer
          exact Contents.only_update_of_ne distinct
  | persist k =>
      have distinct : k ≠ key := by simpa using other
      simp only [specPersist]
      split <;> simp [Contents.only_update_of_ne distinct]

/-- The members of a sorted set are those of its own record. -/
theorem Contents.Members.only {members : List (Bytes × Binary64.Number)}
    (chosen : map.Members key members) :
    (map.only key).Members key members := by
  intro scores deadline present
  rw [Contents.only_self] at present
  exact chosen scores deadline present

/-- So every command with this key is answered alike. -/
theorem SpecAnswer.only (answers : SpecAnswer env map cmd reply map') (own : cmd[1]? = some key) :
    SpecAnswer env (map.only key) cmd reply (map'.only key) where
  step := answers.step.only own
  zrank k name same := by
    obtain ⟨members, chosen, dictated⟩ := answers.zrank k name same
    obtain rfl : k = key := by simpa [same] using own
    refine ⟨members, chosen.only, ?_⟩
    rw [dictated, specZrank, specZrank, Contents.only_self]
  zquery k score name offset limit same := by
    obtain ⟨members, chosen, dictated⟩ := answers.zquery k score name offset limit same
    obtain rfl : k = key := by simpa [same] using own
    refine ⟨members, chosen.only, ?_⟩
    rw [dictated, specZquery, specZquery, Contents.only_self]

/-- The timers do to a key alone what they do to it among others. -/
theorem ExpiresOnly.only {nowMs : Nat} (expires : ExpiresOnly nowMs map map') :
    ExpiresOnly nowMs (map.only key) (map'.only key) ∧
    ExpiresEarliest (map.only key) (map'.only key) := by
  constructor
  · intro k
    by_cases same : k = key
    · subst same
      simpa using expires k
    · simp [Contents.only_of_ne same]
  · intro k record val found due gone k' record' val' kept
    obtain rfl : k = key := by
      by_contra distinct
      simp [Contents.only_of_ne distinct] at found
    obtain rfl : k' = k := by
      by_contra distinct
      simp [Contents.only_of_ne distinct] at kept
    rw [gone] at kept
    cases kept

end Commands

/-! ## Whole histories -/

/-- The history of a key is a history by itself. -/
theorem SpecRun.only {history : List ServerEvent} {map : Contents} {clock : Nat}
    (spec : SpecRun history map clock) (key : Bytes) :
    ∃ clock' ≤ clock, SpecRun (history.filter (ServerEvent.concerns key))
      (map.only key) clock' := by
  induction spec with
  | start clock =>
      have nothing : Contents.only (fun _ => none) key = fun _ => none :=
        Function.update_eq_self key _
      refine ⟨clock, le_rfl, ?_⟩
      rw [nothing]
      exact .start clock
  | @command history map map' clock before client env later cmd reply fits answers ih =>
      obtain ⟨clock', past, spec⟩ := ih
      rw [List.filter_append]
      by_cases own : cmd[1]? = some key
      · refine ⟨env.now, le_rfl, ?_⟩
        have continued := spec.command client env (past.trans later) fits (answers.only own)
        simpa [ServerEvent.concerns, own] using continued
      · refine ⟨clock', past.trans later, ?_⟩
        rw [answers.step.others own]
        simpa [ServerEvent.concerns, own] using spec
  | timers before env later expires earliest ih =>
      obtain ⟨clock', past, spec⟩ := ih
      obtain ⟨expires', earliest'⟩ := @ExpiresOnly.only _ _ key _ expires
      rw [List.filter_append]
      exact ⟨env.now, le_rfl, spec.timers env (past.trans later) expires' earliest'⟩

/-- One event of a history. -/
inductive SpecEvent : ServerEvent → Contents → Contents → Prop where
  | command {map map' : Contents} (client : Nat) (env : Env) {cmd : List Bytes} {reply : WireValue}
      (answers : SpecAnswer env map cmd reply map') :
      SpecEvent (.command client env cmd reply.encode) map map'
  | timers {map map' : Contents} (env : Env) (expires : ExpiresOnly env.now map map') :
      SpecEvent (.timers env) map map'

variable {history : List ServerEvent} {event : ServerEvent} {map map' : Contents} {clock : Nat}
  {key val : Bytes}

/-- The last event of a history, and the map in front of it. -/
theorem SpecRun.last (spec : SpecRun (history ++ [event]) map' clock) :
    ∃ map clock', SpecRun history map clock' ∧ SpecEvent event map map' := by
  generalize whole : history ++ [event] = all at spec
  cases spec with
  | start => simp at whole
  | command before client env later fits answers =>
      obtain ⟨rfl, rfl⟩ := List.append_inj' whole rfl |>.imp id List.singleton_inj.mp
      exact ⟨_, _, before, .command client env answers⟩
  | timers before env later expires earliest =>
      obtain ⟨rfl, rfl⟩ := List.append_inj' whole rfl |>.imp id List.singleton_inj.mp
      exact ⟨_, _, before, .timers env expires⟩

/-- A history may be cut off anywhere. -/
theorem SpecRun.front {back : List ServerEvent} (spec : SpecRun (history ++ back) map clock) :
    ∃ map clock', SpecRun history map clock' := by
  induction back using List.reverseRecOn generalizing map clock with
  | nil => exact ⟨map, clock, by simpa using spec⟩
  | append_singleton back event ih =>
      rw [← List.append_assoc] at spec
      obtain ⟨_, _, spec, -⟩ := spec.last
      exact ih spec

/-- The event may store something under the key. -/
def ServerEvent.Rewrites (key : Bytes) : ServerEvent → Prop
  | .command _ _ cmd _ =>
    (∃ val, cmd = [ascii "set", key, val]) ∨ ∃ score name, cmd = [ascii "zadd", key, score, name]
  | .timers _ => False

/-- The event gives the key a deadline. -/
def ServerEvent.GivesDeadline (key : Bytes) (due : Nat) : ServerEvent → Prop
  | .command _ env cmd _ => ∃ ttl ttlMs, cmd = [ascii "pexpire", key, ttl] ∧
      str2int ttl = some ttlMs ∧
    due = env.now + ttlMs.toNat
  | .timers _ => False

/-- The event removes a record with some deadline. -/
def ServerEvent.Removes (key : Bytes) (deadline : Option Nat) : ServerEvent → Prop
  | .command _ _ cmd _ => cmd = [ascii "del", key]
  | .timers env => ∃ due, deadline = some due ∧ due < env.now

/-- What an event can do to the record of a key under which it stores nothing. -/
inductive RecordStep (key : Bytes) (event : ServerEvent) : Option Record →
    Option Record → Prop where
  | same (record : Option Record) : RecordStep key event record record
  | deadline (value : Value) (due due' : Option Nat) :
      RecordStep key event (some ⟨value, due⟩) (some ⟨value, due'⟩)
  | members (scores scores' : Bytes → Option Binary64.Number) (due : Option Nat) :
      RecordStep key event (some ⟨.zset scores, due⟩) (some ⟨.zset scores', due⟩)
  | removed (record : Record) (allowed : event.Removes key record.deadline) :
      RecordStep key event (some record) none

/-- What an event does to a record which it does not store. -/
theorem SpecEvent.recordStep (happens : SpecEvent event map map') (kept : ¬event.Rewrites key) :
    RecordStep key event (map key) (map' key) := by
  cases happens with
  | timers env expires =>
      obtain same | ⟨gone, record, due, present, bound, passed⟩ := expires key
      · exact same ▸ .same _
      · rw [gone, present]
        exact .removed record ⟨due, bound, passed⟩
  | @command _ _ client env cmd reply answers =>
      have step := answers.step
      by_cases other : cmd[1]? ≠ some key
      · have same := congrFun (step.others other) key
        rw [Contents.only_self, Contents.only_self] at same
        exact same ▸ .same _
      rw [not_not] at other
      cases step with
      | get | keys | zscore | zrank | zquery | pttl | unknown | arity => exact .same _
      | set k val =>
          obtain rfl : k = key := by simpa using other
          exact absurd (.inl ⟨val, rfl⟩) kept
      | zadd k score name =>
          obtain rfl : k = key := by simpa using other
          exact absurd (.inr ⟨score, name, rfl⟩) kept
      | del k =>
          obtain rfl : k = key := by simpa using other
          simp only [specDel]
          split
          · exact .same _
          · next record stored =>
              dsimp only
              rw [stored, Function.update_self]
              exact .removed record rfl
      | zrem k name =>
          obtain rfl : k = key := by simpa using other
          simp only [specZrem]
          split
          · exact .same _
          · next scores due stored =>
              dsimp only
              rw [stored, Function.update_self]
              exact .members _ _ _
          · exact .same _
      | persist k =>
          obtain rfl : k = key := by simpa using other
          simp only [specPersist]
          split
          · next value due stored =>
              dsimp only
              rw [stored, Function.update_self]
              exact .deadline _ _ _
          · exact .same _
      | pexpire k ttl answer =>
          obtain rfl : k = key := by simpa using other
          simp only [specPexpire] at answer
          split at answer
          · cases answer
            exact .same _
          · split_ifs at answer
            split at answer
            · cases answer
              exact .same _
            · next value due stored =>
                cases answer
                rw [stored, Function.update_self]
                exact .deadline _ _ _

/-- The deadline of a key, if it is present and has one. -/
def Contents.deadline (map : Contents) (key : Bytes) : Option Nat := (map key).bind Record.deadline

/-- A key which has a deadline behind an event has had it before or gets it there. -/
theorem SpecEvent.deadline (happens : SpecEvent event map map') {due : Nat}
    (bound : map'.deadline key = some due) :
    map.deadline key = some due ∨ event.GivesDeadline key due := by
  cases happens with
  | timers env expires =>
      obtain same | ⟨gone, -⟩ := expires key
      · rw [Contents.deadline, same] at bound
        exact .inl bound
      · simp [Contents.deadline, gone] at bound
  | @command _ _ client env cmd reply answers =>
      have step := answers.step
      by_cases other : cmd[1]? ≠ some key
      · have same := congrFun (step.others other) key
        rw [Contents.only_self, Contents.only_self] at same
        rw [Contents.deadline, same] at bound
        exact .inl bound
      rw [not_not] at other
      cases step with
      | get | keys | zscore | zrank | zquery | pttl | unknown | arity => exact .inl bound
      | set k val =>
          obtain rfl : k = key := by simpa using other
          simp only [specSet] at bound
          split at bound
          · simp [Contents.deadline] at bound
          · next stored => simpa [Contents.deadline, stored] using Or.inl bound
          · exact .inl bound
      | zadd k score name =>
          obtain rfl : k = key := by simpa using other
          simp only [specZadd] at bound
          split at bound
          · exact .inl bound
          · split at bound
            · simp [Contents.deadline] at bound
            · next stored => simpa [Contents.deadline, stored] using Or.inl bound
            · exact .inl bound
      | del k =>
          obtain rfl : k = key := by simpa using other
          simp only [specDel] at bound
          split at bound
          · exact .inl bound
          · simp [Contents.deadline] at bound
      | zrem k name =>
          obtain rfl : k = key := by simpa using other
          simp only [specZrem] at bound
          split at bound
          · exact .inl bound
          · next stored => simpa [Contents.deadline, stored] using Or.inl bound
          · exact .inl bound
      | persist k =>
          obtain rfl : k = key := by simpa using other
          simp only [specPersist] at bound
          split at bound
          · simp [Contents.deadline] at bound
          · exact .inl bound
      | pexpire k ttl answer =>
          obtain rfl : k = key := by simpa using other
          simp only [specPexpire] at answer
          split at answer
          · cases answer
            exact .inl bound
          · next ttlMs parsed =>
              split_ifs at answer
              split at answer
              · cases answer
                exact .inl bound
              · cases answer
                refine .inr ⟨ttl, ttlMs, rfl, parsed, ?_⟩
                simpa [Contents.deadline, eq_comm] using bound

/-- Every deadline has been given by a `pexpire`. -/
theorem SpecRun.deadline (spec : SpecRun history map clock) {due : Nat}
    (bound : map.deadline key = some due) :
    ∃ event ∈ history, event.GivesDeadline key due := by
  induction spec with
  | start => simp [Contents.deadline] at bound
  | command before client env later fits answers ih =>
      obtain earlier | gives := (SpecEvent.command client env answers).deadline bound
      · obtain ⟨event, member, gives⟩ := ih earlier
        exact ⟨event, List.mem_append_left _ member, gives⟩
      · exact ⟨_, by simp, gives⟩
  | timers before env later expires earliest ih =>
      obtain earlier | gives := (SpecEvent.timers env expires).deadline bound
      · obtain ⟨event, member, gives⟩ := ih earlier
        exact ⟨event, List.mem_append_left _ member, gives⟩
      · exact ⟨_, by simp, gives⟩

/-- Why a key may be gone behind some events: one of them deletes it, or is a timer pass behind a
deadline which the key has been given. -/
def Gone (key : Bytes) (front back : List ServerEvent) : Prop :=
  (∃ client env value, .command client env [ascii "del", key] value ∈ back) ∨
    ∃ env due, .timers env ∈ back ∧ due < env.now ∧
    ∃ event ∈ front ++ back, event.GivesDeadline key due

/-- A string stays under its key until an event removes the key. -/
theorem SpecRun.string {later : List ServerEvent} (spec : SpecRun (history ++ later) map clock)
    (kept : ∀ event ∈ later, ¬event.Rewrites key)
    (stored : ∀ map clock, SpecRun history map clock → ∃ due, map key = some ⟨.str val, due⟩) :
    (∃ due, map key = some ⟨.str val, due⟩) ∨ map key = none ∧ Gone key history later := by
  induction later using List.reverseRecOn generalizing map clock with
  | nil =>
      rw [List.append_nil] at spec
      exact .inl (stored map clock spec)
  | append_singleton later event ih =>
      rw [← List.append_assoc] at spec
      obtain ⟨before, clock', earlier, happens⟩ := spec.last
      have step := happens.recordStep (kept event (by simp))
      obtain ⟨due, present⟩ | ⟨missing, cause⟩ := ih earlier fun event member =>
        kept event (List.mem_append_left _ member)
      · generalize after : map key = record at step
        rw [present] at step
        cases step with
        | same => exact .inl ⟨due, rfl⟩
        | deadline _ _ due' => exact .inl ⟨due', rfl⟩
        | removed _ allowed =>
            refine .inr ⟨rfl, ?_⟩
            cases event with
            | command client env cmd value =>
                obtain rfl : cmd = [ascii "del", key] := allowed
                exact .inl ⟨client, env, value, by simp⟩
            | timers env =>
                obtain ⟨due', bound, passed⟩ := allowed
                have held : before.deadline key = some due' := by
                  rw [Contents.deadline, present]
                  exact bound
                obtain ⟨event, member, gives⟩ := earlier.deadline held
                refine .inr ⟨env, due', by simp, passed, event, ?_, gives⟩
                rw [← List.append_assoc]
                exact List.mem_append_left _ member
      · rw [missing] at step
        have absent : map key = none := by
          generalize map key = record at step
          cases step with
          | same => rfl
        refine .inr ⟨absent, cause.imp ?_ ?_⟩
        · rintro ⟨client, env, value, member⟩
          exact ⟨client, env, value, List.mem_append_left _ member⟩
        · rintro ⟨env, due, member, passed, event, member', gives⟩
          refine ⟨env, due, List.mem_append_left _ member, passed, event, ?_, gives⟩
          rw [← List.append_assoc]
          exact List.mem_append_left _ member'

/-- A `set` which is not refused stores its value. -/
theorem SpecRun.set {client : Nat} {env : Env}
    (spec : SpecRun (history ++ [.command client env [ascii "set", key, val] WireValue.nil.encode]) map clock) :
    ∃ due, map key = some ⟨.str val, due⟩ := by
  obtain ⟨before, clock', -, happens⟩ := spec.last
  generalize answer : WireValue.nil.encode = value at happens
  cases happens with
  | @command _ _ _ _ _ reply answers =>
      have result := answers.step.of_set rfl
      simp only [specSet] at result
      split at result
      · cases result
        exact ⟨none, Function.update_self ..⟩
      · next due present =>
          cases result
          exact ⟨due, Function.update_self ..⟩
      · cases result
        simp [errValue, WireValue.encode, Tag.byte] at answer

/-! ## The server -/

variable {loop : EventLoop Server Conn} {phase : LoopPhase} {traffic : Traffic}

/-- In every run of the server, what has happened to one key explains its replies and its record
without what has happened to the others: the commands about this key and the timer passes
are a history of a map which never holds another key. The runs are those over byte queues, to
which `Buffers.TrafficRun.queues` takes each run of the process with its buffers. -/
theorem keys_independent (run : TrafficRun loop phase clock traffic) (key : Bytes) :
    ∃ clock' ≤ clock, SpecRun (traffic.history.filter (ServerEvent.concerns key))
      (loop.db.contents.only key) clock' := by
  obtain ⟨-, clock', past, spec⟩ := run.accounted
  obtain ⟨clock'', past', own⟩ := spec.only key
  exact ⟨clock'', past'.trans past, own⟩

/-- A client sets the key `k` and the key `m` and asks for `k`: the replies to the first and the
last command are those of a map which never holds `m`. -/
theorem keys_independent_other : ∃ loop traffic clock, TrafficRun loop (.serving []) 0 traffic ∧
    traffic.history = [.timers Env.counting,
      .command 0 Env.counting [ascii "set", [107], [118]] WireValue.nil.encode,
      .command 0 Env.counting [ascii "set", [109], [119]] WireValue.nil.encode,
      .command 0 Env.counting [ascii "get", [107]] (WireValue.str [118]).encode] ∧
    SpecRun [.timers Env.counting,
      .command 0 Env.counting [ascii "set", [107], [118]] WireValue.nil.encode,
      .command 0 Env.counting [ascii "get", [107]] (WireValue.str [118]).encode]
      (loop.db.contents.only [107]) clock := by
  have valid : ∀ cmd ∈ [[ascii "set", [107], [118]], [ascii "set", [109], [119]],
      [ascii "get", [107]]], ValidRequest cmd := by
    intro cmd member
    simp only [List.mem_cons, List.not_mem_nil, or_false] at member
    obtain rfl | rfl | rfl := member <;> exact ⟨by decide, by decide⟩
  obtain ⟨_, reply, sets, -, consistent, answers⟩ := @execCmd_answers _ _ Env.counting
    (Server.start_initial.consistent 0) le_rfl _
    (not_negativeTtl (by decide) : ¬NegativeTtl [ascii "set", [107], [118]]) []
  obtain ⟨rfl, held⟩ := Prod.mk.inj (answers.step.of_set rfl)
  obtain ⟨_, reply, others, -, consistent, answers⟩ := @execCmd_answers _ _ Env.counting
    consistent le_rfl _
    (not_negativeTtl (by decide) : ¬NegativeTtl [ascii "set", [109], [119]]) []
  obtain ⟨rfl, held'⟩ := Prod.mk.inj (answers.step.of_set rfl)
  obtain ⟨state', reply, gets, -, -, answers⟩ :=
    @execCmd_answers _ _ Env.counting consistent le_rfl _
    (not_negativeTtl (by decide) : ¬NegativeTtl [ascii "get", [107]]) []
  obtain rfl := answers.step.of_get rfl
  rw [held', held, Server.start_initial.contents] at gets
  obtain ⟨loop, traffic, run, recorded⟩ :=
    @TrafficRun.asks _ valid (List.replicate 3 Env.counting) [] state' (by simp [Env.counting])
      (by simp [List.replicate, runRequests, execEach, sets, others, gets])
  have history : traffic.history = [.timers Env.counting,
      .command 0 Env.counting [ascii "set", [107], [118]] WireValue.nil.encode,
      .command 0 Env.counting [ascii "set", [109], [119]] WireValue.nil.encode,
      .command 0 Env.counting [ascii "get", [107]] (WireValue.str [118]).encode] := by
    rw [recorded]
    simp only [List.replicate, runRequests, execRecorded, execEach, sets, others, gets, held]
    rfl
  obtain ⟨clock, -, spec⟩ := keys_independent run [107]
  refine ⟨loop, traffic, clock, run, history, ?_⟩
  rw [history] at spec
  exact spec

/-- Behind a `set` which was not refused and before anything else is stored under the key, every
client which asks for it gets the value. It gets nothing only if a `del` of the key has come
between, or a timer pass later than a deadline which some `pexpire` has given the key. The
connections are byte queues, as they are in a run which `Buffers.TrafficRun.queues` gives. -/
theorem get_after_set (run : TrafficRun loop phase clock traffic)
    {before between after : List ServerEvent}
    {writer reader : Nat} {env env' : Env} {value : Bytes}
    (split : traffic.history = before ++
      .command writer env [ascii "set", key, val] WireValue.nil.encode :: between ++
      .command reader env' [ascii "get", key] value :: after)
    (kept : ∀ event ∈ between, ¬event.Rewrites key) :
    value = (WireValue.str val).encode ∨
      value = WireValue.nil.encode ∧
        Gone key (before ++ [.command writer env [ascii "set", key, val] WireValue.nil.encode]) between := by
  obtain ⟨-, clock', past, spec⟩ := run.accounted
  have parts : traffic.history = (before ++ [.command writer env [ascii "set", key, val] WireValue.nil.encode] ++
      between ++ [.command reader env' [ascii "get", key] value]) ++ after := by
    rw [split]
    simp
  rw [parts] at spec
  obtain ⟨map', _, asked⟩ := spec.front
  obtain ⟨map, _, spec, happens⟩ := asked.last
  have found := spec.string kept fun map clock spec => spec.set
  cases happens with
  | @command _ _ _ _ _ reply answers =>
      rw [answers.step.of_get rfl, specGet]
      obtain ⟨due, present⟩ | ⟨missing, removed⟩ := found
      · rw [present]
        exact .inl rfl
      · rw [missing]
        exact .inr ⟨rfl, removed⟩

/-- A client which stores a string and asks for it at once gets it. -/
theorem get_after_set_same : ∃ loop traffic, TrafficRun loop (.serving []) 0 traffic ∧
    traffic.history = [.timers Env.counting,
      .command 0 Env.counting [ascii "set", [107], [118]] WireValue.nil.encode,
      .command 0 Env.counting [ascii "get", [107]] (WireValue.str [118]).encode] := by
  have valid : ∀ cmd ∈ [[ascii "set", [107], [118]], [ascii "get", [107]]], ValidRequest cmd := by
    intro cmd member
    simp only [List.mem_cons, List.not_mem_nil, or_false] at member
    obtain rfl | rfl := member
    · exact ⟨by decide, by decide⟩
    · exact ⟨by decide, by decide⟩
  obtain ⟨stored, reply, sets, -, consistent, answers⟩ := @execCmd_answers _ _ Env.counting
    (Server.start_initial.consistent 0) le_rfl _
    (not_negativeTtl (by decide) : ¬NegativeTtl [ascii "set", [107], [118]]) []
  obtain ⟨state', reply', gets, -⟩ := @execCmd_answers _ _ Env.counting consistent le_rfl _
    (not_negativeTtl (by decide) : ¬NegativeTtl [ascii "get", [107]]) []
  obtain rfl : reply = .nil := by
    have result := answers.step.of_set rfl
    rw [Server.start_initial.contents] at result
    exact (Prod.mk.inj result).1
  obtain ⟨loop, traffic, run, recorded⟩ :=
    @TrafficRun.asks _ valid [Env.counting, Env.counting] [] state'
    (by simp [Env.counting]) (by simp [runRequests, execEach, sets, gets])
  have history : traffic.history = [.timers Env.counting] ++
      .command 0 Env.counting [ascii "set", [107], [118]] WireValue.nil.encode :: [] ++
      .command 0 Env.counting [ascii "get", [107]] reply'.encode :: [] := by
    rw [recorded]
    simp [runRequests, execRecorded, execEach, sets, gets]
  obtain value | ⟨-, gone⟩ := get_after_set run history (by simp)
  · exact ⟨loop, traffic, run, by simp [history, value]⟩
  · simp [Gone] at gone

end MiniRedis
