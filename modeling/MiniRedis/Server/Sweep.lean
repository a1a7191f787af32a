import MiniRedis.Server.Lifecycle

/-!
# Deadlines over whole runs

Only timer passes look at deadlines. A pass which removes fewer than `kMaxWorks` keys has
removed every key that was due, and from then on no older deadline comes back.
-/

namespace MiniRedis

/-- The keys without those whose deadline lies before `nowMs`. -/
def Contents.unexpired (map : Contents) (nowMs : Nat) : Contents := fun key =>
  (map key).filter fun record => record.deadline.all (nowMs ≤ ·)

/-- Runs with the clock reading of the last timer pass which ended before it had removed
`kMaxWorks` keys, or zero. -/
inductive SweptRun : Server → Nat → Nat → Prop where
  | initial {state : Server} (initial : state.Initial) (clock : Nat) : SweptRun state clock 0
  | exec {state state' : Server} {clock swept : Nat} (before : SweptRun state clock swept)
      (env : Env) (later : clock ≤ env.now) (cmd : List Bytes) {out out' : Bytes}
      (run : execCmd env state cmd out = some (state', out')) : SweptRun state' env.now swept
  | timers {state state' : Server} {clock swept : Nat} (before : SweptRun state clock swept)
      (env : Env) (later : clock ≤ env.now) (run : processTimers env state = some state') :
      SweptRun state' env.now
        (if hmSize state.db < hmSize state'.db + kMaxWorks then env.now else swept)
  | worker {state state' : Server} {clock swept : Nat} (before : SweptRun state clock swept)
      (ent : Addr) (run : runTask state ent = some state') : SweptRun state' clock swept

variable {state state' : Server} {clock nowMs : Nat} {env : Env} {map map' : Contents}

theorem SweptRun.reachable {swept : Nat} (run : SweptRun state clock swept) : ServerReachable state clock := by
  induction run with
  | initial initial clock => exact .initial initial clock
  | exec before env later cmd run ih => exact ih.exec env later cmd run
  | timers before env later run ih => exact ih.timers env later run
  | worker before ent run ih => exact ih.worker ent run

/-- Every run is one. -/
theorem ServerReachable.swept (reachable : ServerReachable state clock) :
    ∃ swept, SweptRun state clock swept := by
  induction reachable with
  | initial initial clock => exact ⟨_, .initial initial clock⟩
  | exec before env later cmd run ih =>
      obtain ⟨swept, ih⟩ := ih
      exact ⟨_, ih.exec env later cmd run⟩
  | timers before env later run ih =>
      obtain ⟨swept, ih⟩ := ih
      exact ⟨_, ih.timers env later run⟩
  | worker before ent run ih =>
      obtain ⟨swept, ih⟩ := ih
      exact ⟨_, ih.worker ent run⟩

/-! ## The map without its overdue keys -/

theorem Contents.unexpired_eq_self (none : NoneDue nowMs map) : map.unexpired nowMs = map := by
  ext key : 1
  cases found : map key with
  | none => simp [Contents.unexpired, found]
  | some record =>
      cases due : record.deadline with
      | none => simp [Contents.unexpired, found, due]
      | some val => simp [Contents.unexpired, found, due, none key record val found due]

/-- A pass which leaves nothing due has removed exactly what was due. -/
theorem ExpiresOnly.eq_unexpired (expires : ExpiresOnly nowMs map map') (none : NoneDue nowMs map') :
    map' = map.unexpired nowMs := by
  ext key : 1
  rcases expires key with same | ⟨gone, record, val, found, due, past⟩
  · have kept := congrFun (Contents.unexpired_eq_self none) key
    rw [← kept, Contents.unexpired, Contents.unexpired, same]
  · have removed : map.unexpired nowMs key = Option.none := by
      simp [Contents.unexpired, found, due, past]
    rw [gone, removed]

theorem NoneDue.update (none : NoneDue nowMs map) {key : Bytes} {new : Option Record}
    (early : ∀ record val, new = some record → record.deadline = some val → nowMs ≤ val) :
    NoneDue nowMs (Function.update map key new) := by
  intro k record val found due
  rcases eq_or_ne k key with rfl | other
  · rw [Function.update_self] at found
    exact early record val found due
  · rw [Function.update_of_ne other] at found
    exact none k record val found due

/-- A command sets no deadline which lies in the past. -/
theorem SpecStep.noneDue {cmd : List Bytes} {reply : WireValue} (step : SpecStep env map cmd reply map')
    (later : nowMs ≤ env.now) (none : NoneDue nowMs map) : NoneDue nowMs map' := by
  have kept : ∀ key value deadline value', map key = some ⟨value, deadline⟩ →
      NoneDue nowMs (Function.update map key (some ⟨value', deadline⟩)) := by
    intro key value deadline value' present
    apply none.update
    intro record val same due
    cases same
    exact none key _ val present due
  have untimed : ∀ key value, NoneDue nowMs (Function.update map key (some ⟨value, Option.none⟩)) := by
    intro key value
    apply none.update
    intro record val same due
    cases same
    cases due
  cases step with
  | set key val =>
      rw [specSet]
      split
      · exact untimed key _
      · exact kept key _ _ _ ‹_›
      · exact none
  | del key =>
      rw [specDel]
      split
      · exact none
      · apply none.update
        intro record val same
        cases same
  | zadd key score name =>
      rw [specZadd]
      split
      · exact none
      · split
        · exact untimed key _
        · exact kept key _ _ _ ‹_›
        · exact none
  | zrem key name =>
      rw [specZrem]
      split
      · exact none
      · exact kept key _ _ _ ‹_›
      · exact none
  | pexpire key ttl answer =>
      rw [specPexpire] at answer
      split at answer
      · cases answer
        exact none
      · split at answer
        · cases answer
        · split at answer
          · cases answer
            exact none
          · cases answer
            apply none.update
            intro record val same due
            cases same
            cases due
            exact later.trans (Nat.le_add_right _ _)
  | persist key =>
      rw [specPersist]
      split
      · exact untimed key _
      · exact none
  | _ => exact none

/-- Entries which leave the table leave room for as many others. -/
theorem Server.HandsOver.size {destroyed queued : List Addr} (consistent : state.Consistent clock)
    (consistent' : state'.Consistent nowMs) (handsOver : state.HandsOver destroyed queued state') :
    hmSize state.db = hmSize state'.db + (destroyed ++ queued).length := by
  obtain ⟨entries, deadline, tree, invariant⟩ := consistent
  obtain ⟨entries', deadline', tree', invariant'⟩ := consistent'
  have index := invariant.keyed.index
  have index' := invariant'.keyed.index
  have perm : state.db.nodes.Perm (state'.db.nodes ++ (destroyed ++ queued)) := by
    rw [List.perm_ext_iff_of_nodup index.nodup]
    · intro ent
      have linked := handsOver.linked ent
      rw [List.mem_append, handsOver.nodes]
      tauto
    · rw [List.nodup_append]
      refine ⟨index'.nodup, handsOver.once, fun ent left other right same => ?_⟩
      exact ((handsOver.nodes ent).mp left).2 (same ▸ right)
  rw [index.shaped.size, index'.shaped.size, perm.length_eq, List.length_append]

/-- A pass in terms of the map: it is finished if it removed fewer keys than it may. -/
theorem processTimers_swept (consistent : state.Consistent clock) (later : clock ≤ env.now) :
    ∃ state', processTimers env state = some state' ∧
      hmSize state.db ≤ hmSize state'.db + kMaxWorks ∧
      ExpiresOnly env.now state.contents state'.contents ∧
      ExpiresEarliest state.contents state'.contents ∧
      (hmSize state.db < hmSize state'.db + kMaxWorks →
        state'.contents = state.contents.unexpired env.now ∧ NoneDue env.now state'.contents) := by
  obtain ⟨state', destroyed, queued, run, consistent', expires⟩ :=
    processTimers_spec consistent env later
  have size := expires.handsOver.size consistent consistent'
  have bounded := expires.bounded
  refine ⟨state', run, by omega, expires.only, expires.earliest, fun early => ?_⟩
  have none := expires.finished (by omega)
  exact ⟨expires.only.eq_unexpired none, none⟩

/-- No deadline in the map is older than the last finished pass. -/
theorem SweptRun.noneDue {swept : Nat} (run : SweptRun state clock swept) :
    swept ≤ clock ∧ NoneDue swept state.contents := by
  induction run with
  | initial initial clock =>
      refine ⟨Nat.zero_le clock, fun _ _ val _ _ => Nat.zero_le val⟩
  | exec before env later cmd run ih =>
      have allowed : ¬NegativeTtl cmd := fun negative => by
        rw [execCmd_negative negative] at run
        cases run
      obtain ⟨_, _, run', -, -, step⟩ := execCmd_simulates before.reachable.consistent later allowed _
      rw [run] at run'
      cases run'
      exact ⟨ih.1.trans later, step.noneDue (ih.1.trans later) ih.2⟩
  | timers before env later run ih =>
      obtain ⟨_, run', -, only, -, finished⟩ := processTimers_swept before.reachable.consistent later
      rw [run] at run'
      cases run'
      split
      · exact ⟨le_rfl, (finished ‹_›).2⟩
      · exact ⟨ih.1.trans later, fun key record val found due =>
          ih.2 key record val (only.kept found) due⟩
  | worker before ent run ih =>
      have queued := mem_tasks_of_runTask run
      obtain ⟨entries, deadline, tree, invariant⟩ := before.reachable.consistent
      obtain ⟨_, _, run', -, same, -⟩ := runTask_spec invariant queued
      rw [run] at run'
      cases run'
      rw [same]
      exact ih

/-! ## Answers about an absent key -/

/-- The command is answered with one value and changes nothing. -/
def Server.Replies (env : Env) (state : Server) (cmd : List Bytes) (reply : WireValue) : Prop :=
  ∀ out, ∃ state', execCmd env state cmd out = some (state', out ++ reply.encode) ∧
    state'.contents = state.contents

/-- Every command which reads the key, or would extend its life, is answered without it. -/
structure Server.AnswersAbsent (env : Env) (state : Server) (key : Bytes) : Prop where
  get : state.Replies env [ascii "get", key] .nil
  zscore : ∀ name, state.Replies env [ascii "zscore", key, name] .nil
  zrank : ∀ name, state.Replies env [ascii "zrank", key, name] .nil
  zquery : ∀ scoreArg name offsetArg limitArg score offset limit,
    str2dbl env.strtod scoreArg = some score → str2int offsetArg = some offset →
    str2int limitArg = some limit →
      state.Replies env [ascii "zquery", key, scoreArg, name, offsetArg, limitArg] (.arr [])
  keys : ∀ out, ∃ (state' : Server) (names : List Bytes),
    execCmd env state [ascii "keys"] out = some (state', out ++ (WireValue.arr (names.map .str)).encode) ∧
      state'.contents = state.contents ∧ key ∉ names
  pttl : state.Replies env [ascii "pttl", key] (.int (-2))
  persist : state.Replies env [ascii "persist", key] (.int 0)

theorem Server.Consistent.answersAbsent (consistent : state.Consistent clock)
    (later : clock ≤ env.now) {key : Bytes} (absent : state.contents key = none) : state.AnswersAbsent env key := by
  obtain ⟨found, state', run, looked⟩ := getEntry_looked consistent key
  cases looked with
  | str invariant same member named typed answer => simp [absent] at answer
  | zset invariant same member named typed answer => simp [absent] at answer
  | absent invariant same missing answer =>
      have empty : ∀ out, outArr out 0 = out ++ (WireValue.arr []).encode := by
        intro out
        rw [← outArr_eq out [], WireValue.encodeItems, List.append_nil]
        rfl
      constructor
      · intro out
        have target : (cmdTable.find? fun entry => ascii "get" == ascii entry.name) =
            some ⟨"get", execGet, 2⟩ := rfl
        exact ⟨state', by simp [execCmd, target, execGet, run, outNil_eq], same⟩
      · intro name out
        have target : (cmdTable.find? fun entry => ascii "zscore" == ascii entry.name) =
            some ⟨"zscore", execZscore, 3⟩ := rfl
        exact ⟨state', by simp [execCmd, target, execZscore, withZset, run, outNil_eq], same⟩
      · intro name out
        have target : (cmdTable.find? fun entry => ascii "zrank" == ascii entry.name) =
            some ⟨"zrank", execZrank, 3⟩ := rfl
        exact ⟨state', by simp [execCmd, target, execZrank, withZset, run, outNil_eq], same⟩
      · intro scoreArg name offsetArg limitArg score offset limit parsed parsedOffset parsedLimit out
        have target : (cmdTable.find? fun entry => ascii "zquery" == ascii entry.name) =
            some ⟨"zquery", execZquery, 6⟩ := rfl
        refine ⟨state', ?_, same⟩
        simp [execCmd, target, execZquery, withZset, parsed, parsedOffset, parsedLimit, run, empty]
      · intro out
        have allowed : ¬NegativeTtl [ascii "keys"] := not_negativeTtl (by decide)
        obtain ⟨final, reply, listed, -, -, step⟩ := execCmd_simulates consistent later allowed out
        obtain ⟨kept, names, rfl, present⟩ := step.of_keys rfl
        refine ⟨final, names, listed, kept, ?_⟩
        simp [present, absent]
      · intro out
        have target : (cmdTable.find? fun entry => ascii "pttl" == ascii entry.name) =
            some ⟨"pttl", execPttl, 2⟩ := rfl
        exact ⟨state', by simp [execCmd, target, execPttl, run, outInt_eq], same⟩
      · intro out
        have target : (cmdTable.find? fun entry => ascii "persist" == ascii entry.name) =
            some ⟨"persist", execPersist, 2⟩ := rfl
        exact ⟨state', by simp [execCmd, target, execPersist, run, outInt_eq], same⟩

/-! ## Deadlines and passes -/

/-- `pexpire z 10` at zero, a timer pass at zero, and `persist z` at eleven: the deadline
has passed, and the key is given a life without one. -/
theorem expired_key_revived : ∃ (before state state' : Server), ServerReachable before 0 ∧
    processTimers Env.counting before = some state ∧ ServerReachable state 0 ∧
    state.contents [122] = some ⟨.zset singleScore, some 10⟩ ∧ 10 < Env.late.now ∧
    execCmd Env.late state [ascii "persist", [122]] [] = some (state', (WireValue.int 1).encode) ∧
    state'.contents [122] = some ⟨.zset singleScore, none⟩ ∧
    ¬state.AnswersAbsent Env.late [122] := by
  obtain ⟨before, reachable, stored⟩ := reachable_pexpire
  obtain ⟨state, pass, -, only, -⟩ :=
    @processTimers_swept _ _ Env.counting reachable.consistent le_rfl
  have reachable' := reachable.timers Env.counting le_rfl pass
  have kept : state.contents [122] = some ⟨.zset singleScore, some 10⟩ := by
    rcases only [122] with same | ⟨-, record, val, found, due, past⟩
    · rw [same, stored]
    · exact absurd past (Nat.not_lt_zero val)
  have allowed : ¬NegativeTtl [ascii "persist", [122]] := not_negativeTtl (by decide)
  obtain ⟨state', reply, run, -, -, step⟩ := @execCmd_simulates _ _ Env.late
    reachable'.consistent (Nat.zero_le _) _ allowed []
  have answer := step.of_persist rfl
  rw [specPersist, kept] at answer
  obtain ⟨rfl, moved⟩ := Prod.mk.inj answer
  refine ⟨before, state, state', reachable, pass, reachable', kept, by decide, run, ?_, fun absent => ?_⟩
  · rw [moved, Function.update_self]
  · obtain ⟨_, run', -⟩ := absent.persist []
    have same := congrArg Prod.snd (Option.some.inj (run.symm.trans run'))
    have differ : [] ++ (WireValue.int 1).encode ≠ [] ++ (WireValue.int 0).encode := by decide
    exact differ same

/-- No key in the map has a deadline before the last finished pass, and a key which the pass
has removed is answered as absent. A pass removes only keys which are due, the earliest
first, and all of them unless it reaches its limit. Between passes a command is answered by
the map, whatever its deadlines. -/
theorem expiry_reachable {swept : Nat} (run : SweptRun state clock swept) :
    state.contents.unexpired swept = state.contents ∧
    (∀ (env : Env) (key : Bytes), clock ≤ env.now → state.contents.unexpired swept key = none →
      state.AnswersAbsent env key) ∧
    (∀ env : Env, clock ≤ env.now → ∃ state', processTimers env state = some state' ∧
      hmSize state.db ≤ hmSize state'.db + kMaxWorks ∧
      ExpiresOnly env.now state.contents state'.contents ∧
      ExpiresEarliest state.contents state'.contents ∧
      (hmSize state.db < hmSize state'.db + kMaxWorks →
        state'.contents = state.contents.unexpired env.now ∧
        ∀ (env' : Env) (key : Bytes), env.now ≤ env'.now →
          state.contents.unexpired env.now key = none → state'.AnswersAbsent env' key)) ∧
    ∀ (env : Env) (cmd : List Bytes) (out : Bytes), clock ≤ env.now → ¬NegativeTtl cmd →
      ∃ state' reply, execCmd env state cmd out = some (state', out ++ reply.encode) ∧
        SpecStep env state.contents cmd reply state'.contents := by
  have consistent := run.reachable.consistent
  have unexpired := Contents.unexpired_eq_self run.noneDue.2
  refine ⟨unexpired, fun env key later absent => ?_, fun env later => ?_,
    fun env cmd out later allowed => ?_⟩
  · rw [unexpired] at absent
    exact consistent.answersAbsent later absent
  · obtain ⟨state', pass, bounded, only, earliest, finished⟩ := processTimers_swept consistent later
    refine ⟨state', pass, bounded, only, earliest, fun early => ?_⟩
    obtain ⟨moved, -⟩ := finished early
    refine ⟨moved, fun env' key later' absent => ?_⟩
    have consistent' := (run.reachable.timers env later pass).consistent
    exact consistent'.answersAbsent later' (moved ▸ absent)
  · obtain ⟨state', reply, answered, -, -, step⟩ := execCmd_simulates consistent later allowed out
    exact ⟨state', reply, answered, step⟩

/-- The pass at eleven takes nothing but keys which are due. -/
theorem expiry_reachable_late : ∃ state state' : Server,
    state.contents [122] = some ⟨.zset singleScore, some 10⟩ ∧
      processTimers Env.late state = some state' ∧
      ExpiresOnly Env.late.now state.contents state'.contents := by
  obtain ⟨state, reachable, stored⟩ := reachable_pexpire
  obtain ⟨swept, run⟩ := reachable.swept
  obtain ⟨state', pass, -, only, -⟩ := (expiry_reachable run).2.2.1 Env.late (Nat.zero_le _)
  exact ⟨state, state', stored, pass, only⟩

end MiniRedis
