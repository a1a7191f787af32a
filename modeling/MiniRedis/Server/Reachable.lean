import MiniRedis.Server.ZSetCommands

/-!
# The database over whole runs
-/

namespace MiniRedis

open Binary64

/-- A `pexpire` whose time to live parses to a negative number. -/
def NegativeTtl (cmd : List Bytes) : Prop :=
  ∃ key ttl ttlMs, cmd = [ascii "pexpire", key, ttl] ∧ str2int ttl = some ttlMs ∧ ttlMs < 0

/-- Only `pexpire` fails on a negative number. -/
theorem not_negativeTtl {name : Bytes} {args : List Bytes} (differs : name ≠ ascii "pexpire") :
    ¬NegativeTtl (name :: args) := by
  rintro ⟨key, ttl, ttlMs, same, -⟩
  exact differs (List.cons.inj same).1

variable {state : Server} {clock : Nat} {env : Env}

/-- Each entry of the command table names a handler which simulates the map. -/
theorem handler_simulates (consistent : state.Consistent clock) (later : clock ≤ env.now)
    {entry : CmdEntry} (listed : entry ∈ cmdTable) {args : List Bytes}
    (arity : (ascii entry.name :: args).length = entry.arity)
    (allowed : ¬NegativeTtl (ascii entry.name :: args)) (out : Bytes) :
    Simulates env state (ascii entry.name :: args) out
      (entry.handler env state (ascii entry.name :: args) out) := by
  simp only [cmdTable, List.mem_cons, List.not_mem_nil, or_false] at listed
  rcases listed with rfl | rfl | rfl | rfl | rfl | rfl | rfl | rfl | rfl | rfl | rfl | rfl
  · match args, arity with
    | [key], _ => exact execGet_simulates consistent later key out
  · match args, arity with
    | [key, val], _ => exact execSet_simulates consistent later key val out
  · match args, arity with
    | [key], _ => exact execDel_simulates consistent later key out
  · match args, arity with
    | [], _ => exact execKeys_simulates consistent later out
  · match args, arity with
    | [key, score, name], _ => exact execZadd_simulates consistent later key score name out
  · match args, arity with
    | [key, name], _ => exact execZrem_simulates consistent later key name out
  · match args, arity with
    | [key, name], _ => exact execZscore_simulates consistent later key name out
  · match args, arity with
    | [key, name], _ => exact execZrank_simulates consistent later key name out
  · match args, arity with
    | [key, score, name, offset, limit], _ =>
      exact execZquery_simulates consistent later key score name offset limit out
  · match args, arity with
    | [key, ttl], _ =>
      apply execPexpire_simulates consistent later key ttl out
      intro ttlMs parsed
      by_contra negative
      exact allowed ⟨key, ttl, ttlMs, rfl, parsed, by omega⟩
  · match args, arity with
    | [key], _ => exact execPersist_simulates consistent later key out
  · match args, arity with
    | [key], _ => exact execPttl_simulates consistent later key out

/-- From a consistent state every command but a negative `pexpire` simulates the map. -/
theorem execCmd_simulates (consistent : state.Consistent clock) (later : clock ≤ env.now)
    {cmd : List Bytes} (allowed : ¬NegativeTtl cmd) (out : Bytes) :
    Simulates env state cmd out (execCmd env state cmd out) := by
  have unmoved := consistent.later later
  cases cmd with
  | nil =>
      exact .unchanged _ (by simp [execCmd, outErr_eq]) (errValue_fits .unknown "unknown command.")
        unmoved rfl (.unknown [] (by simp))
  | cons name args =>
      cases target : cmdTable.find? fun entry => name == ascii entry.name with
      | none =>
          refine .unchanged _ (by simp [execCmd, target, outErr_eq])
            (errValue_fits .unknown "unknown command.") unmoved rfl (.unknown _ ?_)
          intro name' first entry listed
          rw [List.head?_cons, Option.mem_some_iff] at first
          subst first
          simpa using List.find?_eq_none.mp target entry listed
      | some entry =>
          have listed := List.mem_of_find?_eq_some target
          have named : name = ascii entry.name := by simpa using List.find?_some target
          by_cases arity : (name :: args).length = entry.arity
          · have run : execCmd env state (name :: args) out =
                entry.handler env state (name :: args) out := by
              simp only [execCmd, target, if_neg (not_not_intro arity)]
            rw [run]
            subst named
            exact handler_simulates consistent later listed arity allowed out
          · refine .unchanged _ ?_ (errValue_fits .unknown "wrong number of arguments.") unmoved rfl
              (.arity name args listed named arity)
            simp only [execCmd, target, if_pos arity, outErr_eq]

/-- A negative time to live fails the assertion of `exec_pexpire`. -/
theorem execCmd_negative {cmd : List Bytes} (negative : NegativeTtl cmd) (out : Bytes) :
    execCmd env state cmd out = none := by
  obtain ⟨key, ttl, ttlMs, rfl, parsed, below⟩ := negative
  have target : (cmdTable.find? fun entry => ascii "pexpire" == ascii entry.name) =
      some ⟨"pexpire", execPexpire, 3⟩ := rfl
  have fails : ¬0 ≤ ttlMs := by omega
  simp [execCmd, target, execPexpire, parsed, fails]

/-- A command which returns was no negative `pexpire` and keeps the invariant. -/
theorem Server.Consistent.command {state' : Server} {cmd : List Bytes} {out out' : Bytes}
    (consistent : state.Consistent clock) (later : clock ≤ env.now)
    (run : execCmd env state cmd out = some (state', out')) : state'.Consistent env.now := by
  have allowed : ¬NegativeTtl cmd := fun negative => by
    rw [execCmd_negative negative] at run
    cases run
  obtain ⟨_, _, run', -, consistent', -⟩ := execCmd_simulates consistent later allowed out
  rw [run] at run'
  cases run'
  exact consistent'

/-- The invariant holds in every state of every run. -/
theorem ServerReachable.consistent (reachable : ServerReachable state clock) :
    state.Consistent clock := by
  induction reachable with
  | initial initial clock => exact initial.consistent clock
  | exec before env later cmd run ih => exact ih.command later run
  | timers before env later run ih =>
      obtain ⟨_, _, _, run', consistent, -⟩ := processTimers_spec ih env later
      rw [run] at run'
      cases run'
      exact consistent
  | worker before ent run ih =>
      obtain ⟨entries, deadline, tree, invariant⟩ := ih
      obtain ⟨_, tree', run', invariant', -⟩ := runTask_spec invariant (mem_tasks_of_runTask run)
      rw [run] at run'
      cases run'
      exact invariant'.consistent

/-! ## A run to start from -/

/-- The state in which a server starts. -/
def Server.start : Server where
  ttlHeap := { heapIdx := fun _ => none }
  key := fun _ => []
  hcode := fun _ => 0
  type := fun _ => .init
  str := fun _ => []
  zset := fun _ => {}
  zmemory := ⟨fun _ => {}, fun _ => 0, fun _ => ⟨⟨0⟩, by decide⟩, fun _ => [], ∅⟩

theorem Server.start_initial : Server.start.Initial := ⟨rfl, rfl, rfl, rfl, rfl⟩

theorem succ_sup_notMem (live : Finset Addr) : live.sup id + 1 ∉ live := fun member =>
  Nat.not_succ_le_self _ (@Finset.le_sup _ _ _ _ live id _ member)

/-- Allocators which count up, and a `strtod` which reads any text as zero. -/
def Env.counting : Env where
  now := 0
  nowBound := by norm_num
  strtod s := (⟨0⟩, s.length)
  newEntry live := live.sup id + 1
  newEntryFresh := succ_sup_notMem
  malloc live := live.sup id + 1
  mallocFresh := succ_sup_notMem

/-- `Env.counting` eleven milliseconds later. -/
def Env.late : Env := { Env.counting with
  now := 11
  nowBound := by norm_num }

/-- The command table lists each name once. -/
theorem cmdTable_named {entry other : CmdEntry} (listed : entry ∈ cmdTable)
    (listed' : other ∈ cmdTable) (same : ascii other.name = ascii entry.name) : other = entry := by
  have names : (cmdTable.map fun entry => ascii entry.name).Nodup := by decide
  exact List.inj_on_of_nodup_map names listed' listed same

/-- A command with a listed name is not answered as unknown. -/
theorem not_unlisted {entry : CmdEntry} (listed : entry ∈ cmdTable) {cmd args : List Bytes}
    (same : cmd = ascii entry.name :: args)
    (unlisted : ∀ name ∈ cmd.head?, ∀ entry ∈ cmdTable, name ≠ ascii entry.name) : False :=
  unlisted _ (by rw [same]; rfl) entry listed rfl

/-- A command with the arity of its name is not answered as one with a wrong number of arguments. -/
theorem not_misfit {entry other : CmdEntry} (listed : entry ∈ cmdTable) (listed' : other ∈ cmdTable)
    {name : Bytes} {args args' : List Bytes} (named : name = ascii other.name)
    (same : name :: args = ascii entry.name :: args') (fits : args'.length + 1 = entry.arity)
    (differs : (name :: args).length ≠ other.arity) : False := by
  have names : ascii other.name = ascii entry.name := named.symm.trans (List.cons.inj same).1
  rw [cmdTable_named listed listed' names, same, List.length_cons] at differs
  exact differs fits

theorem SpecStep.of_get {map map' : Contents} {cmd : List Bytes} {reply : WireValue}
    (step : SpecStep env map cmd reply map') {key : Bytes} (same : cmd = [ascii "get", key]) :
    reply = specGet map key := by
  have listed : ⟨"get", execGet, 2⟩ ∈ cmdTable := by simp [cmdTable]
  cases step <;> try (simp [ascii] at same; done)
  case get =>
    cases same
    rfl
  case unknown unlisted => exact (not_unlisted listed same unlisted).elim
  case arity listed' named differs => exact (not_misfit listed listed' named same rfl differs).elim

theorem SpecStep.of_set {map map' : Contents} {cmd : List Bytes} {reply : WireValue}
    (step : SpecStep env map cmd reply map') {key val : Bytes}
    (same : cmd = [ascii "set", key, val]) : (reply, map') = specSet map key val := by
  have listed : ⟨"set", execSet, 3⟩ ∈ cmdTable := by simp [cmdTable]
  cases step <;> try (simp [ascii] at same; done)
  case set =>
    cases same
    rfl
  case unknown unlisted => exact (not_unlisted listed same unlisted).elim
  case arity listed' named differs => exact (not_misfit listed listed' named same rfl differs).elim

theorem SpecStep.of_keys {map map' : Contents} {cmd : List Bytes} {reply : WireValue}
    (step : SpecStep env map cmd reply map') (same : cmd = [ascii "keys"]) :
    map' = map ∧ ∃ names : List Bytes, reply = .arr (names.map .str) ∧
      ∀ key, key ∈ names ↔ (map key).isSome := by
  have listed : ⟨"keys", execKeys, 1⟩ ∈ cmdTable := by simp [cmdTable]
  cases step <;> try (simp [ascii] at same; done)
  case keys names nodup present => exact ⟨rfl, names, rfl, present⟩
  case unknown unlisted => exact (not_unlisted listed same unlisted).elim
  case arity listed' named differs => exact (not_misfit listed listed' named same rfl differs).elim

theorem SpecStep.of_persist {map map' : Contents} {cmd : List Bytes} {reply : WireValue}
    (step : SpecStep env map cmd reply map') {key : Bytes} (same : cmd = [ascii "persist", key]) :
    (reply, map') = specPersist map key := by
  have listed : ⟨"persist", execPersist, 2⟩ ∈ cmdTable := by simp [cmdTable]
  cases step <;> try (simp [ascii] at same; done)
  case persist =>
    cases same
    rfl
  case unknown unlisted => exact (not_unlisted listed same unlisted).elim
  case arity listed' named differs => exact (not_misfit listed listed' named same rfl differs).elim

theorem SpecStep.of_zadd {map map' : Contents} {cmd : List Bytes} {reply : WireValue}
    (step : SpecStep env map cmd reply map') {key score name : Bytes}
    (same : cmd = [ascii "zadd", key, score, name]) :
    (reply, map') = specZadd env map key score name := by
  have listed : ⟨"zadd", execZadd, 4⟩ ∈ cmdTable := by simp [cmdTable]
  cases step <;> try (simp [ascii] at same; done)
  case zadd =>
    cases same
    rfl
  case unknown unlisted => exact (not_unlisted listed same unlisted).elim
  case arity listed' named differs => exact (not_misfit listed listed' named same rfl differs).elim

theorem SpecStep.of_pexpire {map map' : Contents} {cmd : List Bytes} {reply : WireValue}
    (step : SpecStep env map cmd reply map') {key ttl : Bytes}
    (same : cmd = [ascii "pexpire", key, ttl]) :
    specPexpire env map key ttl = some (reply, map') := by
  have listed : ⟨"pexpire", execPexpire, 3⟩ ∈ cmdTable := by simp [cmdTable]
  cases step <;> try (simp [ascii] at same; done)
  case pexpire answer =>
    cases same
    exact answer
  case unknown unlisted => exact (not_unlisted listed same unlisted).elim
  case arity listed' named differs => exact (not_misfit listed listed' named same rfl differs).elim

/-- The scores after one `zadd` of the name `a` with the score zero. -/
def singleScore : Bytes → Option Number :=
  Function.update (fun _ => none) [97] (some ⟨⟨0⟩, by decide⟩)

/-- The map which holds that sorted set under the key `z`. -/
def singleKey (deadline : Option Nat) : Contents :=
  Function.update (fun _ => none) [122] (some ⟨.zset singleScore, deadline⟩)

/-- `zadd z 0 a` on a server which has just started. -/
theorem execCmd_zadd_start : ∃ state out,
    execCmd Env.counting Server.start [ascii "zadd", [122], [48], [97]] [] = some (state, out) ∧
      state.Consistent 0 ∧ state.contents = singleKey none := by
  have allowed : ¬NegativeTtl [ascii "zadd", [122], [48], [97]] := not_negativeTtl (by decide)
  obtain ⟨state, reply, run, -, consistent, step⟩ := @execCmd_simulates _ _ Env.counting
    (Server.start_initial.consistent 0) le_rfl _ allowed []
  have contents := congrArg Prod.snd (step.of_zadd rfl)
  exact ⟨state, _, run, consistent, contents⟩

theorem not_negativeTtl_of_str2int {key arg : Bytes} {ttl : Nat}
    (parsed : str2int arg = some (ttl : Int)) : ¬NegativeTtl [ascii "pexpire", key, arg] := by
  rintro ⟨key', other, ttlMs, same, parsed', below⟩
  obtain ⟨-, rfl⟩ : key' = key ∧ other = arg := by simpa [eq_comm] using same
  rw [parsed, Option.some.injEq] at parsed'
  omega

theorem specPexpire_present {map : Contents} {key arg : Bytes} {ttl : Nat} {value : Value}
    {deadline : Option Nat} (parsed : str2int arg = some (ttl : Int))
    (present : map key = some ⟨value, deadline⟩) : specPexpire env map key arg =
      some (.int 1, Function.update map key (some ⟨value, some (env.now + ttl)⟩)) := by
  rw [specPexpire, parsed]
  simp [present]

/-- `pexpire z` after it, with an argument which is accepted. -/
theorem execCmd_pexpire_single {arg : Bytes} {ttl : Nat} (parsed : str2int arg = some (ttl : Int))
    (consistent : state.Consistent 0) (stored : state.contents = singleKey none) :
    ∃ state', execCmd Env.counting state [ascii "pexpire", [122], arg] [] =
      some (state', outInt [] 1) ∧ state'.contents = singleKey (some ttl) := by
  have allowed : ¬NegativeTtl [ascii "pexpire", [122], arg] := not_negativeTtl_of_str2int parsed
  obtain ⟨state', reply, run, -, -, step⟩ := @execCmd_simulates _ _ Env.counting
    consistent le_rfl _ allowed []
  have answer := step.of_pexpire rfl
  have present : state.contents [122] = some ⟨.zset singleScore, none⟩ := by
    rw [stored, singleKey, Function.update_self]
  rw [specPexpire_present parsed present, Option.some.injEq, Prod.mk.injEq] at answer
  obtain ⟨rfl, contents⟩ := answer
  rw [← outInt_eq] at run
  refine ⟨state', run, ?_⟩
  rw [← contents, stored, singleKey, Function.update_idem, singleKey]
  simp [Env.counting]

/-- `zadd z 0 a`, and a `pexpire` behind it. -/
theorem reachable_pexpire_arg {arg : Bytes} {ttl : Nat} (parsed : str2int arg = some (ttl : Int)) :
    ∃ state state', ServerReachable state 0 ∧ ServerReachable state' 0 ∧
      execCmd Env.counting state [ascii "pexpire", [122], arg] [] = some (state', outInt [] 1) ∧
      state'.contents [122] = some ⟨.zset singleScore, some ttl⟩ := by
  obtain ⟨state, _, added, consistent, stored⟩ := execCmd_zadd_start
  obtain ⟨state', run, stored'⟩ := execCmd_pexpire_single parsed consistent stored
  have reachable : ServerReachable state 0 :=
    .exec (.initial Server.start_initial 0) Env.counting le_rfl _ added
  refine ⟨state, state', reachable, .exec reachable Env.counting le_rfl _ run, run, ?_⟩
  rw [stored', singleKey, Function.update_self]

/-- The key then has the deadline ten. -/
theorem reachable_pexpire : ∃ state, ServerReachable state 0 ∧
    state.contents [122] = some ⟨.zset singleScore, some 10⟩ := by
  have ten : str2int [49, 48] = some ((10 : Nat) : Int) := by decide
  obtain ⟨-, state, -, reachable, -, stored⟩ := reachable_pexpire_arg ten
  exact ⟨state, reachable, stored⟩

/-- `Env.counting` with a `strtod` which reads the text `1` as one. -/
def Env.reading : Env := { Env.counting with
  strtod s := (if s = [49] then ⟨0x3FF0000000000000⟩ else ⟨0⟩, s.length) }

def scoreZero : Number := ⟨⟨0⟩, by decide⟩

def scoreOne : Number := ⟨⟨0x3FF0000000000000⟩, by decide⟩

/-- The scores of a set whose member `a` has moved behind `b`. -/
def movedScores : Bytes → Option Number :=
  Function.update (Function.update (fun _ => none) [97] (some scoreOne)) [98] (some scoreZero)

theorem ServerReachable.answers (reachable : ServerReachable state 0) {cmd : List Bytes}
    (allowed : ¬NegativeTtl cmd) : ∃ state' reply, ServerReachable state' 0 ∧
      SpecStep Env.reading state.contents cmd reply state'.contents := by
  obtain ⟨state', reply, run, -, -, step⟩ := @execCmd_simulates _ _ Env.reading reachable.consistent
    le_rfl _ allowed []
  exact ⟨state', reply, reachable.exec Env.reading le_rfl _ run, step⟩

/-- The commands `set k v`, `zadd z 0 a`, `zadd z 0 b`, `zadd z 1 a`, `pexpire z 10` and
`pexpire k 20` on a server which has just started. -/
theorem reachable_stocked : ∃ state, ServerReachable state 0 ∧
    state.contents [107] = some ⟨.str [118], some 20⟩ ∧
    state.contents [122] = some ⟨.zset movedScores, some 10⟩ := by
  have zero : str2dbl Env.reading.strtod [48] = some scoreZero := rfl
  have one : str2dbl Env.reading.strtod [49] = some scoreOne := rfl
  have ten : str2int [49, 48] = some ((10 : Nat) : Int) := by decide
  have twenty : str2int [50, 48] = some ((20 : Nat) : Int) := by decide
  have apart : ([107] : Bytes) ≠ [122] := by decide
  have adds : ∀ args, ¬NegativeTtl (ascii "zadd" :: args) := fun _ => not_negativeTtl (by decide)
  obtain ⟨state, _, run, step⟩ := (ServerReachable.initial Server.start_initial 0).answers
    (@not_negativeTtl (ascii "set") [[107], [118]] (by decide))
  have answer := congrArg Prod.snd (step.of_set rfl)
  obtain ⟨k, z⟩ : state.contents [107] = some ⟨.str [118], none⟩ ∧ state.contents [122] = none :=
    ⟨congrFun answer [107], congrFun answer [122]⟩
  obtain ⟨state, _, run, step⟩ := run.answers (adds [[122], [48], [97]])
  have answer := congrArg Prod.snd (step.of_zadd rfl)
  simp only [specZadd, zero, z] at answer
  obtain ⟨k, z⟩ : state.contents [107] = some ⟨.str [118], none⟩ ∧ state.contents [122] =
      some ⟨.zset (Function.update (fun _ => none) [97] (some scoreZero)), none⟩ := by
    rw [answer, Function.update_self, Function.update_of_ne apart]
    exact ⟨k, rfl⟩
  obtain ⟨state, _, run, step⟩ := run.answers (adds [[122], [48], [98]])
  have answer := congrArg Prod.snd (step.of_zadd rfl)
  simp only [specZadd, zero, z] at answer
  obtain ⟨k, z⟩ : state.contents [107] = some ⟨.str [118], none⟩ ∧ state.contents [122] =
      some ⟨.zset (Function.update (Function.update (fun _ => none) [97] (some scoreZero)) [98]
        (some scoreZero)), none⟩ := by
    rw [answer, Function.update_self, Function.update_of_ne apart]
    exact ⟨k, rfl⟩
  -- the score of the first member is replaced
  obtain ⟨state, _, run, step⟩ := run.answers (adds [[122], [49], [97]])
  have answer := congrArg Prod.snd (step.of_zadd rfl)
  simp only [specZadd, one, z] at answer
  obtain ⟨k, z⟩ : state.contents [107] = some ⟨.str [118], none⟩ ∧
      state.contents [122] = some ⟨.zset movedScores, none⟩ := by
    have settled : insertedScore (some scoreZero) scoreOne = scoreOne := by decide
    rw [answer, Function.update_self, Function.update_of_ne apart, movedScores,
      Function.update_of_ne (by decide), Function.update_self, settled,
      Function.update_comm (by decide), Function.update_idem]
    exact ⟨k, rfl⟩
  obtain ⟨state, _, run, step⟩ := run.answers (@not_negativeTtl_of_str2int [122] _ _ ten)
  have answer := step.of_pexpire rfl
  rw [specPexpire_present ten z, Option.some.injEq, Prod.mk.injEq] at answer
  obtain ⟨k, z⟩ : state.contents [107] = some ⟨.str [118], none⟩ ∧
      state.contents [122] = some ⟨.zset movedScores, some 10⟩ := by
    rw [← answer.2, Function.update_self, Function.update_of_ne apart]
    exact ⟨k, rfl⟩
  obtain ⟨state, _, run, step⟩ := run.answers (@not_negativeTtl_of_str2int [107] _ _ twenty)
  have answer := step.of_pexpire rfl
  rw [specPexpire_present twenty k, Option.some.injEq, Prod.mk.injEq] at answer
  refine ⟨state, run, ?_, ?_⟩
  · rw [← answer.2, Function.update_self]
    rfl
  · rw [← answer.2, Function.update_of_ne apart.symm, z]

/-- The members of the moved set in the order of score and name. -/
theorem movedScores_members {members : List (Bytes × Number)}
    (sorted : members.Pairwise fun p q => pairKey p.2 p.1 < pairKey q.2 q.1)
    (complete : ∀ name score, (name, score) ∈ members ↔ movedScores name = some score) :
    members = [([98], scoreZero), ([97], scoreOne)] := by
  have ordered : [([98], scoreZero), ([97], scoreOne)].Pairwise
      fun p q : Bytes × Number => pairKey p.2 p.1 < pairKey q.2 q.1 :=
    List.pairwise_pair.mpr (pairKey_lt_iff.mpr (.inl (by decide)))
  have nodup : members.Nodup := sorted.imp fun less same => by simp [same] at less
  have perm : members.Perm [([98], scoreZero), ([97], scoreOne)] := by
    refine (List.perm_ext_iff_of_nodup nodup (by decide)).mpr ?_
    rintro ⟨name, score⟩
    rw [complete, movedScores, Function.update_apply, Function.update_apply]
    by_cases b : name = [98]
    · simp [b, eq_comm]
    · by_cases a : name = [97] <;> simp [a, b, eq_comm]
  exact perm.eq_of_pairwise (fun p q _ _ less greater => absurd (less.trans greater) (lt_irrefl _))
    sorted ordered

/-! ## Simulation -/

/-- Whatever has happened before, a command answers as the map of the state dictates, and
the state it leaves represents the map which the specification names. -/
theorem exec_refines (reachable : ServerReachable state clock) (later : clock ≤ env.now)
    (cmd : List Bytes) (allowed : ¬NegativeTtl cmd) (out : Bytes) :
    ∃ state' reply, execCmd env state cmd out = some (state', out ++ reply.encode) ∧ reply.Fits ∧
      SpecStep env state.contents cmd reply state'.contents ∧ state'.Consistent env.now := by
  obtain ⟨state', reply, run, fits, consistent, step⟩ :=
    execCmd_simulates reachable.consistent later allowed out
  exact ⟨state', reply, run, fits, step, consistent⟩

/-- With a string, a sorted set and two deadlines, `zadd z 0 a` moves the member back. -/
theorem exec_refines_stocked : ∃ state state' reply,
    state.contents [107] = some ⟨.str [118], some 20⟩ ∧
    state.contents [122] = some ⟨.zset movedScores, some 10⟩ ∧
    execCmd Env.reading state [ascii "zadd", [122], [48], [97]] [] =
      some (state', [] ++ reply.encode) ∧ reply.Fits ∧
    SpecStep Env.reading state.contents [ascii "zadd", [122], [48], [97]] reply state'.contents ∧
    state'.Consistent Env.reading.now := by
  obtain ⟨state, reachable, k, z⟩ := reachable_stocked
  obtain ⟨state', reply, answered⟩ := @exec_refines _ _ Env.reading reachable le_rfl
    [ascii "zadd", [122], [48], [97]] (not_negativeTtl (by decide)) []
  exact ⟨state, state', reply, k, z, answered⟩

/-! ## Termination of commands -/

/-- A command of a client completes unless it is a negative `pexpire`. -/
theorem exec_completes_iff (reachable : ServerReachable state clock) (later : clock ≤ env.now)
    (cmd : List Bytes) (out : Bytes) :
    (∃ result, execCmd env state cmd out = some result) ↔ ¬NegativeTtl cmd := by
  constructor
  · rintro ⟨result, run⟩ negative
    rw [execCmd_negative negative] at run
    cases run
  · intro allowed
    obtain ⟨state', reply, run, -⟩ := execCmd_simulates reachable.consistent later allowed out
    exact ⟨_, run⟩

/-- With a string, a sorted set and two deadlines, a deadline is moved, but not to the past. -/
theorem exec_completes_stocked : ∃ state : Server,
    state.contents [107] = some ⟨.str [118], some 20⟩ ∧
    state.contents [122] = some ⟨.zset movedScores, some 10⟩ ∧
    (∃ result, execCmd Env.reading state [ascii "pexpire", [122], [49, 48]] [] = some result) ∧
    ¬∃ result, execCmd Env.reading state [ascii "pexpire", [122], ascii "-1"] [] = some result := by
  obtain ⟨state, reachable, k, z⟩ := reachable_stocked
  have ten : str2int [49, 48] = some ((10 : Nat) : Int) := by decide
  have negative : NegativeTtl [ascii "pexpire", [122], ascii "-1"] :=
    ⟨_, _, -1, rfl, by decide, by decide⟩
  have completes := @exec_completes_iff _ _ Env.reading reachable le_rfl
  exact ⟨state, k, z, (completes _ []).mpr (not_negativeTtl_of_str2int ten),
    fun completed => (completes _ []).mp completed negative⟩

/-- `pexpire k -1` aborts a server which has just started. -/
theorem exec_pexpire_aborts : ∃ state clock, ServerReachable state clock ∧
    clock ≤ Env.counting.now ∧
      execCmd Env.counting state [ascii "pexpire", ascii "k", ascii "-1"] [] = none := by
  refine ⟨Server.start, 0, .initial Server.start_initial 0, le_rfl, execCmd_negative ?_ []⟩
  exact ⟨ascii "k", ascii "-1", -1, rfl, by decide, by norm_num⟩

/-! ## The heap and the entries -/

/-- Heap items and entries with a heap index point at each other, no item is shared, and
no item is smaller than its parent. -/
theorem ttl_heap_reachable (reachable : ServerReachable state clock) :
    (∀ i item, state.ttlHeap.arr[i]? = some item →
        state.heapIdx item.ref = some i ∧ item.ref ∈ state.db.nodes) ∧
      (∀ ent ∈ state.db.nodes,
        state.heapIdx ent = none ∧ (∀ item ∈ state.ttlHeap.arr, item.ref ≠ ent) ∨
          ∃ i item, state.heapIdx ent = some i ∧ state.ttlHeap.arr[i]? = some item ∧
            item.ref = ent) ∧
      (∀ i j : Nat, ∀ x y, state.ttlHeap.arr[i]? = some x → state.ttlHeap.arr[j]? = some y →
        x.ref = y.ref → i = j) ∧
      ∀ i item, 0 < i → state.ttlHeap.arr[i]? = some item →
        ∃ above, state.ttlHeap.arr[idxParent i]? = some above ∧ above.val ≤ item.val := by
  obtain ⟨entries, deadline, tree, invariant⟩ := reachable.consistent
  have holds := invariant.timed.holds
  have mem_iff : ∀ x, x ∈ state.db.nodes ↔ x ∈ entries := fun x => invariant.keyed.index.mem_iff
  refine ⟨fun i item slot => ⟨holds.valid.back i item slot, ?_⟩, fun ent member => ?_,
    fun i j x y left right same => holds.valid.unique left right same,
    fun i item positive slot => ?_⟩
  · rw [mem_iff]
    exact (invariant.timed.due item.ref item.val
      ((holds.items item).mp (List.mem_of_getElem? slot))).1
  · cases due : deadline ent with
    | none =>
        refine .inl ⟨invariant.timed.untimed ent ((mem_iff ent).mp member) due, ?_⟩
        rintro item inArr rfl
        exact holds.not_mem_refs due (List.mem_map_of_mem inArr)
    | some val =>
        obtain ⟨i, index, slot⟩ := holds.exists_slot due
        exact .inr ⟨i, _, index, slot, rfl⟩
  · have bound := (List.getElem?_eq_some_iff.mp slot).1
    have aboveBound : idxParent i < state.ttlHeap.arr.length := by
      rw [idxParent]
      omega
    have above := List.getElem?_eq_getElem aboveBound
    have ordered := holds.valid.ordered i (idxParent i) ⟨positive, rfl⟩ bound
    rw [keyAt_of_getElem? above, keyAt_of_getElem? slot] at ordered
    exact ⟨_, above, ordered⟩

/-- Two keys with deadlines: the heap holds two items in order which are pointed back at. -/
theorem ttl_heap_reachable_stocked : ∃ (state : Server) (first second : HeapItem Addr),
    state.ttlHeap.arr[0]? = some first ∧ state.ttlHeap.arr[1]? = some second ∧
      first.val ≤ second.val ∧ first.ref ≠ second.ref ∧ state.heapIdx first.ref = some 0 ∧
      state.heapIdx second.ref = some 1 ∧ first.ref ∈ state.db.nodes ∧
      second.ref ∈ state.db.nodes := by
  obtain ⟨state, reachable, k, z⟩ := reachable_stocked
  obtain ⟨back, linked, unique, ordered⟩ := ttl_heap_reachable reachable
  have indexed : ∀ key value val, state.contents key = some ⟨value, some val⟩ →
      ∃ (i : Nat) (item : HeapItem Addr), state.ttlHeap.arr[i]? = some item ∧
        state.key item.ref = key := by
    intro key value val stored
    obtain ⟨ent, inNodes, named, record⟩ := KeyedList.exists_of_lookup stored
    have due : state.deadlineOf ent = some val := congrArg Record.deadline record
    rcases linked ent inNodes with ⟨unindexed, -⟩ | ⟨i, item, -, slot, rfl⟩
    · simp [Server.deadlineOf, unindexed] at due
    · exact ⟨i, item, slot, named⟩
  obtain ⟨i, x, slot, named⟩ := indexed _ _ _ k
  obtain ⟨j, y, slot', named'⟩ := indexed _ _ _ z
  have apart : i ≠ j := by
    rintro rfl
    obtain rfl : x = y := Option.some.inj (slot.symm.trans slot')
    exact absurd (named.symm.trans named') (by decide)
  have inside := (List.getElem?_eq_some_iff.mp slot).1
  have inside' := (List.getElem?_eq_some_iff.mp slot').1
  have first := List.getElem?_eq_getElem (show 0 < state.ttlHeap.arr.length by omega)
  have second := List.getElem?_eq_getElem (show 1 < state.ttlHeap.arr.length by omega)
  obtain ⟨above, root, least⟩ := ordered 1 _ Nat.one_pos second
  obtain rfl : _ = above := Option.some.inj (first.symm.trans root)
  refine ⟨state, _, _, first, second, least, fun same => ?_, (back 0 _ first).1,
    (back 1 _ second).1,
    (back 0 _ first).2, (back 1 _ second).2⟩
  exact absurd (unique 0 1 _ _ first second same) Nat.zero_ne_one

/-! ## Range queries -/

/-- A key with a sorted set leads to its tree. -/
theorem ServerReachable.zset_present (reachable : ServerReachable state clock) {key : Bytes}
    {scores : Bytes → Option Number} {deadline : Option Nat}
    (present : state.contents key = some ⟨.zset scores, deadline⟩) :
    ∃ ent ∈ state.db.nodes, state.key ent = key ∧ state.type ent = .zset ∧
      ∃ tree, (state.zset ent).Holds state.zmemory tree := by
  obtain ⟨entries, deadlines, tree, invariant⟩ := reachable.consistent
  obtain ⟨ent, inNodes, named, record⟩ := KeyedList.exists_of_lookup present
  have typed : state.type ent = .zset := by
    have value := congrArg Record.value record
    rw [Server.record, Server.valueOf] at value
    split at value
    · assumption
    · cases value
  exact ⟨ent, inNodes, named, typed, tree ent, invariant.owning.holds ent
    (Server.Invariant.owned (invariant.keyed.index.mem_iff.mp inNodes))⟩

/-- `zquery` on a key with a sorted set answers with the range that its scores, in the order
of score and name, determine. Below `2 ^ 32` members the counts which it reads do not wrap. -/
theorem zquery_reachable (reachable : ServerReachable state clock) (env : Env)
    {key scoreArg name offsetArg limitArg : Bytes} {score : Number} {offset limit : Int}
    (parsedScore : str2dbl env.strtod scoreArg = some score)
    (parsedOffset : str2int offsetArg = some offset) (parsedLimit : str2int limitArg = some limit)
    {scores : Bytes → Option Number} {deadline : Option Nat}
    (present : state.contents key = some ⟨.zset scores, deadline⟩) (out : Bytes) :
    ∃ members : List (Bytes × Number),
      (members.Pairwise fun p q => pairKey p.2 p.1 < pairKey q.2 q.1) ∧
      (∀ name score, (name, score) ∈ members ↔ scores name = some score) ∧
      ∃ state', execCmd env state [ascii "zquery", key, scoreArg, name, offsetArg, limitArg] out =
          some (state', out ++
            (WireValue.arr (pairItems (zqueryPairs members score name offset limit))).encode) ∧
        state'.contents = state.contents ∧
        ∃ ent ∈ state.db.nodes, state.key ent = key ∧
          ((state.zset ent).hmap.nodes.length < 2 ^ 32 → ∀ node ∈ (state.zset ent).hmap.nodes,
            (state.zmemory.tree node).cnt < 2 ^ 32 ∧
            (state.zmemory.tree node).height < 2 ^ 32) := by
  obtain ⟨owner, inNodes, owned, -, _, whole⟩ := reachable.zset_present present
  obtain ⟨found, state', run, looked⟩ := getEntry_looked reachable.consistent key
  cases looked with
  | absent invariant same missing answer => simp [present] at answer
  | str invariant same member named typed answer => simp [present] at answer
  | zset invariant same member named typed answer =>
      rw [present, Option.some.injEq, Record.mk.injEq, Value.zset.injEq] at answer
      obtain ⟨rfl, rfl⟩ := answer
      have holds := invariant.owning.holds _ (Server.Invariant.owned member)
      refine ⟨_, holds.members.1, holds.members.2, state', ?_, same, owner, inNodes, owned,
        fun few node => whole.cached_lt few⟩
      have target : (cmdTable.find? fun entry => ascii "zquery" == ascii entry.name) =
          some ⟨"zquery", execZquery, 6⟩ := rfl
      simp [execCmd, target, execZquery, withZset, parsedScore, parsedOffset,
        parsedLimit, run, typed,
        zqueryRange_spec holds]

/-- `zquery z 0 a 0 10` after the member `a` has moved behind `b`: both pairs in the new order. -/
theorem zquery_reachable_moved : ∃ state state' reply,
    execCmd Env.reading state [ascii "zquery", [122], [48], [97], [48], [49, 48]] [] =
      some (state', reply) ∧
    reply = (WireValue.arr [.str [98], .dbl ⟨0⟩, .str [97], .dbl ⟨0x3FF0000000000000⟩]).encode := by
  obtain ⟨state, reachable, -, present⟩ := reachable_stocked
  obtain ⟨members, sorted, complete, state', run, -⟩ := @zquery_reachable _ _ reachable Env.reading
    [122] [48] [97] [48] [49, 48] scoreZero 0 10 rfl (by decide) (by decide) _ _ present []
  obtain rfl := movedScores_members sorted complete
  exact ⟨state, state', _, run, rfl⟩

end MiniRedis
