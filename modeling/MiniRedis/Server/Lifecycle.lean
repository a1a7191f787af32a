import MiniRedis.Server.Reachable
import MiniRedis.Server.Removal

/-!
# Entries over whole runs

Each entry is in the table or in the queue from its allocation to its destruction. It
leaves the table once, and one destroyer frees it with the nodes of its sorted set.
-/

namespace MiniRedis

open Relation Binary64

variable {state state' : Server} {clock : Nat} {env : Env} {entries : Finset Addr}
  {deadline : Addr → Option Nat} {tree : Addr → BinaryTree Addr}

/-! ## What a command does to the entries -/

/-- A lookup may migrate table nodes, but takes none in or out. -/
theorem getEntry_keeps (consistent : state.Consistent clock) {k : Bytes} {found : Option Addr}
    (run : getEntry state k = some (found, state')) : state.Keeps ∅ state' := by
  obtain ⟨entries, deadline, tree, invariant⟩ := consistent
  obtain ⟨_, _, run', invariant', -⟩ := invariant.getEntry k
  rw [run] at run'
  cases run'
  simp only [getEntry, Option.bind_eq_bind, Option.bind_eq_some_iff] at run
  obtain ⟨⟨_, db⟩, -, same⟩ := run
  cases same
  constructor
  · simp
  · intro ent
    rw [invariant'.keyed.index.mem_iff, invariant.keyed.index.mem_iff]
    simp
  · rfl
  · simp

/-- A new key allocates one entry and links it. -/
theorem Server.Invariant.addEntry_keeps (invariant : state.Invariant clock entries deadline tree)
    {k : Bytes} (absent : ∀ x ∈ entries, state.key x ≠ k) {type : ValueType} (typed : type ≠ .init)
    {str : Bytes} {ent : Addr} (run : MiniRedis.addEntry env state k type str = some (ent, state')) :
    state.Keeps {ent} state' := by
  obtain ⟨_, _, run', -, -, -, invariant', -⟩ := invariant.addEntry env absent typed str
  rw [run] at run'
  cases run'
  simp only [MiniRedis.addEntry, Option.bind_eq_bind, Option.bind_eq_some_iff] at run
  obtain ⟨db, -, same⟩ := run
  cases same
  constructor
  · simpa using env.newEntryFresh state.live
  · intro ent
    rw [invariant'.keyed.index.mem_iff, invariant.keyed.index.mem_iff, Finset.mem_insert,
      Finset.mem_singleton]
  · rfl
  · rfl

/-- A deadline concerns the heap alone. -/
theorem entrySetTtl_keeps {ent : Addr} {ttlMs : Nat}
    (run : entrySetTtl env state ent ttlMs = some state') : state.Keeps ∅ state' := by
  simp only [entrySetTtl, Option.bind_eq_bind, Option.bind_eq_some_iff] at run
  obtain ⟨heap, -, same⟩ := run
  cases same
  exact .of_eq rfl rfl rfl

/-- So does its removal. -/
theorem entryRemoveTtl_keeps {ent : Addr} (run : entryRemoveTtl state ent = some state') :
    state.Keeps ∅ state' := by
  rw [entryRemoveTtl] at run
  split at run
  · cases run
    exact .refl state
  · simp only [Option.bind_eq_bind, Option.bind_eq_some_iff] at run
    obtain ⟨heap, -, same⟩ := run
    cases same
    exact .of_eq rfl rfl rfl

/-- A handler which looks up its key, and on either result keeps what it finds. -/
theorem lookup_keeps (consistent : state.Consistent clock) {key out' : Bytes}
    {handle : Option Addr × Server → Option (Server × Bytes)}
    (run : (getEntry state key).bind handle = some (state', out'))
    (absent : ∀ next, handle (none, next) = some (state', out') → next.Keeps ∅ state')
    (present : ∀ next ent, handle (some ent, next) = some (state', out') → next.Keeps ∅ state') :
    ∃ created, state.Keeps created state' := by
  obtain ⟨⟨found, next⟩, looked, answered⟩ := Option.bind_eq_some_iff.mp run
  have kept := getEntry_keeps consistent looked
  cases found with
  | none => exact ⟨_, kept.trans (absent next answered)⟩
  | some ent => exact ⟨_, kept.trans (present next ent answered)⟩

/-- A query of a sorted set keeps what its handler keeps. -/
theorem withZset_keeps (consistent : state.Consistent clock) {cmd : List Bytes} {out out' : Bytes}
    {missing : Bytes → Bytes} {handle : Server → Addr → Option (Server × Bytes)}
    (run : withZset state cmd out missing handle = some (state', out'))
    (keeps : ∀ next ent, handle next ent = some (state', out') → next.Keeps ∅ state') :
    ∃ created, state.Keeps created state' := by
  obtain ⟨key, -, run⟩ := Option.bind_eq_some_iff.mp run
  refine lookup_keeps consistent run (fun next answered => ?_) fun next ent answered => ?_
  · cases answered
    exact .refl _
  · simp only at answered
    split at answered
    · cases answered
      exact .refl _
    · exact keeps next ent answered

section Handlers

variable {cmd : List Bytes} {out out' : Bytes}

/-- `get` is a lookup. -/
theorem execGet_keeps (consistent : state.Consistent clock)
    (run : execGet env state cmd out = some (state', out')) : ∃ created, state.Keeps created state' := by
  obtain ⟨key, -, run⟩ := Option.bind_eq_some_iff.mp run
  refine lookup_keeps consistent run (fun next answered => ?_) fun next ent answered => ?_
  · cases answered
    exact .refl _
  · simp only at answered
    split at answered <;> cases answered <;> exact .refl _

/-- `set` makes an entry if it finds none. -/
theorem execSet_keeps (consistent : state.Consistent clock)
    (run : execSet env state cmd out = some (state', out')) : ∃ created, state.Keeps created state' := by
  simp only [execSet, Option.bind_eq_bind, Option.bind_eq_some_iff] at run
  obtain ⟨key, -, val, -, ⟨found, next⟩, looked, answered⟩ := run
  obtain ⟨_, _, run', seen⟩ := getEntry_looked consistent key
  rw [looked] at run'
  cases run'
  have kept := getEntry_keeps consistent looked
  cases seen with
  | absent invariant same missing answer =>
      simp only [Option.bind_eq_some_iff] at answered
      obtain ⟨⟨ent, next'⟩, added, done⟩ := answered
      cases done
      exact ⟨_, kept.trans (invariant.addEntry_keeps missing (by simp) added)⟩
  | str invariant same member named typed answer =>
      simp only [typed, ne_eq, not_true_eq_false, if_false] at answered
      cases answered
      exact ⟨_, kept.trans (.of_eq rfl rfl rfl)⟩
  | zset invariant same member named typed answer =>
      simp only [typed, ne_eq, reduceCtorEq, not_false_eq_true, if_true] at answered
      cases answered
      exact ⟨_, kept⟩

/-- `keys` reads the table. -/
theorem execKeys_keeps (run : execKeys env state cmd out = some (state', out')) :
    ∃ created, state.Keeps created state' := by
  simp only [execKeys, Option.bind_eq_bind, Option.bind_eq_some_iff] at run
  obtain ⟨out, -, answered⟩ := run
  cases answered
  exact ⟨_, .refl state⟩

/-- `zadd` makes an entry if it finds none. Its nodes are no entries. -/
theorem execZadd_keeps (consistent : state.Consistent clock)
    (run : execZadd env state cmd out = some (state', out')) :
    ∃ created, state.Keeps created state' := by
  simp only [execZadd, Option.bind_eq_bind, Option.bind_eq_some_iff] at run
  obtain ⟨scoreArg, -, answered⟩ := run
  split at answered
  · cases answered
    exact ⟨_, .refl state⟩
  · simp only [Option.bind_eq_some_iff] at answered
    obtain ⟨key, -, ⟨found, next⟩, looked, answered⟩ := answered
    obtain ⟨_, _, run', seen⟩ := getEntry_looked consistent key
    rw [looked] at run'
    cases run'
    have kept := getEntry_keeps consistent looked
    cases found
    all_goals
      simp only [Option.bind_eq_some_iff] at answered
      obtain ⟨⟨ent, next'⟩, entered, inserted⟩ := answered
      have stored : next'.Keeps ∅ state' := by
        split at inserted
        · cases inserted
          exact .refl _
        · simp only [Option.bind_eq_some_iff] at inserted
          obtain ⟨name, -, ⟨added, zmemory, zset⟩, -, done⟩ := inserted
          cases done
          exact .of_eq rfl rfl rfl
    case none =>
      cases seen with
      | absent invariant same missing answer =>
          have created := invariant.addEntry_keeps missing (by simp) entered
          exact ⟨_, (kept.trans created).trans stored⟩
    case some =>
      cases entered
      exact ⟨_, kept.trans stored⟩

/-- `zrem` leaves the entry of an emptied set. -/
theorem execZrem_keeps (consistent : state.Consistent clock)
    (run : execZrem env state cmd out = some (state', out')) : ∃ created, state.Keeps created state' := by
  refine withZset_keeps consistent run fun next ent handled => ?_
  simp only [Option.bind_eq_bind, Option.bind_eq_some_iff] at handled
  obtain ⟨name, -, ⟨znode, zset⟩, -, removed⟩ := handled
  cases znode with
  | none =>
      cases removed
      exact .of_eq rfl rfl rfl
  | some znode =>
      simp only [Option.bind_eq_some_iff] at removed
      obtain ⟨⟨zmemory, zset'⟩, -, done⟩ := removed
      cases done
      exact .of_eq rfl rfl rfl

/-- `zscore` is a lookup in the table, then in the set. -/
theorem execZscore_keeps (consistent : state.Consistent clock)
    (run : execZscore env state cmd out = some (state', out')) :
    ∃ created, state.Keeps created state' := by
  refine withZset_keeps consistent run fun next ent handled => ?_
  simp only [Option.bind_eq_bind, Option.bind_eq_some_iff] at handled
  obtain ⟨name, -, ⟨znode, zset⟩, -, answered⟩ := handled
  cases znode <;> cases answered <;> exact .of_eq rfl rfl rfl

/-- So is `zrank`. -/
theorem execZrank_keeps (consistent : state.Consistent clock)
    (run : execZrank env state cmd out = some (state', out')) :
    ∃ created, state.Keeps created state' := by
  refine withZset_keeps consistent run fun next ent handled => ?_
  simp only [Option.bind_eq_bind, Option.bind_eq_some_iff] at handled
  obtain ⟨name, -, ⟨znode, zset⟩, -, answered⟩ := handled
  cases znode with
  | none =>
      cases answered
      exact .of_eq rfl rfl rfl
  | some znode =>
      simp only [Option.bind_eq_some_iff] at answered
      obtain ⟨rank, -, done⟩ := answered
      cases done
      exact .of_eq rfl rfl rfl

/-- `zquery` makes no entry for a key it does not find. -/
theorem execZquery_keeps (consistent : state.Consistent clock)
    (run : execZquery env state cmd out = some (state', out')) :
    ∃ created, state.Keeps created state' := by
  simp only [execZquery, Option.bind_eq_bind, Option.bind_eq_some_iff] at run
  obtain ⟨scoreArg, -, answered⟩ := run
  split at answered
  · cases answered
    exact ⟨_, .refl state⟩
  · simp only [Option.bind_eq_some_iff] at answered
    obtain ⟨name, -, offsetArg, -, limitArg, -, answered⟩ := answered
    split at answered
    · refine withZset_keeps consistent answered fun next ent handled => ?_
      obtain ⟨range, -, done⟩ := Option.bind_eq_some_iff.mp handled
      cases done
      exact .refl _
    · cases answered
      exact ⟨_, .refl state⟩

/-- `pexpire` moves an entry in the heap, whatever the deadline. -/
theorem execPexpire_keeps (consistent : state.Consistent clock)
    (run : execPexpire env state cmd out = some (state', out')) :
    ∃ created, state.Keeps created state' := by
  obtain ⟨ttlArg, -, run⟩ := Option.bind_eq_some_iff.mp run
  split at run
  · cases run
    exact ⟨_, .refl state⟩
  · obtain ⟨_, -, run⟩ := Option.bind_eq_some_iff.mp run
    obtain ⟨key, -, run⟩ := Option.bind_eq_some_iff.mp run
    refine lookup_keeps consistent run (fun next answered => ?_) fun next ent answered => ?_
    · cases answered
      exact .refl _
    · obtain ⟨next', set, done⟩ := Option.bind_eq_some_iff.mp answered
      cases done
      exact entrySetTtl_keeps set

/-- `persist` takes it out. -/
theorem execPersist_keeps (consistent : state.Consistent clock)
    (run : execPersist env state cmd out = some (state', out')) :
    ∃ created, state.Keeps created state' := by
  obtain ⟨key, -, run⟩ := Option.bind_eq_some_iff.mp run
  refine lookup_keeps consistent run (fun next answered => ?_) fun next ent answered => ?_
  · cases answered
    exact .refl _
  · simp only at answered
    split at answered
    · cases answered
      exact .refl _
    · obtain ⟨next', removed, done⟩ := Option.bind_eq_some_iff.mp answered
      cases done
      exact entryRemoveTtl_keeps removed

/-- `pttl` reads the heap. -/
theorem execPttl_keeps (consistent : state.Consistent clock)
    (run : execPttl env state cmd out = some (state', out')) :
    ∃ created, state.Keeps created state' := by
  obtain ⟨key, -, run⟩ := Option.bind_eq_some_iff.mp run
  refine lookup_keeps consistent run (fun next answered => ?_) fun next ent answered => ?_
  · cases answered
    exact .refl _
  · simp only at answered
    split at answered
    · cases answered
      exact .refl _
    · obtain ⟨item, -, done⟩ := Option.bind_eq_some_iff.mp answered
      cases done
      exact .refl _

/-- A command either removes nothing, or creates nothing and hands over what it removes. -/
def Server.Accounts (state state' : Server) : Prop :=
  (∃ created, state.Keeps created state') ∨ ∃ ent unlinked, state.Removes ent unlinked state'

/-- Each handler keeps the linked entries, or `del` removes one. -/
theorem handler_accounts (consistent : state.Consistent clock) {entry : CmdEntry}
    (listed : entry ∈ cmdTable) (run : entry.handler env state cmd out = some (state', out')) :
    state.Accounts state' := by
  simp only [cmdTable, List.mem_cons, List.not_mem_nil, or_false] at listed
  rcases listed with rfl | rfl | rfl | rfl | rfl | rfl | rfl | rfl | rfl | rfl | rfl | rfl <;>
    dsimp only at run
  · exact .inl (execGet_keeps consistent run)
  · exact .inl (execSet_keeps consistent run)
  · obtain ⟨key, -, ⟨-, handsOver⟩ | ⟨ent, unlinked, -, removes⟩⟩ := execDel_removes consistent run
    · exact .inl ⟨_, .of_handsOver handsOver⟩
    · exact .inr ⟨ent, unlinked, removes⟩
  · exact .inl (execKeys_keeps run)
  · exact .inl (execZadd_keeps consistent run)
  · exact .inl (execZrem_keeps consistent run)
  · exact .inl (execZscore_keeps consistent run)
  · exact .inl (execZrank_keeps consistent run)
  · exact .inl (execZquery_keeps consistent run)
  · exact .inl (execPexpire_keeps consistent run)
  · exact .inl (execPersist_keeps consistent run)
  · exact .inl (execPttl_keeps consistent run)

/-- A command which is unknown or has a wrong number of arguments does nothing. -/
theorem execCmd_accounts (consistent : state.Consistent clock)
    (run : execCmd env state cmd out = some (state', out')) : state.Accounts state' := by
  cases cmd with
  | nil =>
      cases run
      exact .inl ⟨_, .refl state⟩
  | cons name args =>
      simp only [execCmd] at run
      split at run
      · cases run
        exact .inl ⟨_, .refl state⟩
      · rename_i entry target
        split at run
        · cases run
          exact .inl ⟨_, .refl state⟩
        · exact handler_accounts consistent (List.mem_of_find?_eq_some target) run

end Handlers

/-! ## Owners -/

/-- The allocated entries are the linked ones and the queued ones. -/
def Server.Accounted (state : Server) : Prop :=
  ∀ ent, ent ∈ state.live ↔ ent ∈ state.db.nodes ∨ ent ∈ state.tasks

/-- A created entry is linked, so it is accounted for. -/
theorem Server.Accounted.keeps {created : Finset Addr} (accounted : state.Accounted)
    (keeps : state.Keeps created state') : state'.Accounted := by
  intro ent
  rw [keeps.live, keeps.nodes, keeps.tasks, Finset.mem_union, accounted ent, or_assoc]

/-- An unlinked entry is freed or queued. -/
theorem Server.Accounted.handsOver {destroyed queued : List Addr} (accounted : state.Accounted)
    (unlinked : ∀ ent ∈ state.tasks, ent ∉ state.db.nodes)
    (handsOver : state.HandsOver destroyed queued state') : state'.Accounted := by
  intro ent
  have linked := handsOver.linked ent
  have unlinked := unlinked ent
  have once : ent ∈ destroyed → ent ∉ queued := fun left right =>
    (List.nodup_append.mp handsOver.once).2.2 ent left ent right rfl
  rw [List.mem_append] at linked
  rw [handsOver.live, handsOver.nodes, handsOver.tasks, Finset.mem_sdiff, List.mem_toFinset,
    accounted ent, List.mem_append, List.mem_append]
  tauto

/-- The removal of one key frees its entry or queues it. -/
theorem Server.Accounted.removes {ent : Addr} {unlinked : Server} (accounted : state.Accounted)
    (unlinked' : ∀ ent ∈ state.tasks, ent ∉ state.db.nodes)
    (removes : state.Removes ent unlinked state') : state'.Accounted := by
  obtain ⟨destroyed, queued, -, handsOver⟩ := removes.handsOver
  exact accounted.handsOver unlinked' handsOver

/-- Whichever of the two a command does. -/
theorem Server.Accounts.accounted (accounts : state.Accounts state') (accounted : state.Accounted)
    (unlinked' : ∀ ent ∈ state.tasks, ent ∉ state.db.nodes) : state'.Accounted := by
  rcases accounts with ⟨created, keeps⟩ | ⟨ent, unlinked, removes⟩
  · exact accounted.keeps keeps
  · exact accounted.removes unlinked' removes

/-- No queued entry can be found in the table. -/
theorem Server.Consistent.unlinked (consistent : state.Consistent clock) :
    ∀ ent ∈ state.tasks, ent ∉ state.db.nodes := by
  obtain ⟨entries, deadline, tree, invariant⟩ := consistent
  intro ent queued
  rw [invariant.keyed.index.mem_iff]
  exact invariant.allocated.unlinked ent queued

/-- Every step accounts for the entries it allocates, unlinks and frees. -/
theorem ServerReachable.accounted (reachable : ServerReachable state clock) : state.Accounted := by
  induction reachable with
  | initial initial clock =>
      intro ent
      rw [initial.db, initial.live, initial.tasks]
      simp [HMap.nodes, HTab.nodes]
  | exec before env later cmd run ih =>
      exact (execCmd_accounts before.consistent run).accounted ih before.consistent.unlinked
  | timers before env later run ih =>
      obtain ⟨_, _, _, run', -, expires⟩ := processTimers_spec before.consistent env later
      rw [run] at run'
      cases run'
      exact ih.handsOver before.consistent.unlinked expires.handsOver
  | worker before ent run ih =>
      have queued := mem_tasks_of_runTask run
      have unlinked := before.consistent.unlinked ent queued
      obtain ⟨entries, deadline, tree, invariant⟩ := before.consistent
      obtain ⟨_, _, run', -, -, db, -, tasks, live, -⟩ := runTask_spec invariant queued
      rw [run] at run'
      cases run'
      intro other
      rw [live, db, tasks, Finset.mem_erase, invariant.allocated.nodup.mem_erase_iff, ih other]
      by_cases same : other = ent <;> simp [same, unlinked]

/-- Who owns an allocated entry: the table or the queue, and only one of them. Owned nodes
are allocated and have one owner. -/
structure Server.Owned (state : Server) : Prop where
  accounted : state.Accounted
  queuedOnce : state.tasks.Nodup
  /-- No chain of either table and no heap item leads to a queued or a freed entry. -/
  unreached : ∀ ent, ent ∈ state.tasks ∨ ent ∉ state.live → state.Unreached ent
  allocated : ∀ ent ∈ state.live, (state.members ent).Nodup ∧
    ∀ node ∈ state.members ent, node ∈ state.zmemory.live
  apart : ∀ ent ∈ state.live, ∀ other ∈ state.live, ent ≠ other →
    (state.members ent).Disjoint (state.members other)

/-- A consistent state whose entries are accounted for says who owns what. -/
theorem Server.Accounted.owned (accounted : state.Accounted) (consistent : state.Consistent clock) :
    state.Owned := by
  have unlinked := consistent.unlinked
  obtain ⟨entries, deadline, tree, invariant⟩ := consistent
  have linked : ∀ ent, ent ∈ state.db.nodes ↔ ent ∈ entries := fun ent =>
    invariant.keyed.index.mem_iff
  have owner : ∀ ent ∈ state.live, ent ∈ entries ∪ state.tasks.toFinset := by
    intro ent live
    rw [Finset.mem_union, List.mem_toFinset, ← linked]
    exact (accounted ent).mp live
  constructor
  · exact accounted
  · exact invariant.allocated.nodup
  · intro ent gone
    apply invariant.keyed.unreached invariant.timed
    rw [← linked]
    rcases gone with queued | dead
    · exact unlinked ent queued
    · exact fun member => dead ((accounted ent).mpr (.inl member))
  · intro ent live
    refine ⟨invariant.members_nodup (owner ent live), fun node member => ?_⟩
    exact (invariant.owning.holds ent (owner ent live)).live node
      (invariant.mem_members (owner ent live) member)
  · intro ent live other live' differs node left right
    exact invariant.owning.apart ent (owner ent live) other (owner other live') differs
      (invariant.mem_members (owner ent live) left) (invariant.mem_members (owner other live') right)

/-- In every reachable state each allocated entry is linked once or queued once. -/
theorem ServerReachable.owned (reachable : ServerReachable state clock) : state.Owned :=
  reachable.accounted.owned reachable.consistent

/-- Every turn of the expiry loop keeps what the invariants say about entries. -/
theorem Server.Accounted.expireRounds (accounted : state.Accounted)
    (consistent : state.Consistent clock) {nowMs : Nat} {middle : Server}
    (rounds : ReflTransGen (ExpireRound nowMs) state middle) :
    middle.Consistent clock ∧ middle.Accounted := by
  induction rounds with
  | refl => exact ⟨consistent, accounted⟩
  | tail before round ih =>
      obtain ⟨consistent, accounted⟩ := ih
      obtain stop | ⟨ent, unlinked, next, round', removes, consistent'⟩ :=
        expireStep_removes consistent nowMs
      · rw [ExpireRound, stop] at round
        cases round
      · rw [ExpireRound, round'] at round
        cases round
        exact ⟨consistent', accounted.removes consistent.unlinked removes⟩

/-! ## The life of an entry -/

/-- Whatever has happened before, an entry is owned by the table or by the queue. A command or
a turn of the expiry loop takes an entry out of the table and the heap before it destroys it
or queues it, once and not both, and at every turn each entry has its owner; a queued entry
is destroyed by its task. Its destruction frees its own nodes, each once. -/
theorem entry_lifecycle (reachable : ServerReachable state clock) :
    state.Owned ∧
    (∀ (env : Env) (cmd : List Bytes) (out : Bytes), clock ≤ env.now → ¬NegativeTtl cmd →
      ∃ state' out', execCmd env state cmd out = some (state', out') ∧ state.Accounts state' ∧
        state'.Owned) ∧
    (∀ env : Env, clock ≤ env.now → ∃ state' destroyed queued,
      processTimers env state = some state' ∧ state.HandsOver destroyed queued state' ∧
        state'.Owned ∧ ReflTransGen (ExpireRound env.now) state state' ∧
        ∀ middle, ReflTransGen (ExpireRound env.now) state middle → middle.Owned ∧
          (expireStep env.now middle = some none ∨ ∃ ent unlinked next,
            ExpireRound env.now middle next ∧ middle.Removes ent unlinked next)) ∧
    ∀ ent ∈ state.tasks, ∃ state', runTask state ent = some state' ∧
      state'.tasks = state.tasks.erase ent ∧ state'.live = state.live.erase ent ∧
      state'.zmemory.live = state.zmemory.live \ (state.members ent).toFinset ∧
      state'.db = state.db ∧ state'.ttlHeap = state.ttlHeap ∧
      (∀ other ≠ ent, state'.members other = state.members other) ∧ state'.Owned := by
  refine ⟨reachable.owned, fun env cmd out later allowed => ?_, fun env later => ?_,
    fun ent queued => ?_⟩
  · obtain ⟨state', reply, run, -⟩ := execCmd_simulates reachable.consistent later allowed out
    exact ⟨state', _, run, execCmd_accounts reachable.consistent run,
      (reachable.exec env later cmd run).owned⟩
  · obtain ⟨state', destroyed, queued, run, -, expires⟩ :=
      processTimers_spec reachable.consistent env later
    refine ⟨state', destroyed, queued, run, expires.handsOver,
      (reachable.timers env later run).owned, rounds_of_expireFrom run, fun middle rounds => ?_⟩
    obtain ⟨consistent, accounted⟩ := reachable.accounted.expireRounds reachable.consistent rounds
    refine ⟨accounted.owned consistent, ?_⟩
    obtain stop | ⟨ent, unlinked, next, round, removes, -⟩ := expireStep_removes consistent env.now
    · exact .inl stop
    · exact .inr ⟨ent, unlinked, next, round, removes⟩
  · obtain ⟨entries, deadline, tree, invariant⟩ := reachable.consistent
    obtain ⟨state', _, run, -, -, db, heap, tasks, live, freed, kept⟩ := runTask_spec invariant queued
    exact ⟨state', run, tasks, live, freed, db, heap, kept, (reachable.worker ent run).owned⟩

/-- `pexpire z 10` at zero and a pass at eleven: the first turn removes the entry of `z`. -/
theorem entry_lifecycle_pexpire : ∃ (state state' unlinked next : Server) (ent : Addr),
    state.contents [122] = some ⟨.zset singleScore, some 10⟩ ∧
      processTimers Env.late state = some state' ∧ ExpireRound Env.late.now state next ∧
      state.Removes ent unlinked next ∧ next.Unreached ent ∧ state'.Owned := by
  obtain ⟨state, reachable, stored⟩ := reachable_pexpire
  obtain ⟨state', _, _, pass, -, owned, -, rounds⟩ :=
    (entry_lifecycle reachable).2.2.1 Env.late (Nat.zero_le _)
  obtain ⟨-, stop | ⟨ent, unlinked, next, round, removes⟩⟩ := rounds state .refl
  · have late := noneDue_of_expireStep reachable.consistent stop [122] _ 10 stored rfl
    exact absurd late (by decide)
  · obtain ⟨destroyed, queued, single, handsOver⟩ := removes.handsOver
    have gone : ent ∈ destroyed ++ queued := by simp [single]
    refine ⟨state, state', unlinked, next, ent, stored, pass, round, removes, ?_, owned⟩
    apply (rounds next (.single round)).1.unreached
    rw [handsOver.tasks, handsOver.live]
    rcases List.mem_append.mp gone with freed | queued
    · simp [freed]
    · simp [queued]

/-! ## A run which queues an entry -/

/-- Some scores of zero for the names `a`, `aa`, `aaa` and so on. -/
def manyScores (n : Nat) : Bytes → Option Number :=
  (List.range n).foldl
    (fun scores k => Function.update scores (List.replicate (k + 2) 97) (some scoreZero)) singleScore

/-- One name more. -/
theorem manyScores_succ (n : Nat) : manyScores (n + 1) =
    Function.update (manyScores n) (List.replicate (n + 2) 97) (some scoreZero) := by
  simp [manyScores, List.range_succ]

/-- The members are the words of the letter `a`. -/
theorem manyScores_ne_none {n : Nat} {name : Bytes} :
    manyScores n name ≠ none ↔ name ∈ (List.range (n + 1)).map fun k => List.replicate (k + 1) 97 := by
  induction n with
  | zero => simp [manyScores, singleScore, Function.update_apply]
  | succ n ih =>
      rw [List.range_succ, List.map_append, List.mem_append, ← ih, manyScores_succ,
        Function.update_apply]
      by_cases last : name = List.replicate (n + 2) 97 <;> simp [last]

/-- They are one more than `n`. -/
theorem ncard_manyScores (n : Nat) : {name | manyScores n name ≠ none}.ncard = n + 1 := by
  have names : {name | manyScores n name ≠ none} =
      (((List.range (n + 1)).map fun k => List.replicate (k + 1) (97 : UInt8)).toFinset : Set Bytes) := by
    ext name
    simp only [Set.mem_ofPred_eq, manyScores_ne_none, Finset.mem_coe, List.mem_toFinset]
  have distinct : ((List.range (n + 1)).map fun k => List.replicate (k + 1) (97 : UInt8)).Nodup := by
    refine List.nodup_range.map fun k l same => ?_
    simpa using congrArg List.length same
  rw [names, Set.ncard_coe_finset, List.toFinset_card_of_nodup distinct, List.length_map,
    List.length_range]

/-- `zadd z 0` with one name after the other; what every one of them preserves holds at the end. -/
theorem reachable_many {P : Server → Prop} (start : P Server.start)
    (step : ∀ state state' cmd out, P state → execCmd Env.counting state cmd [] = some (state', out) →
      state'.tasks = state.tasks → P state') (n : Nat) :
    ∃ state, ServerReachable state 0 ∧ P state ∧ state.tasks = [] ∧
      state.contents [122] = some ⟨.zset (manyScores n), none⟩ := by
  have kept : ∀ {state state' : Server} {name out : Bytes}, state.Consistent 0 →
      execCmd Env.counting state [ascii "zadd", [122], [48], name] [] = some (state', out) →
      state'.tasks = state.tasks := by
    intro state state' name out consistent run
    obtain ⟨created, keeps⟩ := execZadd_keeps consistent (show execZadd Env.counting _ _ _ = _ from run)
    exact keeps.tasks
  induction n with
  | zero =>
      obtain ⟨state, out, run, -, stored⟩ := execCmd_zadd_start
      have same := kept (Server.start_initial.consistent 0) run
      refine ⟨state, .exec (.initial Server.start_initial 0) Env.counting le_rfl _ run,
        step _ _ _ _ start run same, same, ?_⟩
      rw [stored, singleKey, Function.update_self]
      rfl
  | succ n ih =>
      obtain ⟨state, reachable, holds, idle, stored⟩ := ih
      let name : Bytes := List.replicate (n + 2) 97
      have allowed : ¬NegativeTtl [ascii "zadd", [122], [48], name] := not_negativeTtl (by decide)
      obtain ⟨state', reply, run, -, -, spec⟩ := @execCmd_simulates _ _ Env.counting
        reachable.consistent le_rfl _ allowed []
      have same := kept reachable.consistent run
      refine ⟨state', reachable.exec Env.counting le_rfl _ run, step _ _ _ _ holds run same,
        same.trans idle, ?_⟩
      have absent : manyScores n name = none := by
        by_contra present
        have member := manyScores_ne_none.mp present
        simp [name] at member
      have contents := congrArg Prod.snd (spec.of_zadd rfl)
      have zero : str2dbl Env.counting.strtod [48] = some scoreZero := rfl
      rw [show state'.contents = _ from contents, specZadd, zero]
      simp only [stored, Function.update_self]
      rw [show manyScores n (List.replicate (n + 2) 97) = none from absent, manyScores_succ]
      rfl

/-- Then `del z`, when there are more than `k_large_zset_size` members. -/
theorem reachable_queued {P : Server → Prop} (start : P Server.start)
    (step : ∀ state state' cmd out, P state → execCmd Env.counting state cmd [] = some (state', out) →
      state'.tasks = state.tasks → P state') :
    ∃ state state' out ent, ServerReachable state 0 ∧ P state ∧ state.tasks = [] ∧
      execCmd Env.counting state [ascii "del", [122]] [] = some (state', out) ∧
      state'.tasks = [ent] := by
  obtain ⟨state, reachable, holds, idle, stored⟩ := reachable_many start step kLargeZsetSize
  have allowed : ¬NegativeTtl [ascii "del", [122]] := not_negativeTtl (by decide)
  obtain ⟨state', reply, run, -⟩ := @execCmd_simulates _ _ Env.counting
    reachable.consistent le_rfl _ allowed []
  obtain ⟨key, argument, found⟩ := execDel_removes reachable.consistent
    (show execDel Env.counting _ _ _ = _ from run)
  obtain rfl : key = [122] := by simpa using argument.symm
  obtain ⟨absent, -⟩ | ⟨ent, unlinked, named, removes⟩ := found
  · rw [stored] at absent
    cases absent
  · have queued := removes.queued reachable.consistent (named ▸ stored)
      (by rw [ncard_manyScores]; exact Nat.lt_succ_self _)
    exact ⟨state, state', _, ent, reachable, holds, idle, run, by rw [queued, idle]; rfl⟩

end MiniRedis
