import MiniRedis.Server.Overdue
import MiniRedis.Server.Lifecycle

/-!
# No sorted-set node is lost

A node is allocated by `znode_new` and freed by `zset_delete` or with its entry. Between
the two it is in the sorted set of one allocated entry, so once the workers have emptied
their queue the memory holds one entry for each key and one node for each pair.
-/

namespace MiniRedis

open Binary64

/-! ## What an operation leaves allocated -/

section Nodes

variable {α : Type} [DecidableEq α] {memory memory' memory'' : ZMemory α}
  {zset zset' zset'' : ZSet α} {tree : BinaryTree α}

/-- A node which a change leaves allocated is in the changed set, or was allocated before
and not in the set. -/
def ZSet.Tracks (memory : ZMemory α) (zset : ZSet α) (memory' : ZMemory α)
    (zset' : ZSet α) : Prop :=
  ∀ node ∈ memory'.live, node ∈ zset'.hmap.nodes ∨ node ∈ memory.live ∧ node ∉ zset.hmap.nodes

omit [DecidableEq α] in
/-- Two steps on the same set. -/
theorem ZSet.Tracks.trans (first : zset.Tracks memory memory' zset')
    (second : zset'.Tracks memory' memory'' zset'') : zset.Tracks memory memory'' zset'' := by
  intro node allocated
  rcases second node allocated with inside | ⟨before, outside⟩
  · exact .inl inside
  · exact .inr ((first node before).resolve_left outside)

/-- Both indexes of a set have the same nodes. -/
theorem ZSet.Holds.mem_nodes (holds : zset.Holds memory tree) {node : α} :
    node ∈ zset.hmap.nodes ↔ node ∈ tree.toList := by
  rw [holds.index.mem_iff, List.mem_toFinset]

/-- The same nodes stay allocated. -/
theorem ZSet.Holds.tracks (holds : zset.Holds memory tree) {tree' : BinaryTree α}
    (holds' : zset'.Holds memory' tree') (members : ∀ node ∈ tree.toList, node ∈ tree'.toList)
    (live : memory'.live = memory.live) : zset.Tracks memory memory' zset' := by
  intro node allocated
  rw [live] at allocated
  by_cases inside : node ∈ zset.hmap.nodes
  · exact .inl (holds'.mem_nodes.mpr (members node (holds.mem_nodes.mp inside)))
  · exact .inr ⟨allocated, inside⟩

/-- A lookup allocates and frees nothing. -/
theorem zsetLookup_tracks (holds : zset.Holds memory tree) {name : Bytes} {found : Option α}
    (run : zsetLookup memory zset name = some (found, zset')) :
    zset.Tracks memory memory zset' ∧ zset'.Holds memory tree ∧
      FindsName memory tree.toList name found := by
  obtain ⟨_, _, run', holds', finds⟩ := zsetLookup_spec holds name
  rw [run] at run'
  cases run'
  exact ⟨holds.tracks holds' (fun _ inside => inside) rfl, holds', finds⟩

/-- `zset_insert` allocates a node only when it adds the node. -/
theorem zsetInsert_tracks (holds : zset.Holds memory tree) {node : α} (fresh : node ∉ memory.live)
    {name : Bytes} {score : Number} {added : Bool}
    (run : zsetInsert memory zset node name score = some (added, memory', zset')) :
    zset.Tracks memory memory' zset' := by
  simp only [zsetInsert, Option.bind_eq_bind, Option.bind_eq_some_iff] at run
  obtain ⟨⟨found, looked⟩, lookup, run⟩ := run
  obtain ⟨tracks, holds, finds⟩ := zsetLookup_tracks holds lookup
  apply tracks.trans
  cases found with
  | some found =>
      obtain ⟨_, _, tree', updated, holds', perm, -, -, live, -⟩ :=
        zsetUpdate_spec holds finds.1 score
      simp only [updated, Option.bind_some] at run
      cases run
      exact holds.tracks holds' (fun _ inside => perm.mem_iff.mpr inside) live
  | none =>
      obtain ⟨_, _, tree', indexed, inserted, holds', perm, -⟩ :=
        zsetAdd_spec holds fresh score finds
      simp only [indexed, inserted, Option.bind_some] at run
      cases run
      intro other allocated
      rw [holds'.mem_nodes, perm.mem_iff, List.mem_cons]
      rcases Finset.mem_insert.mp allocated with new | old
      · exact .inl (.inl new)
      · by_cases inside : other ∈ tree.toList
        · exact .inl (.inr inside)
        · exact .inr ⟨old, fun member => inside (holds.mem_nodes.mp member)⟩

/-- `zset_delete` frees the node which it removes. -/
theorem zsetDelete_tracks (holds : zset.Holds memory tree) {node : α} (member : node ∈ tree.toList)
    (run : zsetDelete memory zset node = some (memory', zset')) :
    zset.Tracks memory memory' zset' := by
  obtain ⟨_, _, tree', run', holds', labels, -, -, live, -⟩ := zsetDelete_spec holds member
  rw [run] at run'
  cases run'
  intro other allocated
  rw [live] at allocated
  obtain ⟨differs, old⟩ := Finset.mem_erase.mp allocated
  by_cases inside : other ∈ tree.toList
  · rw [holds'.mem_nodes, labels]
    exact .inl ((List.mem_erase_of_ne differs).mpr inside)
  · exact .inr ⟨old, fun member => inside (holds.mem_nodes.mp member)⟩

end Nodes

/-! ## Handlers -/

/-- Every allocated node is in the sorted set of an allocated entry. -/
def Server.Tracked (state : Server) : Prop :=
  ∀ node ∈ state.zmemory.live, ∃ ent ∈ state.live, node ∈ state.members ent

variable {state state' : Server} {clock : Nat} {env : Env} {cmd : List Bytes} {out out' : Bytes}

namespace Server.Tracked

/-- Nodes and their owners depend on four fields only. -/
theorem of_eq (tracked : state.Tracked) (live : state'.live = state.live)
    (zmemory : state'.zmemory = state.zmemory) (type : state'.type = state.type)
    (zset : state'.zset = state.zset) : state'.Tracked := by
  intro node allocated
  rw [zmemory] at allocated
  obtain ⟨ent, owner, member⟩ := tracked node allocated
  refine ⟨ent, live ▸ owner, ?_⟩
  rw [Server.members, type, zset]
  exact member

/-- A lookup touches the table of the keys. -/
theorem getEntry (tracked : state.Tracked) {key : Bytes} {found : Option Addr}
    (run : getEntry state key = some (found, state')) : state'.Tracked := by
  simp only [MiniRedis.getEntry, Option.bind_eq_bind, Option.bind_eq_some_iff] at run
  obtain ⟨⟨_, db⟩, -, same⟩ := run
  cases same
  exact tracked.of_eq rfl rfl rfl rfl

/-- A new entry starts with an empty sorted set, and its address was not in use. -/
theorem addEntry (tracked : state.Tracked) {key str : Bytes} {type : ValueType} {ent : Addr}
    (run : addEntry env state key type str = some (ent, state')) : state'.Tracked := by
  simp only [MiniRedis.addEntry, Option.bind_eq_bind, Option.bind_eq_some_iff] at run
  obtain ⟨db, -, same⟩ := run
  cases same
  intro node allocated
  obtain ⟨owner, live, member⟩ := tracked node allocated
  have other : owner ≠ env.newEntry state.live := fun same =>
    env.newEntryFresh state.live (same ▸ live)
  refine ⟨owner, Finset.mem_insert_of_mem live, ?_⟩
  simpa [Server.members, entryNew, Function.update_of_ne other] using member

/-- A deadline touches the heap. -/
theorem setTtl (tracked : state.Tracked) {ent : Addr} {ttlMs : Nat}
    (run : entrySetTtl env state ent ttlMs = some state') : state'.Tracked := by
  simp only [entrySetTtl, Option.bind_eq_bind, Option.bind_eq_some_iff] at run
  obtain ⟨heap, -, same⟩ := run
  cases same
  exact tracked.of_eq rfl rfl rfl rfl

/-- So does its removal. -/
theorem removeTtl (tracked : state.Tracked) {ent : Addr}
    (run : entryRemoveTtl state ent = some state') : state'.Tracked := by
  rw [entryRemoveTtl] at run
  split at run
  · cases run
    exact tracked
  · simp only [Option.bind_eq_bind, Option.bind_eq_some_iff] at run
    obtain ⟨heap, -, same⟩ := run
    cases same
    exact tracked.of_eq rfl rfl rfl rfl

/-- A change to the sorted set of one entry. -/
theorem store (tracked : state.Tracked) {ent : Addr} (owner : ent ∈ state.live)
    (typed : state.type ent = .zset) {zmemory : ZMemory Addr} {zset : ZSet Addr}
    (tracks : (state.zset ent).Tracks state.zmemory zmemory zset) :
    Server.Tracked { state with
      zmemory := zmemory
      zset := Function.update state.zset ent zset } := by
  intro node allocated
  rcases tracks node allocated with inside | ⟨old, outside⟩
  · exact ⟨ent, owner, by simpa [Server.members, typed] using inside⟩
  · obtain ⟨other, live, member⟩ := tracked node old
    have differs : other ≠ ent := by
      rintro rfl
      simp only [Server.members, typed, if_true] at member
      exact outside member
    exact ⟨other, live, by simpa [Server.members, Function.update_of_ne differs] using member⟩

/-- Disposal frees the nodes of an entry with it, and hand-over keeps both. -/
theorem handsOver (tracked : state.Tracked) {destroyed queued : List Addr}
    (handsOver : state.HandsOver destroyed queued state') : state'.Tracked := by
  intro node allocated
  rw [handsOver.freed, Finset.mem_sdiff, List.mem_toFinset, List.mem_flatMap] at allocated
  obtain ⟨old, kept⟩ := allocated
  obtain ⟨ent, live, member⟩ := tracked node old
  have spared : ent ∉ destroyed := fun gone => kept ⟨ent, gone, member⟩
  refine ⟨ent, ?_, ?_⟩
  · rw [handsOver.live, Finset.mem_sdiff, List.mem_toFinset]
    exact ⟨live, spared⟩
  · rw [handsOver.kept ent spared]
    exact member

/-- A worker frees an entry together with its nodes. -/
theorem runTask (tracked : state.Tracked) (consistent : state.Consistent clock) {ent : Addr}
    (run : runTask state ent = some state') : state'.Tracked := by
  obtain ⟨entries, deadline, tree, invariant⟩ := consistent
  obtain ⟨_, _, run', -, -, -, -, -, live, freed, kept⟩ :=
    runTask_spec invariant (mem_tasks_of_runTask run)
  rw [run] at run'
  cases run'
  intro node allocated
  rw [freed, Finset.mem_sdiff, List.mem_toFinset] at allocated
  obtain ⟨owner, owned, member⟩ := tracked node allocated.1
  have other : owner ≠ ent := fun same => allocated.2 (same ▸ member)
  refine ⟨owner, ?_, ?_⟩
  · rw [live]
    exact Finset.mem_erase.mpr ⟨other, owned⟩
  · rw [kept owner other]
    exact member

end Server.Tracked

/-- A handler which looks up its key first. -/
theorem lookup_tracked (tracked : state.Tracked) (consistent : state.Consistent clock) {key : Bytes}
    {handle : Option Addr × Server → Option (Server × Bytes)}
    (run : (getEntry state key).bind handle = some (state', out'))
    (answered : ∀ found next, next.Tracked → Looked state.contents clock key found next →
      handle (found, next) = some (state', out') → state'.Tracked) : state'.Tracked := by
  obtain ⟨⟨found, next⟩, looked, rest⟩ := Option.bind_eq_some_iff.mp run
  obtain ⟨_, _, run', seen⟩ := getEntry_looked consistent key
  rw [looked] at run'
  cases run'
  exact answered found next (tracked.getEntry looked) seen rest

/-- The sorted-set commands start with a lookup. -/
theorem withZset_tracked (tracked : state.Tracked) (consistent : state.Consistent clock)
    {missing : Bytes → Bytes} {handle : Server → Addr → Option (Server × Bytes)}
    (run : withZset state cmd out missing handle = some (state', out'))
    (handled : ∀ next ent tree, next.Tracked → ent ∈ next.live → next.type ent = .zset →
      (next.zset ent).Holds next.zmemory tree → handle next ent = some (state', out') →
      state'.Tracked) : state'.Tracked := by
  obtain ⟨key, -, run⟩ := Option.bind_eq_some_iff.mp run
  refine lookup_tracked tracked consistent run fun found next tracked looked answered => ?_
  cases looked with
  | absent invariant same missing answer =>
      cases answered
      exact tracked
  | str invariant same member named typed answer =>
      simp only [typed, ne_eq, reduceCtorEq, not_false_eq_true, if_true] at answered
      cases answered
      exact tracked
  | zset invariant same member named typed answer =>
      simp only [typed, ne_eq, not_true_eq_false, if_false] at answered
      have owner := Finset.mem_union_left next.tasks.toFinset member
      exact handled next _ _ tracked (invariant.allocated.live _ owner) typed
        (invariant.owning.holds _ owner) answered

section Handlers

theorem execGet_tracked (tracked : state.Tracked) (consistent : state.Consistent clock)
    (run : execGet env state cmd out = some (state', out')) : state'.Tracked := by
  obtain ⟨key, -, run⟩ := Option.bind_eq_some_iff.mp run
  refine lookup_tracked tracked consistent run fun found next tracked _ answered => ?_
  cases found with
  | none =>
      cases answered
      exact tracked
  | some ent =>
      simp only at answered
      split at answered <;> cases answered <;> exact tracked

/-- A new string entry owns no nodes. -/
theorem execSet_tracked (tracked : state.Tracked) (consistent : state.Consistent clock)
    (run : execSet env state cmd out = some (state', out')) : state'.Tracked := by
  obtain ⟨key, -, run⟩ := Option.bind_eq_some_iff.mp run
  obtain ⟨val, -, run⟩ := Option.bind_eq_some_iff.mp run
  refine lookup_tracked tracked consistent run fun found next tracked _ answered => ?_
  cases found with
  | none =>
      obtain ⟨⟨ent, next'⟩, added, done⟩ := Option.bind_eq_some_iff.mp answered
      cases done
      exact tracked.addEntry added
  | some ent =>
      simp only at answered
      split at answered
      · cases answered
        exact tracked
      · cases answered
        exact tracked.of_eq rfl rfl rfl rfl

/-- A deleted set is cleared at once, or queued with all its nodes. -/
theorem execDel_tracked (tracked : state.Tracked) (consistent : state.Consistent clock)
    (run : execDel env state cmd out = some (state', out')) : state'.Tracked := by
  obtain ⟨key, -, ⟨-, handsOver⟩ | ⟨ent, unlinked, -, removes⟩⟩ := execDel_removes consistent run
  · exact tracked.handsOver handsOver
  · obtain ⟨destroyed, queued, -, handsOver⟩ := removes.handsOver
    exact tracked.handsOver handsOver

theorem execKeys_tracked (tracked : state.Tracked)
    (run : execKeys env state cmd out = some (state', out')) : state'.Tracked := by
  simp only [execKeys, Option.bind_eq_bind, Option.bind_eq_some_iff] at run
  obtain ⟨out, -, answered⟩ := run
  cases answered
  exact tracked

/-- `exec_zadd` goes on with the entry which it found or with a new one. -/
theorem Looked.entered {map : Contents} {key : Bytes} {found : Option Addr} {next next' : Server}
    {ent : Addr} (looked : Looked map clock key found next) (env : Env) (tracked : next.Tracked)
    (entered : (found.elim (addEntry env next key .zset []) fun ent => some (ent, next)) =
      some (ent, next')) :
    next'.Tracked ∧ ∃ entries deadline tree,
      next'.Invariant clock entries deadline tree ∧ ent ∈ entries := by
  cases found with
  | none =>
      cases looked with
      | absent invariant same missing answer =>
          obtain ⟨_, _, added, -, -, -, invariant', -⟩ :=
            invariant.addEntry env missing (by simp : ValueType.zset ≠ .init) []
          have both := entered.symm.trans added
          cases both
          exact ⟨tracked.addEntry entered, _, _, _, invariant', Finset.mem_insert_self _ _⟩
  | some found =>
      cases entered
      obtain ⟨_, _, _, invariant, -, member, -⟩ := looked.present
      exact ⟨tracked, _, _, _, invariant, member⟩

/-- The node which `zadd` allocates is in the set afterwards, or no node was allocated. -/
theorem execZadd_tracked (tracked : state.Tracked) (consistent : state.Consistent clock)
    (run : execZadd env state cmd out = some (state', out')) : state'.Tracked := by
  obtain ⟨scoreArg, -, run⟩ := Option.bind_eq_some_iff.mp run
  split at run
  · cases run
    exact tracked
  · obtain ⟨key, -, run⟩ := Option.bind_eq_some_iff.mp run
    refine lookup_tracked tracked consistent run fun found next tracked looked answered => ?_
    cases found
    all_goals
      obtain ⟨⟨ent, next'⟩, entered, answered⟩ := Option.bind_eq_some_iff.mp answered
      obtain ⟨tracked, entries, deadline, tree, invariant, member⟩ :=
        looked.entered env tracked entered
      have owner := Finset.mem_union_left next'.tasks.toFinset member
      by_cases typed : next'.type ent = .zset
      · simp only [typed, ne_eq, not_true_eq_false, if_false] at answered
        obtain ⟨name, -, answered⟩ := Option.bind_eq_some_iff.mp answered
        obtain ⟨⟨added, zmemory, zset⟩, inserted, done⟩ := Option.bind_eq_some_iff.mp answered
        cases done
        exact tracked.store (invariant.allocated.live ent owner) typed
          (zsetInsert_tracks (invariant.owning.holds ent owner) (env.mallocFresh _) inserted)
      · simp only [ne_eq, typed, not_false_eq_true, if_true] at answered
        cases answered
        exact tracked

/-- The node which leaves the set is freed. -/
theorem execZrem_tracked (tracked : state.Tracked) (consistent : state.Consistent clock)
    (run : execZrem env state cmd out = some (state', out')) : state'.Tracked := by
  refine withZset_tracked tracked consistent run
    fun next ent tree tracked owner typed holds handled => ?_
  obtain ⟨name, -, handled⟩ := Option.bind_eq_some_iff.mp handled
  obtain ⟨⟨znode, zset⟩, lookup, removed⟩ := Option.bind_eq_some_iff.mp handled
  obtain ⟨tracks, holds, finds⟩ := zsetLookup_tracks holds lookup
  cases znode with
  | none =>
      cases removed
      exact tracked.store owner typed tracks
  | some znode =>
      obtain ⟨⟨zmemory, zset'⟩, deleted, done⟩ := Option.bind_eq_some_iff.mp removed
      cases done
      exact tracked.store owner typed (tracks.trans (zsetDelete_tracks holds finds.1 deleted))

theorem execZscore_tracked (tracked : state.Tracked) (consistent : state.Consistent clock)
    (run : execZscore env state cmd out = some (state', out')) : state'.Tracked := by
  refine withZset_tracked tracked consistent run
    fun next ent tree tracked owner typed holds handled => ?_
  obtain ⟨name, -, handled⟩ := Option.bind_eq_some_iff.mp handled
  obtain ⟨⟨znode, zset⟩, lookup, answered⟩ := Option.bind_eq_some_iff.mp handled
  have stored := tracked.store owner typed (zsetLookup_tracks holds lookup).1
  cases znode <;> cases answered <;> exact stored

theorem execZrank_tracked (tracked : state.Tracked) (consistent : state.Consistent clock)
    (run : execZrank env state cmd out = some (state', out')) : state'.Tracked := by
  refine withZset_tracked tracked consistent run
    fun next ent tree tracked owner typed holds handled => ?_
  obtain ⟨name, -, handled⟩ := Option.bind_eq_some_iff.mp handled
  obtain ⟨⟨znode, zset⟩, lookup, answered⟩ := Option.bind_eq_some_iff.mp handled
  have stored := tracked.store owner typed (zsetLookup_tracks holds lookup).1
  cases znode with
  | none =>
      cases answered
      exact stored
  | some znode =>
      obtain ⟨rank, -, done⟩ := Option.bind_eq_some_iff.mp answered
      cases done
      exact stored

theorem execZquery_tracked (tracked : state.Tracked) (consistent : state.Consistent clock)
    (run : execZquery env state cmd out = some (state', out')) : state'.Tracked := by
  obtain ⟨scoreArg, -, run⟩ := Option.bind_eq_some_iff.mp run
  split at run
  · cases run
    exact tracked
  · obtain ⟨name, -, run⟩ := Option.bind_eq_some_iff.mp run
    obtain ⟨offsetArg, -, run⟩ := Option.bind_eq_some_iff.mp run
    obtain ⟨limitArg, -, run⟩ := Option.bind_eq_some_iff.mp run
    split at run
    · refine withZset_tracked tracked consistent run fun next ent tree tracked _ _ _ handled => ?_
      obtain ⟨range, -, done⟩ := Option.bind_eq_some_iff.mp handled
      cases done
      exact tracked
    · cases run
      exact tracked

/-- Deadlines own nothing. -/
theorem execPexpire_tracked (tracked : state.Tracked) (consistent : state.Consistent clock)
    (run : execPexpire env state cmd out = some (state', out')) : state'.Tracked := by
  obtain ⟨ttlArg, -, run⟩ := Option.bind_eq_some_iff.mp run
  split at run
  · cases run
    exact tracked
  · obtain ⟨_, -, run⟩ := Option.bind_eq_some_iff.mp run
    obtain ⟨key, -, run⟩ := Option.bind_eq_some_iff.mp run
    refine lookup_tracked tracked consistent run fun found next tracked _ answered => ?_
    cases found with
    | none =>
        cases answered
        exact tracked
    | some ent =>
        obtain ⟨next', set, done⟩ := Option.bind_eq_some_iff.mp answered
        cases done
        exact tracked.setTtl set

theorem execPersist_tracked (tracked : state.Tracked) (consistent : state.Consistent clock)
    (run : execPersist env state cmd out = some (state', out')) : state'.Tracked := by
  obtain ⟨key, -, run⟩ := Option.bind_eq_some_iff.mp run
  refine lookup_tracked tracked consistent run fun found next tracked _ answered => ?_
  cases found with
  | none =>
      cases answered
      exact tracked
  | some ent =>
      simp only at answered
      split at answered
      · cases answered
        exact tracked
      · obtain ⟨next', removed, done⟩ := Option.bind_eq_some_iff.mp answered
        cases done
        exact tracked.removeTtl removed

theorem execPttl_tracked (tracked : state.Tracked) (consistent : state.Consistent clock)
    (run : execPttl env state cmd out = some (state', out')) : state'.Tracked := by
  obtain ⟨key, -, run⟩ := Option.bind_eq_some_iff.mp run
  refine lookup_tracked tracked consistent run fun found next tracked _ answered => ?_
  cases found with
  | none =>
      cases answered
      exact tracked
  | some ent =>
      simp only at answered
      split at answered
      · cases answered
        exact tracked
      · obtain ⟨item, -, done⟩ := Option.bind_eq_some_iff.mp answered
        cases done
        exact tracked

/-- Each of the twelve handlers. -/
theorem handler_tracked (tracked : state.Tracked) (consistent : state.Consistent clock)
    {entry : CmdEntry} (listed : entry ∈ cmdTable)
    (run : entry.handler env state cmd out = some (state', out')) : state'.Tracked := by
  simp only [cmdTable, List.mem_cons, List.not_mem_nil, or_false] at listed
  rcases listed with rfl | rfl | rfl | rfl | rfl | rfl | rfl | rfl | rfl | rfl | rfl | rfl <;>
    dsimp only at run
  · exact execGet_tracked tracked consistent run
  · exact execSet_tracked tracked consistent run
  · exact execDel_tracked tracked consistent run
  · exact execKeys_tracked tracked run
  · exact execZadd_tracked tracked consistent run
  · exact execZrem_tracked tracked consistent run
  · exact execZscore_tracked tracked consistent run
  · exact execZrank_tracked tracked consistent run
  · exact execZquery_tracked tracked consistent run
  · exact execPexpire_tracked tracked consistent run
  · exact execPersist_tracked tracked consistent run
  · exact execPttl_tracked tracked consistent run

/-- And so each command. -/
theorem execCmd_tracked (tracked : state.Tracked) (consistent : state.Consistent clock)
    (run : execCmd env state cmd out = some (state', out')) : state'.Tracked := by
  cases cmd with
  | nil =>
      cases run
      exact tracked
  | cons name args =>
      simp only [execCmd] at run
      split at run
      · cases run
        exact tracked
      · rename_i entry target
        split at run
        · cases run
          exact tracked
        · exact handler_tracked tracked consistent (List.mem_of_find?_eq_some target) run

end Handlers

/-- In every reachable state the allocated nodes are those of the allocated entries. -/
theorem ServerReachable.tracked (reachable : ServerReachable state clock) : state.Tracked := by
  induction reachable with
  | initial initial clock =>
      intro node allocated
      rw [initial.nodes] at allocated
      cases allocated
  | exec before env later cmd run ih => exact execCmd_tracked ih before.consistent run
  | timers before env later run ih =>
      obtain ⟨_, _, _, run', -, expires⟩ := processTimers_spec before.consistent env later
      rw [run] at run'
      cases run'
      exact ih.handsOver expires.handsOver
  | worker before ent run ih => exact ih.runTask before.consistent run

/-! ## Counting -/

/-- The names in the sorted sets of a map, each with the key of its set. -/
def Contents.pairs (map : Contents) : Set (Bytes × Bytes) :=
  {pair | ∃ scores deadline, map pair.1 = some ⟨.zset scores, deadline⟩ ∧ scores pair.2 ≠ none}

/-- The pairs of the map, listed entry by entry. -/
def Server.namesOf (state : Server) (ent : Addr) : List (Bytes × Bytes) :=
  (state.members ent).map fun node => (state.key ent, state.zmemory.name node)

/-- The pairs of the map are the names in the sets of the linked entries. -/
theorem Server.Invariant.pairs_eq {entries : Finset Addr} {deadline : Addr → Option Nat}
    {tree : Addr → BinaryTree Addr} (invariant : state.Invariant clock entries deadline tree) :
    state.contents.pairs = ((state.db.nodes.flatMap state.namesOf).toFinset : Set (Bytes × Bytes)) := by
  have unique : KeyedList.Unique state.db.nodes state.key := by
    intro x left y right same
    exact invariant.keyed.unique x (invariant.keyed.index.mem_iff.mp left) y
      (invariant.keyed.index.mem_iff.mp right) same
  ext ⟨key, name⟩
  rw [Finset.mem_coe, List.mem_toFinset, List.mem_flatMap]
  constructor
  · rintro ⟨scores, due, found, named⟩
    obtain ⟨ent, linked, rfl, record⟩ := KeyedList.exists_of_lookup found
    have value : state.valueOf ent = .zset scores := congrArg Record.value record
    rw [Server.valueOf] at value
    split at value
    · cases value
      rename_i typed
      rw [ne_eq, scoreOf_eq_none_iff] at named
      push Not at named
      obtain ⟨node, member, rfl⟩ := named
      refine ⟨ent, linked, List.mem_map.mpr ⟨node, ?_, rfl⟩⟩
      rwa [Server.members, if_pos typed]
    · cases value
  · rintro ⟨ent, linked, inside⟩
    obtain ⟨node, member, same⟩ := List.mem_map.mp inside
    cases same
    have found := @KeyedList.lookup_of_mem _ _ _ _ _ _ state.record unique _ linked
    rw [Server.members] at member
    split at member
    · rename_i typed
      refine ⟨_, state.deadlineOf ent,
        found.trans (by rw [Server.record, Server.valueOf, typed]), ?_⟩
      rw [ne_eq, scoreOf_eq_none_iff]
      exact fun absent => absent node member rfl
    · cases member

/-- When no task is queued, entries are keys and nodes are pairs. -/
theorem ServerReachable.counted (reachable : ServerReachable state clock)
    (idle : state.tasks = []) :
    state.contents.keys.Finite ∧ state.live.card = state.contents.keys.ncard ∧
      state.contents.pairs.Finite ∧ state.zmemory.live.card = state.contents.pairs.ncard := by
  obtain ⟨finite, keys⟩ := reachable.consistent.ncard_keys
  have owned := reachable.owned
  have tracked := reachable.tracked
  obtain ⟨entries, deadline, tree, invariant⟩ := reachable.consistent
  have index := invariant.keyed.index
  have linked : ∀ ent, ent ∈ state.live ↔ ent ∈ state.db.nodes := by
    intro ent
    rw [owned.accounted ent, idle]
    simp
  have entriesLive : state.live = state.db.nodes.toFinset := by
    ext ent
    rw [linked, List.mem_toFinset]
  have nodesLive : state.zmemory.live = (state.db.nodes.flatMap state.members).toFinset := by
    ext node
    rw [List.mem_toFinset, List.mem_flatMap]
    constructor
    · intro allocated
      obtain ⟨ent, live, member⟩ := tracked node allocated
      exact ⟨ent, (linked ent).mp live, member⟩
    · rintro ⟨ent, inTable, member⟩
      exact (owned.allocated ent ((linked ent).mpr inTable)).2 node member
  have nodesOnce : (state.db.nodes.flatMap state.members).Nodup := by
    rw [List.nodup_flatMap]
    refine ⟨fun ent inTable => (owned.allocated ent ((linked ent).mpr inTable)).1, ?_⟩
    exact index.nodup.pairwise_of_forall_ne fun ent left other right differs =>
      owned.apart ent ((linked ent).mpr left) other ((linked other).mpr right) differs
  have pairsOnce : (state.db.nodes.flatMap state.namesOf).Nodup := by
    rw [List.nodup_flatMap]
    refine ⟨fun ent inTable => ?_, ?_⟩
    · have inOwners := Finset.mem_union_left state.tasks.toFinset (index.mem_iff.mp inTable)
      apply (owned.allocated ent ((linked ent).mpr inTable)).1.map_on
      intro x left y right same
      exact (invariant.owning.holds ent inOwners).named x (invariant.mem_members inOwners left) y
        (invariant.mem_members inOwners right) (Prod.mk.inj same).2
    · apply index.nodup.pairwise_of_forall_ne
      intro ent left other right differs pair inLeft inRight
      obtain ⟨_, -, rfl⟩ := List.mem_map.mp inLeft
      obtain ⟨_, -, same⟩ := List.mem_map.mp inRight
      exact differs (invariant.keyed.unique ent (index.mem_iff.mp left) other
        (index.mem_iff.mp right)
        (Prod.mk.inj same).1.symm)
  refine ⟨finite, ?_, ?_, ?_⟩
  · rw [keys, entriesLive, List.toFinset_card_of_nodup index.nodup, index.shaped.size]
  · rw [invariant.pairs_eq]
    exact Finset.finite_toSet _
  · rw [invariant.pairs_eq, nodesLive, Set.ncard_coe_finset, List.toFinset_card_of_nodup nodesOnce,
      List.toFinset_card_of_nodup pairsOnce, List.length_flatMap, List.length_flatMap]
    simp only [Server.namesOf, List.length_map]

/-- The workers run any permutation of the queue to its end. -/
theorem ServerReachable.drained (reachable : ServerReachable state clock) {order : List Addr}
    (all : order.Perm state.tasks) : ∃ drained, order.foldlM runTask state = some drained ∧
      ServerReachable drained clock ∧ drained.tasks = [] ∧ drained.contents = state.contents := by
  induction order generalizing state with
  | nil => exact ⟨state, rfl, reachable, List.nil_perm.mp all, rfl⟩
  | cons ent rest ih =>
      obtain ⟨entries, deadline, tree, invariant⟩ := reachable.consistent
      have queued : ent ∈ state.tasks := all.subset List.mem_cons_self
      obtain ⟨next, _, run, -, same, -, -, tasks, -⟩ := runTask_spec invariant queued
      have left : rest.Perm next.tasks := by
        rw [tasks]
        simpa using all.erase ent
      obtain ⟨drained, runs, reached, empty, contents⟩ := ih (reachable.worker ent run) left
      exact ⟨drained, by rw [List.foldlM_cons, run]; exact runs, reached, empty,
        contents.trans same⟩

/-- Nothing is lost: in every state of a run the allocated nodes are those of the allocated
entries, and once the workers have run the queue, in any order, there is one allocated entry
for each key and one allocated node for each pair, however many were allocated before. -/
theorem nothing_leaks (reachable : ServerReachable state clock) :
    (∀ node, node ∈ state.zmemory.live ↔ ∃ ent ∈ state.live, node ∈ state.members ent) ∧
      ∀ order : List Addr, order.Perm state.tasks → ∃ drained,
        order.foldlM runTask state = some drained ∧ drained.contents = state.contents ∧
        state.contents.keys.Finite ∧ drained.live.card = state.contents.keys.ncard ∧
        state.contents.pairs.Finite ∧ drained.zmemory.live.card = state.contents.pairs.ncard := by
  refine ⟨fun node => ⟨reachable.tracked node, ?_⟩, fun order all => ?_⟩
  · rintro ⟨ent, live, member⟩
    exact (reachable.owned.allocated ent live).2 node member
  · obtain ⟨drained, runs, reached, idle, same⟩ := reachable.drained all
    have counted := reached.counted idle
    rw [same] at counted
    exact ⟨drained, runs, same, counted⟩

/-- A large sorted set has been deleted and waits in the queue. -/
theorem nothing_leaks_queued : ∃ (state drained : Server) (ent : Addr), state.tasks = [ent] ∧
    (∀ node, node ∈ state.zmemory.live ↔ ∃ ent ∈ state.live, node ∈ state.members ent) ∧
    state.tasks.foldlM runTask state = some drained ∧
      drained.zmemory.live.card = state.contents.pairs.ncard := by
  obtain ⟨before, state, out, ent, reachable, -, -, run, queued⟩ :=
    @reachable_queued (fun _ => True) trivial fun _ _ _ _ _ _ _ => trivial
  obtain ⟨owners, drains⟩ := nothing_leaks (reachable.exec Env.counting le_rfl _ run)
  obtain ⟨drained, runs, -, -, -, -, nodes⟩ := drains state.tasks (.refl _)
  exact ⟨state, drained, ent, queued, owners, runs, nodes⟩

end MiniRedis
