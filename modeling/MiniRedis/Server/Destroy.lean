import MiniRedis.Server.Expiry

/-!
# Destruction beside the timers

A worker destroys an entry while the main thread deletes others. The two touch different
memory, so that a deletion may as well come first.
-/

namespace MiniRedis

variable {state state' : Server} {clock : Nat} {entries owners : Finset Addr}
  {deadline : Addr → Option Nat} {tree : Addr → BinaryTree Addr} {ent other : Addr}

/-! ## Closed forms -/

/-- An entry and some nodes are freed. -/
def Server.freed (state : Server) (ent : Addr) (nodes : List Addr) : Server :=
  { state with
    zmemory := { state.zmemory with live := state.zmemory.live \ nodes.toFinset }
    zset := if state.type ent = .zset then Function.update state.zset ent {} else state.zset
    live := state.live.erase ent }

/-- What `entry_del_sync` leaves of a consistent state. -/
def Server.destroyed (state : Server) (ent : Addr) : Server := state.freed ent (state.members ent)

/-- What `runTask` leaves of a consistent state. -/
def Server.retired (state : Server) (ent : Addr) : Server :=
  Server.destroyed { state with tasks := state.tasks.erase ent } ent

theorem entryDelSync_eq (owning : Owning state.zset state.zmemory owners tree)
    (member : ent ∈ owners)
    (live : ent ∈ state.live) : entryDelSync state ent = some (state.destroyed ent) := by
  by_cases sorted : state.type ent = .zset
  · have holds := owning.holds ent member
    have disposed := treeDispose_spec holds.represents holds.nodup holds.live
    have nodes : (state.members ent).toFinset = (tree ent).toList.toFinset := by
      ext node
      rw [Server.members, if_pos sorted, List.mem_toFinset, holds.index.mem_iff]
    simp [entryDelSync, entryClear, entryDelete, sorted, zsetClear, holds.root, disposed, hmClear, live,
      Server.destroyed, Server.freed, nodes]
  · simp [entryDelSync, entryClear, entryDelete, sorted, live, Server.destroyed, Server.freed, Server.members]

theorem Server.Consistent.runTask (consistent : state.Consistent clock)
    (queued : ent ∈ state.tasks) :
    MiniRedis.runTask state ent = some (state.retired ent) ∧
    (state.retired ent).Consistent clock := by
  obtain ⟨entries, deadline, tree, invariant⟩ := consistent
  have owner : ent ∈ entries ∪ state.tasks.toFinset :=
    Finset.mem_union_right _ (List.mem_toFinset.mpr queued)
  have destroys := @entryDelSync_eq { state with tasks := state.tasks.erase ent } _ _ _
    invariant.owning owner (invariant.allocated.live ent owner)
  have run : MiniRedis.runTask state ent = some (state.retired ent) := by
    simp [MiniRedis.runTask, queued, destroys, Server.retired]
  obtain ⟨_, _, run', invariant', -⟩ := runTask_spec invariant queued
  rw [run] at run'
  cases run'
  exact ⟨run, invariant'.consistent⟩

/-! ## Two entries -/

theorem Server.freed_zset (state : Server) {nodes : List Addr} (distinct : other ≠ ent) :
    (state.freed ent nodes).zset other = state.zset other := by
  rw [Server.freed]
  split
  · exact Function.update_of_ne distinct _ _
  · rfl

theorem Server.freed_members (state : Server) {nodes : List Addr} (distinct : other ≠ ent) :
    (state.freed ent nodes).members other = state.members other := by
  have type : (state.freed ent nodes).type = state.type := rfl
  simp only [Server.members, type, state.freed_zset distinct]

/-- Two entries are freed in either order. -/
theorem Server.freed_comm (state : Server) (nodes nodes' : List Addr) (distinct : other ≠ ent) :
    (state.freed ent nodes).freed other nodes' = (state.freed other nodes').freed ent nodes := by
  have zset : (if state.type other = .zset then Function.update
        (if state.type ent = .zset then Function.update state.zset ent {} else state.zset) other {}
      else if state.type ent = .zset then Function.update state.zset ent {} else state.zset) =
      if state.type ent = .zset then Function.update
        (if state.type other = .zset then Function.update state.zset other {} else state.zset) ent {}
      else if state.type other = .zset then Function.update state.zset other {} else state.zset := by
    by_cases sorted : state.type ent = .zset
    · by_cases sorted' : state.type other = .zset
      · simp only [if_pos sorted, if_pos sorted']
        exact Function.update_comm distinct.symm _ _ _
      · simp only [if_pos sorted, if_neg sorted']
    · simp only [if_neg sorted]
  simp only [Server.freed, sdiff_right_comm, Finset.erase_right_comm]
  congr 1

/-! ## One round of the expiry loop -/

/-- The body of the expiry loop; the inner `none` leaves the loop. -/
def expireStep (nowMs : Nat) (state : Server) : Option (Option Server) :=
  match state.ttlHeap.arr[0]? with
  | none => some none
  | some top =>
    if top.val < nowMs then do
      let ent := top.ref
      let (node, db) ← hmDelete state.hcode state.db (state.hcode ent) (· == ent)
      guard (node = some ent)
      let state ← entryDel { state with db := db } ent
      return some state
    else some none

/-- The loop runs its body as long as there is a budget. -/
theorem expireFrom_succ (nowMs left : Nat) (state : Server) :
    expireFrom nowMs state (left + 1) = (expireStep nowMs state).bind fun next =>
      next.elim (some state) fun next => expireFrom nowMs next left := by
  rw [expireFrom, expireStep]
  cases state.ttlHeap.arr[0]? with
  | none => rfl
  | some top =>
      dsimp only
      split_ifs
      · simp [Option.bind_assoc]
      · rfl

/-- `entry_remove_ttl` depends on the heap alone. -/
theorem entryRemoveTtl_congr {heap : TtlHeap Addr} (same : state'.ttlHeap = state.ttlHeap)
    (run : entryRemoveTtl state ent = some { state with ttlHeap := heap }) :
    entryRemoveTtl state' ent = some { state' with ttlHeap := heap } := by
  simp only [entryRemoveTtl, Server.heapIdx, same] at run ⊢
  cases index : state.ttlHeap.heapIdx ent with
  | none =>
      simp only [index, Option.some.injEq] at run
      have unchanged := congrArg Server.ttlHeap run
      simp only at unchanged
      rw [← unchanged, ← same]
  | some pos =>
      simp only [index, Option.bind_eq_bind, Option.bind_eq_some_iff] at run ⊢
      obtain ⟨next, deleted, run⟩ := run
      refine ⟨next, deleted, ?_⟩
      have updated := congrArg Server.ttlHeap (Option.some.inj run)
      simp only at updated
      rw [updated]
      rfl

/-- What `entry_del` leaves, given the table and the heap without the entry. -/
def Server.expired (state : Server) (db : HMap Addr) (heap : TtlHeap Addr) (ent : Addr) : Server :=
  if (if state.type ent = .zset then hmSize (state.zset ent).hmap else 0) > kLargeZsetSize then
    { state with
      db := db
      ttlHeap := heap
      tasks := state.tasks ++ [ent] }
  else Server.destroyed { state with
    db := db
    ttlHeap := heap } ent

theorem expireStep_eq (invariant : state.Invariant clock entries deadline tree)
    {top : HeapItem Addr}
    (root : state.ttlHeap.arr[0]? = some top) {nowMs : Nat} (due : top.val < nowMs) :
    ∃ db heap, hmDelete state.hcode state.db (state.hcode top.ref) (· == top.ref) =
        some (some top.ref, db) ∧
      entryRemoveTtl { state with db := db } top.ref =
        some { state with
          db := db
          ttlHeap := heap } ∧
      expireStep nowMs state = some (some (state.expired db heap top.ref)) := by
  have deadlineTop := (invariant.timed.holds.items top).mp (List.mem_of_getElem? root)
  have member := (invariant.timed.due top.ref top.val deadlineTop).1
  have owner : top.ref ∈ entries ∪ state.tasks.toFinset := Finset.mem_union_left _ member
  obtain ⟨db, removed, -⟩ := invariant.keyed.deleteSame member
  obtain ⟨heap, untimed, -⟩ := @Server.Invariant.removeTtl clock entries deadline { state with db := db }
    invariant.timed top.ref member
  have destroys := @entryDelSync_eq { state with
    db := db
    ttlHeap := heap } _ _ _ invariant.owning owner (invariant.allocated.live top.ref owner)
  have deletes : entryDel { state with db := db } top.ref =
      some (state.expired db heap top.ref) := by
    simp only [entryDel, untimed, Server.expired, Option.bind_eq_bind, Option.bind_some]
    split_ifs
    · rfl
    · exact destroys
    · rfl
    · exact destroys
  exact ⟨db, heap, removed, untimed, by simp [expireStep, root, due, removed, deletes]⟩

/-- The entry which expires is not the one of the task. -/
theorem Server.expired_retired (db : HMap Addr) (heap : TtlHeap Addr) (distinct : other ≠ ent)
    (queued : ent ∈ state.tasks) :
    (state.retired ent).expired db heap other = (state.expired db heap other).retired ent := by
  have zset : (state.retired ent).zset other = state.zset other := Server.freed_zset _ distinct
  have type : (state.retired ent).type = state.type := rfl
  simp only [Server.expired, zset, type]
  by_cases large : (if state.type other = .zset then hmSize (state.zset other).hmap else 0) > kLargeZsetSize
  · have tasks : (state.tasks ++ [other]).erase ent = state.tasks.erase ent ++ [other] :=
      List.erase_append_left _ queued
    simp only [if_pos large, Server.retired, Server.destroyed, Server.freed, Server.members, tasks]
  · simp only [if_neg large]
    let base : Server := { state with
      db := db
      ttlHeap := heap
      tasks := state.tasks.erase ent }
    have first : (base.freed ent (state.members ent)).members other = state.members other :=
      Server.freed_members base distinct
    have second : (base.freed other (state.members other)).members ent = state.members ent :=
      Server.freed_members base distinct.symm
    calc Server.destroyed { state.retired ent with
          db := db
          ttlHeap := heap } other
        = (base.freed ent (state.members ent)).freed other
            ((base.freed ent (state.members ent)).members other) := rfl
      _ = (base.freed other (state.members other)).freed ent
            ((base.freed other (state.members other)).members ent) := by
          rw [first, second, Server.freed_comm base _ _ distinct]
      _ = (Server.destroyed { state with
          db := db
          ttlHeap := heap } other).retired ent := rfl

/-- A task may as well run behind the round. -/
theorem expireStep_retired (consistent : state.Consistent clock) (queued : ent ∈ state.tasks)
    (nowMs : Nat) :
    expireStep nowMs (state.retired ent) =
      (expireStep nowMs state).map (Option.map fun next => next.retired ent) := by
  obtain ⟨-, entries', deadline', tree', invariant'⟩ := consistent.runTask queued
  obtain ⟨entries, deadline, tree, invariant⟩ := consistent
  have heap : (state.retired ent).ttlHeap = state.ttlHeap := rfl
  cases root : state.ttlHeap.arr[0]? with
  | none => simp [expireStep, root, heap]
  | some top =>
      by_cases due : top.val < nowMs
      · obtain ⟨db, heap, removed, untimed, run⟩ := expireStep_eq invariant root due
        obtain ⟨db', heap', removed', untimed', run'⟩ := expireStep_eq invariant' root due
        have tables : some (some top.ref, db) = some (some top.ref, db') :=
          removed.symm.trans removed'
        cases tables
        have heaps := (@entryRemoveTtl_congr { state with db := db }
          { state.retired ent with db := db } _ heap rfl untimed).symm.trans untimed'
        obtain rfl : heap = heap' := congrArg Server.ttlHeap (Option.some.inj heaps)
        have deadlineTop := (invariant.timed.holds.items top).mp (List.mem_of_getElem? root)
        have member := (invariant.timed.due top.ref top.val deadlineTop).1
        have distinct : top.ref ≠ ent := by
          rintro rfl
          exact invariant.allocated.unlinked _ queued member
        rw [run, run', Server.expired_retired db heap distinct queued]
        rfl
      · simp [expireStep, root, heap, due]

/-! ## Many tasks -/

/-- A worker has run some task. -/
def TaskStep (state state' : Server) : Prop := ∃ ent, runTask state ent = some state'

theorem TaskStep.consistent (step : TaskStep state state') (consistent : state.Consistent clock) :
    state'.Consistent clock := by
  obtain ⟨ent, run⟩ := step
  obtain ⟨run', consistent'⟩ := consistent.runTask (mem_tasks_of_runTask run)
  rw [run] at run'
  cases run'
  exact consistent'

end MiniRedis
