import MiniRedis.Server.Destroy

/-!
# One removal

`exec_del` and the expiry loop take an entry out of the table, `entry_del` takes it out of
the heap, and only then does the entry get its destroyer.
-/

namespace MiniRedis

open Relation Binary64

variable {state state' : Server} {clock : Nat} {entries : Finset Addr}
  {deadline : Addr → Option Nat} {tree : Addr → BinaryTree Addr} {ent : Addr}

/-! ## The order of the steps -/

/-- The end of `entry_del`, behind `entry_remove_ttl`: the task, or the call of `entry_del_sync`. -/
def entryDispose (state : Server) (ent : Addr) : Option Server :=
  let zsetSize := if state.type ent = .zset then hmSize (state.zset ent).hmap else 0
  if zsetSize > kLargeZsetSize then some { state with tasks := state.tasks ++ [ent] }
  else entryDelSync state ent

theorem entryDel_eq (state : Server) (ent : Addr) :
    entryDel state ent = (entryRemoveTtl state ent).bind fun unlinked => entryDispose unlinked ent :=
  rfl

/-- No chain of either table and no heap item leads to the entry. -/
def Server.Unreached (state : Server) (ent : Addr) : Prop :=
  ent ∉ state.db.newer.nodes ∧ ent ∉ state.db.older.nodes ∧ ∀ item ∈ state.ttlHeap.arr, item.ref ≠ ent

/-- A removal with the state in which the entry gets its destroyer. -/
structure Server.Removes (state : Server) (ent : Addr) (unlinked state' : Server) : Prop where
  linked : ent ∈ state.db.nodes
  unlinks : ∃ hcode eq db, hmDelete state.hcode state.db hcode eq = some (some ent, db) ∧
    entryRemoveTtl { state with db := db } ent = some unlinked
  /-- Nothing leads to the entry, to a queued one or to a freed one. -/
  unreached : ∀ other, other = ent ∨ other ∈ unlinked.tasks ∨ other ∉ unlinked.live →
    unlinked.Unreached other
  disposes : entryDispose unlinked ent = some state'
  /-- `zset_clear` runs between the two steps of `entry_del_sync` and leaves both structures. -/
  clears : ∀ cleared, entryClear unlinked ent = some cleared →
    cleared.db = unlinked.db ∧ cleared.ttlHeap = unlinked.ttlHeap
  handsOver : ∃ destroyed queued, destroyed ++ queued = [ent] ∧ state.HandsOver destroyed queued state'

/-- A sorted set is cleared in its own memory. -/
theorem entryClear_apart {cleared : Server} (run : entryClear state ent = some cleared) :
    cleared.db = state.db ∧ cleared.ttlHeap = state.ttlHeap ∧ cleared.tasks = state.tasks ∧
      cleared.live = state.live := by
  rw [entryClear] at run
  split at run
  · simp only [Option.bind_eq_bind, Option.bind_eq_some_iff] at run
    obtain ⟨⟨zmemory, zset⟩, -, same⟩ := run
    cases same
    exact ⟨rfl, rfl, rfl, rfl⟩
  · cases run
    exact ⟨rfl, rfl, rfl, rfl⟩

/-- What is neither in the table nor in the heap is unreached. -/
theorem Keyed.unreached (keyed : Keyed state.db state.hcode state.key state.type entries)
    (timed : Timed state.ttlHeap clock entries deadline) (absent : ent ∉ entries) :
    state.Unreached ent := by
  have unlinked : ent ∉ state.db.nodes := fun member => absent (keyed.index.mem_iff.mp member)
  rw [HMap.nodes, List.mem_append, not_or] at unlinked
  refine ⟨unlinked.1, unlinked.2, ?_⟩
  rintro item inArr rfl
  exact absent (timed.due _ _ ((timed.holds.items item).mp inArr)).1

/-- `entry_del` of an entry which `hm_delete` has found. -/
theorem Server.Invariant.removes (invariant : state.Invariant clock entries deadline tree)
    (member : ent ∈ entries) {hcode : UInt64} {eq : Addr → Bool} {db : HMap Addr}
    (detached : hmDelete state.hcode state.db hcode eq = some (some ent, db))
    (keyed : Keyed db state.hcode state.key state.type (entries.erase ent)) :
    ∃ unlinked state', MiniRedis.entryDel { state with db := db } ent = some state' ∧
      state.Removes ent unlinked state' ∧ state'.Consistent clock := by
  obtain ⟨state', destroyed, queued, run, single, handsOver, consistent, -⟩ :=
    invariant.entryDel member keyed
  obtain ⟨heap, untimed, timed⟩ := @Server.Invariant.removeTtl clock entries deadline
    { state with db := db } invariant.timed ent member
  have timed' := timed.erase (Function.update_self ent none deadline)
  refine ⟨{ state with db := db, ttlHeap := heap }, state', run, ?_, consistent⟩
  constructor
  · exact invariant.keyed.index.mem_iff.mpr member
  · exact ⟨hcode, eq, db, detached, untimed⟩
  · intro other gone
    apply Keyed.unreached keyed timed'
    intro inRest
    have inEntries := Finset.mem_of_mem_erase inRest
    rcases gone with same | queued | dead
    · exact Finset.ne_of_mem_erase inRest same
    · exact invariant.allocated.unlinked other queued inEntries
    · exact dead (invariant.allocated.live other (owned inEntries))
  · rw [entryDel_eq, untimed] at run
    exact run
  · intro cleared run
    obtain ⟨db, heap, -⟩ := entryClear_apart run
    exact ⟨db, heap⟩
  · exact ⟨destroyed, queued, single, handsOver⟩

/-! ## The expiry loop -/

/-- One turn of the expiry loop which removes an entry. -/
def ExpireRound (nowMs : Nat) (state state' : Server) : Prop :=
  expireStep nowMs state = some (some state')

/-- A turn leaves the loop at an entry which is not due, or removes one entry. -/
theorem expireStep_removes (consistent : state.Consistent clock) (nowMs : Nat) :
    expireStep nowMs state = some none ∨ ∃ ent unlinked state', ExpireRound nowMs state state' ∧
      state.Removes ent unlinked state' ∧ state'.Consistent clock := by
  obtain ⟨entries, deadline, tree, invariant⟩ := consistent
  cases root : state.ttlHeap.arr[0]? with
  | none => exact .inl (by simp [expireStep, root])
  | some top =>
      by_cases due : top.val < nowMs
      · have deadlineTop := (invariant.timed.holds.items top).mp (List.mem_of_getElem? root)
        have member := (invariant.timed.due top.ref top.val deadlineTop).1
        obtain ⟨db, detached, keyed⟩ := invariant.keyed.deleteSame member
        obtain ⟨unlinked, state', deleted, removes, consistent⟩ :=
          invariant.removes member detached keyed
        exact .inr ⟨top.ref, unlinked, state',
          by simp [ExpireRound, expireStep, root, due, detached, deleted], removes, consistent⟩
      · exact .inl (by simp [expireStep, root, due])

/-- All tasks which have run since a state may as well run behind the next round. -/
theorem expireStep_tasks (consistent : state.Consistent clock)
    (tasks : ReflTransGen TaskStep state state') (nowMs : Nat) :
    state'.Consistent clock ∧
      (expireStep nowMs state = some none ∧ expireStep nowMs state' = some none ∨
        ∃ next next', expireStep nowMs state = some (some next) ∧
          expireStep nowMs state' = some (some next') ∧ ReflTransGen TaskStep next next') := by
  induction tasks with
  | refl =>
      refine ⟨consistent, ?_⟩
      obtain stop | ⟨-, -, next, round, -⟩ := expireStep_removes consistent nowMs
      · exact .inl ⟨stop, stop⟩
      · exact .inr ⟨next, next, round, round, .refl⟩
  | @tail middle last tasks step ih =>
      obtain ⟨consistent', rounds⟩ := ih
      refine ⟨step.consistent consistent', ?_⟩
      obtain ⟨ent, run⟩ := step
      have queued := mem_tasks_of_runTask run
      have behind := expireStep_retired consistent' queued nowMs
      obtain rfl : last = middle.retired ent :=
        Option.some.inj (run.symm.trans (consistent'.runTask queued).1)
      obtain ⟨stop, stop'⟩ | ⟨next, next', round, round', moved⟩ := rounds
      · exact .inl ⟨stop, by rw [behind, stop']; rfl⟩
      · refine .inr ⟨next, next'.retired ent, round, by rw [behind, round']; rfl,
          moved.tail ⟨ent, ?_⟩⟩
        obtain stop | ⟨_, _, other, same, removes, consistent''⟩ :=
          expireStep_removes consistent' nowMs
        · rw [round'] at stop
          cases stop
        · rw [ExpireRound, round'] at same
          cases same
          obtain ⟨_, _, -, handsOver⟩ := removes.handsOver
          refine (consistent''.runTask ?_).1
          rw [handsOver.tasks]
          exact List.mem_append_left _ queued

/-- When the loop is left so, no key is due. -/
theorem noneDue_of_expireStep (consistent : state.Consistent clock) {nowMs : Nat}
    (stop : expireStep nowMs state = some none) : NoneDue nowMs state.contents := by
  obtain ⟨entries, deadline, tree, invariant⟩ := consistent
  apply invariant.noneDue
  intro top root
  by_contra due
  obtain ⟨db, state', _, _, detached, deleted, -⟩ := expire_step invariant root
  rw [Option.mem_def] at root
  simp [expireStep, root, not_le.mp due, detached, deleted] at stop

/-- The loop is a row of such turns. -/
theorem rounds_of_expireFrom {nowMs left : Nat} (run : expireFrom nowMs state left = some state') :
    ReflTransGen (ExpireRound nowMs) state state' := by
  induction left generalizing state with
  | zero =>
      cases run
      exact .refl
  | succ left ih =>
      rw [expireFrom_succ, Option.bind_eq_some_iff] at run
      obtain ⟨next, round, run⟩ := run
      cases next with
      | none =>
          cases run
          exact .refl
      | some next => exact .head round (ih run)

/-! ## `exec_del` -/

/-- `del` removes the entry of its key, if there is one. -/
theorem execDel_removes (consistent : state.Consistent clock) {env : Env} {cmd : List Bytes}
    {out out' : Bytes} (run : execDel env state cmd out = some (state', out')) :
    ∃ key, cmd[1]? = some key ∧ (state.contents key = none ∧ state.HandsOver [] [] state' ∨
      ∃ ent unlinked, state.key ent = key ∧ state.Removes ent unlinked state') := by
  obtain ⟨entries, deadline, tree, invariant⟩ := consistent
  simp only [execDel, Option.bind_eq_bind, Option.bind_eq_some_iff] at run
  obtain ⟨key, argument, ⟨found, db⟩, detached, answered⟩ := run
  obtain ⟨_, _, detached', finds, keyed⟩ := invariant.keyed.delete key
  have same : some (found, db) = _ := detached.symm.trans detached'
  cases same
  refine ⟨key, argument, ?_⟩
  cases found with
  | none =>
      cases answered
      refine .inl ⟨invariant.contents_of_absent finds,
        { Server.HandsOver.refl state with nodes := fun ent => ?_ }⟩
      rw [HMap.Holds.mem_iff keyed.index, invariant.keyed.index.mem_iff]
      simp
  | some ent =>
      simp only [Option.bind_eq_some_iff] at answered
      obtain ⟨next, deleted, done⟩ := answered
      cases done
      obtain ⟨unlinked, _, deleted', removes, -⟩ := invariant.removes finds.1 detached keyed
      rw [deleted] at deleted'
      cases deleted'
      exact .inr ⟨ent, unlinked, finds.2, removes⟩

/-! ## Large sorted sets -/

/-- The size which `entry_del` looks at is the number of names. -/
theorem Server.Invariant.zsetSize (invariant : state.Invariant clock entries deadline tree)
    (member : ent ∈ entries) {scores : Bytes → Option Number} {due : Option Nat}
    (stored : state.contents (state.key ent) = some ⟨.zset scores, due⟩) :
    state.type ent = .zset ∧
      hmSize (state.zset ent).hmap = {name | scores name ≠ none}.ncard := by
  rw [invariant.contents_of_mem member, Server.view] at stored
  have holds := invariant.owning.holds ent (owned member)
  cases typed : state.type ent with
  | zset =>
      simp only [typed, Option.some.injEq, Record.mk.injEq, Value.zset.injEq] at stored
      refine ⟨rfl, ?_⟩
      rw [hmSize_spec holds.index, List.toFinset_card_of_nodup holds.nodup, ← stored.1]
      exact (KeyedList.ncard_keys holds.named holds.nodup).2.symm
  | _ => simp [typed] at stored

/-- The thread pool gets the sorted sets with more than `k_large_zset_size` members. -/
theorem Server.Removes.queued {unlinked : Server} (removes : state.Removes ent unlinked state')
    (consistent : state.Consistent clock) {scores : Bytes → Option Number} {due : Option Nat}
    (stored : state.contents (state.key ent) = some ⟨.zset scores, due⟩)
    (large : kLargeZsetSize < {name | scores name ≠ none}.ncard) :
    state'.tasks = state.tasks ++ [ent] := by
  obtain ⟨entries, deadline, tree, invariant⟩ := consistent
  obtain ⟨hcode, eq, db, detached, untimed⟩ := removes.unlinks
  have member := invariant.keyed.index.mem_iff.mp removes.linked
  obtain ⟨typed, size⟩ := invariant.zsetSize member stored
  obtain ⟨heap, untimed', -⟩ := @Server.Invariant.removeTtl clock entries deadline
    { state with db := db } invariant.timed ent member
  rw [untimed'] at untimed
  cases untimed
  have disposes := removes.disposes
  rw [← size] at large
  simp only [entryDispose, typed, if_true, if_pos large, Option.some.injEq] at disposes
  rw [← disposes]

end MiniRedis
