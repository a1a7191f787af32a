import MiniRedis.Server.Removal
import MiniRedis.Server.Reachable

/-!
# Commands and entries which are being destroyed

An entry which a worker has cleared and not yet deleted still takes up its address. Commands
and the expiry loop do not see it: they act as if it had been deleted.
-/

namespace MiniRedis

open Binary64

variable {state : Server} {clock : Nat} {env : Env} {gone : Finset Addr} {ent : Addr}
  {cmd : List Bytes} {out : Bytes}

/-- The state in which some queued entries have been deleted. -/
def Server.without (state : Server) (gone : Finset Addr) : Server :=
  { state with
    live := state.live \ gone
    tasks := state.tasks.filter (· ∉ gone) }

/-- An allocator which keeps away from addresses which are not free yet. -/
def Env.without (env : Env) (gone : Finset Addr) : Env :=
  { env with
    newEntry := fun live => env.newEntry (live ∪ gone)
    newEntryFresh := fun live member => env.newEntryFresh (live ∪ gone) (Finset.mem_union_left _ member) }

/-- What a command does, seen without some entries. -/
def resultWithout (gone : Finset Addr) (result : Option (Server × Bytes)) : Option (Server × Bytes) :=
  result.map fun answer => (answer.1.without gone, answer.2)

@[simp]
theorem resultWithout_some (answer : Server × Bytes) :
    resultWithout gone (some answer) = some (answer.1.without gone, answer.2) := rfl

@[simp]
theorem resultWithout_none : resultWithout gone none = none := rfl

/-- A step which is the same for both is followed by steps which match. -/
theorem bind_without {α : Type} {found : Option α} {handle handle' : α → Option (Server × Bytes)}
    (same : ∀ x, found = some x → handle' x = resultWithout gone (handle x)) :
    found.bind handle' = resultWithout gone (found.bind handle) := by
  cases found with
  | none => rfl
  | some x => exact same x rfl

/-- A step which leaves matching states is followed by steps which match. -/
theorem map_bind_without {α : Type} {found found' : Option α} {seen : α → α}
    {handle handle' : α → Option (Server × Bytes)} (steps : found' = found.map seen)
    (same : ∀ x, handle' (seen x) = resultWithout gone (handle x)) :
    found'.bind handle' = resultWithout gone (found.bind handle) := by
  subst steps
  cases found with
  | none => rfl
  | some x => exact same x

/-! ## The operations of `state.cpp` -/

/-- A lookup by key does not see the queued entries. -/
theorem getEntry_without (key : Bytes) : getEntry (state.without gone) key =
    (getEntry state key).map fun found => (found.1, found.2.without gone) := by
  simp only [getEntry, Option.bind_eq_bind, Option.map_bind]
  rfl

/-- The new entry is none of those left out. -/
theorem entryNew_without (fresh : ent ∉ gone) (type : ValueType) :
    entryNew (state.without gone) ent type = (entryNew state ent type).without gone := by
  simp only [entryNew, Server.without, Finset.insert_sdiff_of_notMem _ fresh]

/-- An allocator which keeps away from the entries left out makes the same entry. -/
theorem addEntry_without (live : gone ⊆ state.live) (key : Bytes) (type : ValueType) (str : Bytes) :
    addEntry (env.without gone) (state.without gone) key type str =
      (addEntry env state key type str).map fun made => (made.1, made.2.without gone) := by
  have address : (env.without gone).newEntry (state.without gone).live = env.newEntry state.live := by
    change env.newEntry (state.live \ gone ∪ gone) = _
    rw [Finset.sdiff_union_of_subset live]
  have fresh : env.newEntry state.live ∉ gone := fun member =>
    env.newEntryFresh _ (live member)
  simp only [addEntry, address, entryNew_without fresh, Option.bind_eq_bind, Option.map_bind]
  rfl

/-- The heap is the same with and without the entries left out. -/
theorem entrySetTtl_without (ttlMs : Nat) : entrySetTtl (env.without gone) (state.without gone) ent ttlMs =
    (entrySetTtl env state ent ttlMs).map (·.without gone) := by
  simp only [entrySetTtl, Option.bind_eq_bind, Option.map_bind]
  rfl

/-- And a deadline is taken out of it. -/
theorem entryRemoveTtl_without : entryRemoveTtl (state.without gone) ent =
    (entryRemoveTtl state ent).map (·.without gone) := by
  have index : (state.without gone).heapIdx ent = state.heapIdx ent := rfl
  rw [entryRemoveTtl, entryRemoveTtl, index]
  cases state.heapIdx ent with
  | none => rfl
  | some pos =>
      simp only [Option.bind_eq_bind, Option.map_bind]
      rfl

/-- `zset_clear` frees nodes, not entries. -/
theorem entryClear_without : entryClear (state.without gone) ent =
    (entryClear state ent).map (·.without gone) := by
  have typed : (state.without gone).type ent = state.type ent := rfl
  rw [entryClear, entryClear, typed]
  split
  · simp only [Option.bind_eq_bind, Option.map_bind]
    rfl
  · rfl

/-- `delete ent` of an entry which is not left out. -/
theorem entryDelete_without (present : ent ∉ gone) : entryDelete (state.without gone) ent =
    (entryDelete state ent).map (·.without gone) := by
  have live : ent ∈ (state.without gone).live ↔ ent ∈ state.live := by
    simp [Server.without, present]
  by_cases allocated : ent ∈ state.live
  · simp only [entryDelete, live, allocated]
    simp [Server.without, Finset.erase_sdiff_comm]
  · simp only [entryDelete, live, allocated]
    rfl

/-- Its two statements together. -/
theorem entryDelSync_without (present : ent ∉ gone) : entryDelSync (state.without gone) ent =
    (entryDelSync state ent).map (·.without gone) := by
  rw [entryDelSync, entryDelSync, entryClear_without]
  cases entryClear state ent with
  | none => rfl
  | some next => exact entryDelete_without present

/-- Hand-over adds the entry at the end of the queue, so what is left out stays so. -/
theorem entryDispose_without (present : ent ∉ gone) : entryDispose (state.without gone) ent =
    (entryDispose state ent).map (·.without gone) := by
  have typed : (state.without gone).type ent = state.type ent := rfl
  have sets : (state.without gone).zset ent = state.zset ent := rfl
  simp only [entryDispose, typed, sets]
  by_cases large : (if state.type ent = .zset then hmSize (state.zset ent).hmap else 0) >
      kLargeZsetSize
  · simp [if_pos large, Server.without, present]
  · simp only [if_neg large]
    exact entryDelSync_without present

/-- `entry_del` of an entry which is not left out. -/
theorem entryDel_without (present : ent ∉ gone) : entryDel (state.without gone) ent =
    (entryDel state ent).map (·.without gone) := by
  rw [entryDel_eq, entryDel_eq, entryRemoveTtl_without]
  cases entryRemoveTtl state ent with
  | none => rfl
  | some next => exact entryDispose_without present

/-- A turn of the expiry loop, which meets none of them at the root of the heap. -/
theorem expireStep_without (apart : ∀ item ∈ state.ttlHeap.arr, item.ref ∉ gone) (nowMs : Nat) :
    expireStep nowMs (state.without gone) =
      (expireStep nowMs state).map (Option.map (·.without gone)) := by
  have heap : (state.without gone).ttlHeap = state.ttlHeap := rfl
  rw [expireStep, expireStep, heap]
  cases root : state.ttlHeap.arr[0]? with
  | none => rfl
  | some top =>
      have present := apart top (List.mem_of_getElem? root)
      have codes : (state.without gone).hcode = state.hcode := rfl
      have tables : (state.without gone).db = state.db := rfl
      simp only [codes, tables]
      split
      · cases hmDelete state.hcode state.db (state.hcode top.ref) (· == top.ref) with
        | none => rfl
        | some removed =>
            obtain ⟨node, db⟩ := removed
            have deleted := @entryDel_without { state with db := db } _ _ present
            by_cases same : node = some top.ref
            · simp only [Option.bind_eq_bind, Option.bind_some, same]
              exact (congrArg (Option.bind · _) deleted).trans (by
                cases entryDel { state with db := db } top.ref <;> rfl)
            · simp only [Option.bind_eq_bind, Option.bind_some, same]
              rfl
      · rfl

/-! ## The handlers -/

/-- A handler which looks up its key and does not see the entries afterwards. -/
theorem lookup_without {key : Bytes} {handle handle' : Option Addr × Server → Option (Server × Bytes)}
    (same : ∀ found db, handle' (found, ({ state with db := db } : Server).without gone) =
      resultWithout gone (handle (found, { state with db := db }))) :
    (getEntry (state.without gone) key).bind handle' =
      resultWithout gone ((getEntry state key).bind handle) := by
  rw [getEntry_without]
  cases looked : getEntry state key with
  | none => rfl
  | some answer =>
      obtain ⟨found, next⟩ := answer
      simp only [getEntry, Option.bind_eq_bind, Option.bind_eq_some_iff] at looked
      obtain ⟨⟨_, db⟩, -, done⟩ := looked
      cases done
      exact same _ db

/-- The common start of the sorted-set commands, if what they do with the entry matches. -/
theorem withZset_without {missing : Bytes → Bytes}
    {handle handle' : Server → Addr → Option (Server × Bytes)}
    (same : ∀ db ent, handle' (({ state with db := db } : Server).without gone) ent =
      resultWithout gone (handle { state with db := db } ent)) :
    withZset (state.without gone) cmd out missing handle' =
      resultWithout gone (withZset state cmd out missing handle) := by
  refine bind_without fun key _ => lookup_without fun found db => ?_
  cases found with
  | none => rfl
  | some ent =>
      have typed : (({ state with db := db } : Server).without gone).type ent = state.type ent := rfl
      simp only [typed]
      split
      · rfl
      · exact same db ent

section Handlers

variable (state env gone cmd out)

/-- The handlers that allocate no entry and destroy none look at what the table links alone. -/
theorem execGet_without : execGet (env.without gone) (state.without gone) cmd out =
    resultWithout gone (execGet env state cmd out) := by
  refine bind_without fun key _ => lookup_without fun found db => ?_
  cases found with
  | none => rfl
  | some ent =>
      have typed : (({ state with db := db } : Server).without gone).type ent = state.type ent := rfl
      simp only [typed]
      split <;> rfl

/-- `set` may allocate: `gone` is within the allocated entries. -/
theorem execSet_without (live : gone ⊆ state.live) :
    execSet (env.without gone) (state.without gone) cmd out =
      resultWithout gone (execSet env state cmd out) := by
  refine bind_without fun key _ => bind_without fun val _ => lookup_without fun found db => ?_
  cases found with
  | none =>
      exact map_bind_without (@addEntry_without { state with db := db } env gone live key .str val)
        fun _ => rfl
  | some ent =>
      have typed : (({ state with db := db } : Server).without gone).type ent = state.type ent := rfl
      simp only [typed]
      split <;> rfl

/-- `del` destroys an entry which the table has linked, so it is not left out. -/
theorem execDel_without (apart : ∀ ent ∈ state.db.nodes, ent ∉ gone) (consistent : state.Consistent clock) :
    execDel (env.without gone) (state.without gone) cmd out =
      resultWithout gone (execDel env state cmd out) := by
  obtain ⟨entries, deadline, tree, invariant⟩ := consistent
  refine bind_without fun key _ => ?_
  refine @bind_without gone _ (hmDelete state.hcode state.db (strHash key) (entryEq state key)) _ _
    fun removed run => ?_
  obtain ⟨found, db⟩ := removed
  cases found with
  | none => rfl
  | some ent =>
      obtain ⟨_, _, run', finds, -⟩ := invariant.keyed.delete key
      have same : some (some ent, db) = _ := run.symm.trans run'
      cases same
      have present := apart ent (invariant.keyed.index.mem_iff.mpr finds.1)
      exact map_bind_without (@entryDel_without { state with db := db } _ _ present) fun _ => rfl

theorem execKeys_without : execKeys (env.without gone) (state.without gone) cmd out =
    resultWithout gone (execKeys env state cmd out) :=
  bind_without fun _ _ => rfl

/-- `zadd` may allocate an entry, as `set` may, and a node. -/
theorem execZadd_without (live : gone ⊆ state.live) :
    execZadd (env.without gone) (state.without gone) cmd out =
      resultWithout gone (execZadd env state cmd out) := by
  refine bind_without fun scoreArg _ => ?_
  have reads : (env.without gone).strtod = env.strtod := rfl
  simp only [reads]
  cases str2dbl env.strtod scoreArg with
  | none => rfl
  | some score =>
      refine bind_without fun key _ => lookup_without fun found db => ?_
      cases found
      case' none =>
        refine map_bind_without (@addEntry_without { state with db := db } env gone live key .zset [])
          fun made => ?_
      case' some ent =>
        refine @map_bind_without gone _ (some (ent, { state with db := db })) _
          (fun made => (made.1, made.2.without gone)) _ _ rfl fun made => ?_
      all_goals
        obtain ⟨ent, next⟩ := made
        have typed : (next.without gone).type ent = next.type ent := rfl
        simp only [typed]
        split
        · rfl
        · exact bind_without fun name _ => bind_without fun _ _ => rfl

/-- `zrem` frees a node of the set. -/
theorem execZrem_without : execZrem (env.without gone) (state.without gone) cmd out =
    resultWithout gone (execZrem env state cmd out) := by
  refine withZset_without fun db ent => bind_without fun name _ => bind_without fun found _ => ?_
  obtain ⟨znode, zset⟩ := found
  cases znode with
  | none => rfl
  | some znode => exact bind_without fun _ _ => rfl

theorem execZscore_without : execZscore (env.without gone) (state.without gone) cmd out =
    resultWithout gone (execZscore env state cmd out) := by
  refine withZset_without fun db ent => bind_without fun name _ => bind_without fun found _ => ?_
  obtain ⟨znode, zset⟩ := found
  cases znode <;> rfl

theorem execZrank_without : execZrank (env.without gone) (state.without gone) cmd out =
    resultWithout gone (execZrank env state cmd out) := by
  refine withZset_without fun db ent => bind_without fun name _ => bind_without fun found _ => ?_
  obtain ⟨znode, zset⟩ := found
  cases znode with
  | none => rfl
  | some znode => exact bind_without fun _ _ => rfl

/-- `zquery` checks its numbers before it looks for the key. -/
theorem execZquery_without : execZquery (env.without gone) (state.without gone) cmd out =
    resultWithout gone (execZquery env state cmd out) := by
  refine bind_without fun scoreArg _ => ?_
  have reads : (env.without gone).strtod = env.strtod := rfl
  simp only [reads]
  cases str2dbl env.strtod scoreArg with
  | none => rfl
  | some score =>
      refine bind_without fun name _ => bind_without fun offsetArg _ => bind_without fun limitArg _ => ?_
      split
      · exact withZset_without fun db ent => bind_without fun _ _ => rfl
      · rfl

theorem execPexpire_without : execPexpire (env.without gone) (state.without gone) cmd out =
    resultWithout gone (execPexpire env state cmd out) := by
  refine bind_without fun ttlArg _ => ?_
  cases str2int ttlArg with
  | none => rfl
  | some ttlMs =>
      refine bind_without fun _ _ => bind_without fun key _ => lookup_without fun found db => ?_
      cases found with
      | none => rfl
      | some ent => exact map_bind_without (entrySetTtl_without _) fun _ => rfl

theorem execPersist_without : execPersist (env.without gone) (state.without gone) cmd out =
    resultWithout gone (execPersist env state cmd out) := by
  refine bind_without fun key _ => lookup_without fun found db => ?_
  cases found with
  | none => rfl
  | some ent =>
      have index : (({ state with db := db } : Server).without gone).heapIdx ent =
        ({ state with db := db } : Server).heapIdx ent := rfl
      simp only [index]
      split
      · rfl
      · exact map_bind_without entryRemoveTtl_without fun _ => rfl

/-- `pttl` reads the heap. -/
theorem execPttl_without : execPttl (env.without gone) (state.without gone) cmd out =
    resultWithout gone (execPttl env state cmd out) := by
  refine bind_without fun key _ => lookup_without fun found db => ?_
  cases found with
  | none => rfl
  | some ent =>
      have index : (({ state with db := db } : Server).without gone).heapIdx ent =
        ({ state with db := db } : Server).heapIdx ent := rfl
      simp only [index]
      split
      · rfl
      · exact bind_without fun _ _ => rfl

end Handlers

/-- A command acts as if the entries which are being destroyed had been deleted. -/
theorem execCmd_without (consistent : state.Consistent clock) (live : gone ⊆ state.live)
    (apart : ∀ ent ∈ state.db.nodes, ent ∉ gone) :
    execCmd (env.without gone) (state.without gone) cmd out =
      resultWithout gone (execCmd env state cmd out) := by
  cases cmd with
  | nil => rfl
  | cons name args =>
      simp only [execCmd]
      split
      · rfl
      · rename_i entry target
        split
        · rfl
        · have listed := List.mem_of_find?_eq_some target
          simp only [cmdTable, List.mem_cons, List.not_mem_nil, or_false] at listed
          rcases listed with rfl | rfl | rfl | rfl | rfl | rfl | rfl | rfl | rfl | rfl | rfl | rfl
          · exact execGet_without state env gone _ out
          · exact execSet_without state env gone _ out live
          · exact execDel_without state env gone _ out apart consistent
          · exact execKeys_without state env gone (name :: args) out
          · exact execZadd_without state env gone _ out live
          · exact execZrem_without state env gone _ out
          · exact execZscore_without state env gone _ out
          · exact execZrank_without state env gone _ out
          · exact execZquery_without state env gone _ out
          · exact execPexpire_without state env gone _ out
          · exact execPersist_without state env gone _ out
          · exact execPttl_without state env gone _ out

end MiniRedis
