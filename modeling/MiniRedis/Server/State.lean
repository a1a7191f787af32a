import MiniRedis.ZSet.Model
import MiniRedis.Heap.Model

/-!
# The global state and its entries (`state.cpp`)

Entries live in one memory, field by field; the `heap_idx` fields are kept by the heap
which writes them. Clock readings are milliseconds since boot, far below `2 ^ 63`.
-/

namespace MiniRedis

open Binary64

/-- An address; entries and nodes are known by theirs. -/
abbrev Addr := Nat

/-- The enumeration of entry types. -/
inductive ValueType where
  | init
  | str
  | zset
  deriving DecidableEq

/-- `GlobalData` without the connections, and the fields of every `Entry`. -/
structure Server where
  db : HMap Addr := {}
  ttlHeap : TtlHeap Addr
  key : Addr → Bytes
  hcode : Addr → UInt64
  type : Addr → ValueType
  str : Addr → Bytes
  zset : Addr → ZSet Addr
  zmemory : ZMemory Addr
  live : Finset Addr := ∅
  /-- The arguments of the `entry_del_task_fn` tasks in the thread pool's queue. -/
  tasks : List Addr := []

/-- What one call gets from outside: the clock, `strtod` and two allocators. -/
structure Env where
  now : Nat
  nowBound : now < 2 ^ 63
  strtod : Bytes → Double × Nat
  newEntry : Finset Addr → Addr
  newEntryFresh : ∀ live, newEntry live ∉ live
  malloc : Finset Addr → Addr
  mallocFresh : ∀ live, malloc live ∉ live

/-- `heap_idx`, where `none` stands for -1. -/
def Server.heapIdx (state : Server) (ent : Addr) : Option Nat := state.ttlHeap.heapIdx ent

/-- `entry_new` at the address which `new` returned. -/
def entryNew (state : Server) (ent : Addr) (type : ValueType) : Server where
  db := state.db
  ttlHeap :=
    { state.ttlHeap with heapIdx := Function.update state.ttlHeap.heapIdx ent none }
  key := Function.update state.key ent []
  hcode := Function.update state.hcode ent 0
  type := Function.update state.type ent type
  str := Function.update state.str ent []
  zset := Function.update state.zset ent {}
  zmemory := state.zmemory
  live := insert ent state.live
  tasks := state.tasks

/-- `entry_set_ttl`: a new heap item, or a new deadline for the one which the entry has. -/
def entrySetTtl (env : Env) (state : Server) (ent : Addr) (ttlMs : Nat) : Option Server := do
  let expireAt := (env.now + ttlMs) % 2 ^ 64
  let heap ← heapUpsert state.ttlHeap (state.heapIdx ent) ⟨expireAt, ent⟩
  return { state with ttlHeap := heap }

/-- `entry_remove_ttl`: the item is deleted from the heap, if there is one. -/
def entryRemoveTtl (state : Server) (ent : Addr) : Option Server :=
  match state.heapIdx ent with
  | none => some state
  | some pos => do
    let heap ← heapDelete state.ttlHeap pos
    let heap := { heap with heapIdx := Function.update heap.heapIdx ent none }
    return { state with ttlHeap := heap }

/-- The first step of `entry_del_sync`: a sorted set is cleared. -/
def entryClear (state : Server) (ent : Addr) : Option Server :=
  if state.type ent = .zset then do
    let (zmemory, zset) ← zsetClear state.zmemory (state.zset ent)
    return { state with zmemory := zmemory, zset := Function.update state.zset ent zset }
  else some state

/-- Its second step, `delete ent`; deleting an entry twice is an error. -/
def entryDelete (state : Server) (ent : Addr) : Option Server := do
  guard (ent ∈ state.live)
  return { state with live := state.live.erase ent }

/-- `entry_del_sync`: the set is cleared, then the entry is freed. -/
def entryDelSync (state : Server) (ent : Addr) : Option Server := do
  let state ← entryClear state ent
  entryDelete state ent

/-- A set with more members is destroyed by a worker. -/
def kLargeZsetSize : Nat := 500

/-- `entry_del`: out of the heap, and destroyed at once or queued. -/
def entryDel (state : Server) (ent : Addr) : Option Server := do
  let state ← entryRemoveTtl state ent
  let zsetSize := if state.type ent = .zset then hmSize (state.zset ent).hmap else 0
  if zsetSize > kLargeZsetSize then return { state with tasks := state.tasks ++ [ent] }
  else entryDelSync state ent

/-- A worker thread takes a task from the queue and runs it to its end. -/
def runTask (state : Server) (ent : Addr) : Option Server := do
  guard (ent ∈ state.tasks)
  entryDelSync { state with tasks := state.tasks.erase ent } ent

end MiniRedis
