import MiniRedis.Server.Invariant

/-!
# Entries: lookup, creation, deadlines and deletion

Each operation of `state.cpp` keeps the invariant and the records of all other entries.
-/

namespace MiniRedis

open Binary64

/-! ## Records under the invariant -/

/-- An entry's record in terms of its tree and its deadline. -/
def Server.view (state : Server) (deadline : Addr → Option Nat) (tree : Addr → BinaryTree Addr)
    (ent : Addr) : Record where
  value :=
    match state.type ent with
    | .zset => .zset (scoreOf state.zmemory (tree ent).toList)
    | _ => .str (state.str ent)
  deadline := deadline ent

namespace Server.Invariant

variable {state : Server} {clock : Nat} {entries : Finset Addr} {deadline : Addr → Option Nat}
  {tree : Addr → BinaryTree Addr}

theorem owned {ent : Addr} (member : ent ∈ entries) : ent ∈ entries ∪ state.tasks.toFinset :=
  Finset.mem_union_left _ member

theorem record_eq (invariant : state.Invariant clock entries deadline tree) {ent : Addr}
    (member : ent ∈ entries) : state.record ent = state.view deadline tree ent := by
  have holds := invariant.owning.holds ent (owned member)
  have scores : scoreOf state.zmemory (state.zset ent).hmap.nodes =
      scoreOf state.zmemory (tree ent).toList :=
    KeyedList.lookup_congr holds.named
      (fun x => by rw [holds.index.mem_iff, List.mem_toFinset]) (fun _ _ => rfl) fun _ _ => rfl
  have due : state.deadlineOf ent = deadline ent := by
    rw [← invariant.timed.read member]
    cases index : state.ttlHeap.heapIdx ent with
    | none => simp [Server.deadlineOf, Server.heapIdx, index]
    | some pos =>
        cases slot : state.ttlHeap.arr[pos]? <;>
          simp [Server.deadlineOf, Server.heapIdx, index, slot]
  rw [Server.record, Server.valueOf, scores, due]
  rfl

theorem contents_of_mem (invariant : state.Invariant clock entries deadline tree) {ent : Addr}
    (member : ent ∈ entries) :
    state.contents (state.key ent) = some (state.view deadline tree ent) := by
  rw [← invariant.record_eq member]
  refine KeyedList.lookup_of_mem (fun x left y right => ?_) (invariant.keyed.index.mem_iff.mpr member)
  exact invariant.keyed.unique x (invariant.keyed.index.mem_iff.mp left) y
    (invariant.keyed.index.mem_iff.mp right)

theorem contents_of_absent (invariant : state.Invariant clock entries deadline tree) {k : Bytes}
    (absent : ∀ x ∈ entries, state.key x ≠ k) : state.contents k = none :=
  KeyedList.lookup_eq_none_iff.mpr fun x member =>
    absent x (invariant.keyed.index.mem_iff.mp member)

/-- The map is unchanged at a key whose entry keeps its record. -/
theorem contents_at (invariant : state.Invariant clock entries deadline tree) {state' : Server}
    {clock' : Nat} {entries' : Finset Addr} {deadline' : Addr → Option Nat}
    {tree' : Addr → BinaryTree Addr} (invariant' : state'.Invariant clock' entries' deadline' tree')
    {k : Bytes}
    (kept : ∀ x ∈ entries, state.key x = k → x ∈ entries' ∧ state'.key x = state.key x ∧
      state'.view deadline' tree' x = state.view deadline tree x)
    (old : ∀ x ∈ entries', state'.key x = k → x ∈ entries ∧ state'.key x = state.key x) :
    state'.contents k = state.contents k := by
  by_cases present : ∃ x ∈ entries, state.key x = k
  · obtain ⟨x, member, rfl⟩ := present
    obtain ⟨member', sameKey, sameRecord⟩ := kept x member rfl
    rw [invariant.contents_of_mem member, ← sameRecord, ← sameKey,
      invariant'.contents_of_mem member']
  · push Not at present
    rw [invariant.contents_of_absent present]
    apply invariant'.contents_of_absent
    intro x member' same
    obtain ⟨member, sameKey⟩ := old x member' same
    exact present x member (sameKey.symm.trans same)

/-- An operation which keeps the records of all keys but one updates the map at that key. -/
theorem contents_update (invariant : state.Invariant clock entries deadline tree) {state' : Server}
    {clock' : Nat} {entries' : Finset Addr} {deadline' : Addr → Option Nat}
    {tree' : Addr → BinaryTree Addr} (invariant' : state'.Invariant clock' entries' deadline' tree')
    {k : Bytes} {new : Option Record}
    (kept : ∀ x ∈ entries, state.key x ≠ k → x ∈ entries' ∧ state'.key x = state.key x ∧
      state'.view deadline' tree' x = state.view deadline tree x)
    (old : ∀ x ∈ entries', state'.key x ≠ k → x ∈ entries ∧ state'.key x = state.key x)
    (changed : state'.contents k = new) :
    state'.contents = Function.update state.contents k new := by
  ext other : 1
  rcases eq_or_ne other k with rfl | differs
  · rw [Function.update_self, changed]
  · rw [Function.update_of_ne differs]
    apply invariant.contents_at invariant'
    · intro x member same
      exact kept x member (same.symm ▸ differs)
    · intro x member same
      exact old x member (same.symm ▸ differs)

/-- An operation on one entry updates the map at its key. -/
theorem contents_set (invariant : state.Invariant clock entries deadline tree) {state' : Server}
    {clock' : Nat} {deadline' : Addr → Option Nat} {tree' : Addr → BinaryTree Addr}
    (invariant' : state'.Invariant clock' entries deadline' tree') (keys : state'.key = state.key)
    {ent : Addr} (member : ent ∈ entries)
    (kept : ∀ x ∈ entries, x ≠ ent → state'.view deadline' tree' x = state.view deadline tree x) :
    state'.contents = Function.update state.contents (state.key ent)
      (some (state'.view deadline' tree' ent)) := by
  refine invariant.contents_update invariant' (fun x inEntries differs => ?_)
    (fun x inEntries _ => ⟨inEntries, congrFun keys x⟩) ?_
  · exact ⟨inEntries, congrFun keys x, kept x inEntries fun same => differs (same ▸ rfl)⟩
  · rw [← keys]
    exact invariant'.contents_of_mem member

theorem later (invariant : state.Invariant clock entries deadline tree) {clock' : Nat}
    (later : clock ≤ clock') : state.Invariant clock' entries deadline tree :=
  { invariant with timed := invariant.timed.later later }

theorem consistent (invariant : state.Invariant clock entries deadline tree) :
    state.Consistent clock := ⟨entries, deadline, tree, invariant⟩

/-! ## Lookup and creation -/

/-- `get_entry` may migrate nodes of the table and changes nothing else. -/
theorem getEntry (invariant : state.Invariant clock entries deadline tree) (k : Bytes) :
    ∃ found state', getEntry state k = some (found, state') ∧
      state'.Invariant clock entries deadline tree ∧ state'.contents = state.contents ∧
      FindsEntry state'.key entries k found := by
  obtain ⟨found, db', run, keyed, finds⟩ := invariant.keyed.lookup k
  have invariant' : ({ state with db := db' } : Server).Invariant clock entries deadline tree :=
    { invariant with keyed := keyed }
  refine ⟨found, { state with db := db' }, ?_, invariant', ?_, finds⟩
  · have run' : hmLookup state.hcode state.db (strHash k) (entryEq state k) = some (found, db') := run
    simp [MiniRedis.getEntry, run']
  · refine KeyedList.lookup_congr (fun x left y right => ?_) (fun x => ?_) (fun _ _ => rfl)
      fun _ _ => rfl
    · exact invariant.keyed.unique x (invariant.keyed.index.mem_iff.mp left) y
        (invariant.keyed.index.mem_iff.mp right)
    · rw [keyed.index.mem_iff, invariant.keyed.index.mem_iff]

/-- The value of an entry fresh from `entry_new`, given its string. -/
def newValue (type : ValueType) (str : Bytes) : Value :=
  match type with
  | .zset => .zset fun _ => none
  | _ => .str str

/-- A new entry adds its key to the map, without a deadline. -/
theorem addEntry (invariant : state.Invariant clock entries deadline tree) (env : Env) {k : Bytes}
    (absent : ∀ x ∈ entries, state.key x ≠ k) {type : ValueType} (typed : type ≠ .init)
    (str : Bytes) :
    ∃ ent state', addEntry env state k type str = some (ent, state') ∧ state'.key ent = k ∧
      state'.type ent = type ∧ deadline ent = none ∧
      state'.Invariant clock (insert ent entries) deadline (Function.update tree ent .nil) ∧
      state'.contents = Function.update state.contents k (some { value := newValue type str }) := by
  have dead := env.newEntryFresh state.live
  generalize address : env.newEntry state.live = ent at dead
  have unowned : ent ∉ entries ∪ state.tasks.toFinset := fun member =>
    dead (invariant.allocated.live ent member)
  have fresh : ent ∉ entries := fun member => unowned (owned member)
  have others : ∀ x ∈ entries, x ≠ ent := fun x member same => fresh (same ▸ member)
  have free : deadline ent = none := by
    cases due : deadline ent with
    | none => rfl
    | some val => exact absurd (invariant.timed.due ent val due).1 fresh
  obtain ⟨db', inserted, keyed⟩ := invariant.keyed.insert fresh absent typed
  let made : Server := { entryNew state ent type with
    key := Function.update state.key ent k
    hcode := Function.update state.hcode ent (strHash k)
    str := Function.update state.str ent str
    db := db' }
  have owners : insert ent entries ∪ state.tasks.toFinset =
      insert ent (entries ∪ state.tasks.toFinset) := Finset.insert_union _ _ _
  have invariant' : made.Invariant clock (insert ent entries) deadline
      (Function.update tree ent .nil) := by
    have tasks : made.tasks = state.tasks := rfl
    refine ⟨keyed, invariant.timed.insert fresh, ?_, invariant.allocated.nodup, fun x queued => ?_,
      fun x member => ?_⟩
    · rw [tasks, owners]
      exact invariant.owning.insert unowned
    · rw [Finset.mem_insert, not_or]
      exact ⟨fun same => unowned (Finset.mem_union_right _ (List.mem_toFinset.mpr (same ▸ queued))),
        invariant.allocated.unlinked x queued⟩
    · rw [tasks, owners] at member
      exact Finset.insert_subset_insert ent invariant.allocated.live member
  have key : made.key ent = k := Function.update_self _ _ _
  refine ⟨ent, made, ?_, key, Function.update_self _ _ _, free, invariant', ?_⟩
  · simp [MiniRedis.addEntry, address, entryNew, inserted, made]
  · refine invariant.contents_update invariant' (fun x member differs => ?_)
      (fun x member differs => ?_) ?_
    · refine ⟨Finset.mem_insert_of_mem member, ?_, ?_⟩
      · simp [made, others x member]
      · simp [made, Server.view, entryNew, others x member]
    · have other : x ≠ ent := fun same => differs (same ▸ key)
      exact ⟨Finset.mem_of_mem_insert_of_ne member other, Function.update_of_ne other _ _⟩
    · rw [← key, invariant'.contents_of_mem (Finset.mem_insert_self _ _)]
      cases type
      · exact absurd rfl typed
      · simp [Server.view, made, entryNew, free, newValue]
      · simp [Server.view, made, entryNew, free, newValue, scoreOf]
        rfl

/-! ## Values and deadlines of one entry -/

theorem setString (invariant : state.Invariant clock entries deadline tree) {ent : Addr}
    (member : ent ∈ entries) (typed : state.type ent = .str) (val : Bytes) :
    ({ state with str := Function.update state.str ent val } : Server).Invariant clock entries
        deadline tree ∧
      ({ state with str := Function.update state.str ent val } : Server).contents =
        Function.update state.contents (state.key ent) (some ⟨.str val, deadline ent⟩) := by
  have invariant' : ({ state with str := Function.update state.str ent val } : Server).Invariant
      clock entries deadline tree := { invariant with }
  refine ⟨invariant', ?_⟩
  rw [invariant.contents_set invariant' rfl member fun x _ other => by
    simp [Server.view, Function.update_of_ne other]]
  simp [Server.view, typed]

/-- One sorted set is replaced; its memory touches no node of another. -/
theorem setZset (invariant : state.Invariant clock entries deadline tree) {ent : Addr}
    (member : ent ∈ entries) (typed : state.type ent = .zset) {zmemory : ZMemory Addr}
    {zset : ZSet Addr} {tree' : BinaryTree Addr} {touched : Addr → Prop}
    (holds : zset.Holds zmemory tree') (agrees : state.zmemory.Agrees zmemory touched)
    (own : ∀ node, touched node → node ∈ (tree ent).toList ∨ node ∉ state.zmemory.live)
    (inside : ∀ node ∈ tree'.toList, node ∈ (tree ent).toList ∨ node ∉ state.zmemory.live) :
    ({ state with zmemory := zmemory, zset := Function.update state.zset ent zset } :
        Server).Invariant clock entries deadline (Function.update tree ent tree') ∧
      ({ state with zmemory := zmemory, zset := Function.update state.zset ent zset } :
        Server).contents = Function.update state.contents (state.key ent)
          (some ⟨.zset (scoreOf zmemory tree'.toList), deadline ent⟩) := by
  have invariant' : ({ state with zmemory := zmemory, zset := Function.update state.zset ent zset } :
      Server).Invariant clock entries deadline (Function.update tree ent tree') :=
    { invariant with owning := invariant.owning.replace (owned member) holds agrees own inside }
  refine ⟨invariant', ?_⟩
  rw [invariant.contents_set invariant' rfl member fun x inEntries other => ?_]
  · simp [Server.view, typed]
  · have scores := (invariant.owning.holds x (owned inEntries)).scoreOf_congr agrees
      (invariant.owning.untouched (owned member) own (owned inEntries) other)
    simp [Server.view, Function.update_of_ne other, scores]

/-- The clock and a parsed time to live are below `2 ^ 63`, so the deadline does not wrap. -/
theorem entrySetTtl (invariant : state.Invariant clock entries deadline tree) {env : Env}
    (later : clock ≤ env.now) {ent : Addr} (member : ent ∈ entries) {ttlMs : Nat}
    (bound : ttlMs < 2 ^ 63) :
    ∃ state' deadline', entrySetTtl env state ent ttlMs = some state' ∧
      state'.Invariant env.now entries deadline' tree ∧
      state'.contents = Function.update state.contents (state.key ent)
        (some ⟨(state.view deadline tree ent).value, some (env.now + ttlMs)⟩) := by
  have unwrapped : (env.now + ttlMs) % 2 ^ 64 = env.now + ttlMs :=
    Nat.mod_eq_of_lt (by have now := env.nowBound; omega)
  obtain ⟨heap', run, timed⟩ :=
    (invariant.timed.later later).set member (Nat.add_lt_add_left bound env.now)
  have invariant' : ({ state with ttlHeap := heap' } : Server).Invariant env.now entries
      (Function.update deadline ent (some (env.now + ttlMs))) tree :=
    ⟨invariant.keyed, timed, invariant.owning, invariant.allocated⟩
  have stored : MiniRedis.entrySetTtl env state ent ttlMs = some { state with ttlHeap := heap' } := by
    rw [MiniRedis.entrySetTtl, unwrapped, Server.heapIdx, run]
    rfl
  refine ⟨_, _, stored, invariant', ?_⟩
  rw [invariant.contents_set invariant' rfl member fun x _ other => by
    simp [Server.view, Function.update_of_ne other]]
  simp [Server.view]

/-- Removing an entry's deadline, if it has one. -/
theorem removeTtl {state : Server} (timed : Timed state.ttlHeap clock entries deadline) {ent : Addr}
    (member : ent ∈ entries) :
    ∃ heap', entryRemoveTtl state ent = some { state with ttlHeap := heap' } ∧
      Timed heap' clock entries (Function.update deadline ent none) := by
  cases index : state.ttlHeap.heapIdx ent with
  | none =>
      have free : deadline ent = none := by
        cases due : deadline ent with
        | none => rfl
        | some val =>
            obtain ⟨pos, index', -⟩ := timed.holds.exists_slot due
            rw [index] at index'
            cases index'
      refine ⟨state.ttlHeap, by simp [entryRemoveTtl, Server.heapIdx, index], ?_⟩
      rw [← free, Function.update_eq_self]
      exact timed
  | some pos =>
      obtain ⟨heap', run, timed'⟩ := timed.remove member index
      exact ⟨_, by simp [entryRemoveTtl, Server.heapIdx, index, run], timed'⟩

theorem entryRemoveTtl (invariant : state.Invariant clock entries deadline tree) {ent : Addr}
    (member : ent ∈ entries) :
    ∃ state' deadline', entryRemoveTtl state ent = some state' ∧
      state'.Invariant clock entries deadline' tree ∧
      state'.contents = Function.update state.contents (state.key ent)
        (some ⟨(state.view deadline tree ent).value, none⟩) := by
  obtain ⟨heap', run, timed⟩ := removeTtl invariant.timed member
  have invariant' : ({ state with ttlHeap := heap' } : Server).Invariant clock entries
      (Function.update deadline ent none) tree :=
    ⟨invariant.keyed, timed, invariant.owning, invariant.allocated⟩
  refine ⟨_, _, run, invariant', ?_⟩
  rw [invariant.contents_set invariant' rfl member fun x _ other => by
    simp [Server.view, Function.update_of_ne other]]
  simp [Server.view]

end Server.Invariant

theorem Server.Consistent.later {state : Server} {clock clock' : Nat}
    (consistent : state.Consistent clock) (later : clock ≤ clock') : state.Consistent clock' := by
  obtain ⟨entries, deadline, tree, invariant⟩ := consistent
  exact (invariant.later later).consistent

/-! ## Deletion -/

/-- The nodes of an entry's sorted set. -/
def Server.members (state : Server) (ent : Addr) : List Addr :=
  if state.type ent = .zset then (state.zset ent).hmap.nodes else []

/-- The two ways in which `entry_del` disposes of an entry. -/
inductive Server.Disposes (state : Server) (ent : Addr) (state' : Server) : Prop where
  | sync (tasks : state'.tasks = state.tasks) (live : state'.live = state.live.erase ent)
      (freed : state'.zmemory.live = state.zmemory.live \ (state.members ent).toFinset)
      (kept : ∀ x ≠ ent, state'.members x = state.members x)
  | queued (tasks : state'.tasks = state.tasks ++ [ent]) (live : state'.live = state.live)
      (owned : state'.zmemory.live = state.zmemory.live)
      (kept : ∀ x, state'.members x = state.members x)

section Deletion

variable {state : Server} {clock : Nat} {entries owners : Finset Addr}
  {deadline : Addr → Option Nat} {tree : Addr → BinaryTree Addr} {ent : Addr}

/-- `entry_del_sync` frees the entry and its nodes and no other. -/
theorem entryDelSync_spec (owning : Owning state.zset state.zmemory owners tree)
    (member : ent ∈ owners) (live : ent ∈ state.live) :
    ∃ zmemory zset tree', entryDelSync state ent = some { state with
        zmemory := zmemory
        zset := zset
        live := state.live.erase ent } ∧
      zmemory.live = state.zmemory.live \ (state.members ent).toFinset ∧
      (∀ x ≠ ent, zset x = state.zset x) ∧ Owning zset zmemory (owners.erase ent) tree' ∧
      ∀ x ∈ owners.erase ent,
        scoreOf zmemory (tree' x).toList = scoreOf state.zmemory (tree x).toList := by
  by_cases sorted : state.type ent = .zset
  · obtain ⟨zmemory, run, cleared, agrees, freed⟩ := owning.clear member
    refine ⟨zmemory, _, _, by simp [entryDelSync, entryClear, entryDelete, sorted, run, live],
      by simpa [Server.members, sorted] using freed, fun x other => Function.update_of_ne other _ _,
      cleared.subset (Finset.erase_subset _ _), fun x inRest => ?_⟩
    obtain ⟨other, inOwners⟩ := Finset.mem_erase.mp inRest
    rw [Function.update_of_ne other]
    exact (owning.holds x inOwners).scoreOf_congr agrees
      (owning.untouched member (fun node inTree => .inl inTree) inOwners other)
  · exact ⟨_, _, tree, by simp [entryDelSync, entryClear, entryDelete, sorted, live],
      by simp [Server.members, sorted], fun x _ => rfl,
      owning.subset (Finset.erase_subset _ _), fun x _ => rfl⟩

/-- `entry_del` of an entry which has just left the hash table. -/
theorem entryDel_spec (member : ent ∈ entries)
    (keyed : Keyed state.db state.hcode state.key state.type (entries.erase ent))
    (timed : Timed state.ttlHeap clock entries deadline)
    (owning : Owning state.zset state.zmemory (entries ∪ state.tasks.toFinset) tree)
    (allocated : Allocated state.live state.tasks entries) :
    ∃ state' deadline' tree', entryDel state ent = some state' ∧
      state'.Invariant clock (entries.erase ent) deadline' tree' ∧ state'.key = state.key ∧
      state'.db = state.db ∧ state.Disposes ent state' ∧
      ∀ x ∈ entries.erase ent, state'.view deadline' tree' x = state.view deadline tree x := by
  obtain ⟨heap', removed, timed'⟩ := Server.Invariant.removeTtl timed member
  have timed'' := timed'.erase (Function.update_self ent none deadline)
  have unqueued : ent ∉ state.tasks := fun queued => allocated.unlinked ent queued member
  have inOwners : ent ∈ entries ∪ state.tasks.toFinset := Finset.mem_union_left _ member
  have record : ∀ x ∈ entries.erase ent, Function.update deadline ent none x = deadline x :=
    fun x inRest => Function.update_of_ne (Finset.ne_of_mem_erase inRest) _ _
  have unlinked : ∀ x ∈ state.tasks, x ∉ entries.erase ent := fun x queued inRest =>
    allocated.unlinked x queued (Finset.mem_of_mem_erase inRest)
  by_cases large : kLargeZsetSize < if state.type ent = .zset then hmSize (state.zset ent).hmap else 0
  · -- the entry moves from the table to the queue and still owns its nodes
    have owners : entries.erase ent ∪ (state.tasks ++ [ent]).toFinset =
        entries ∪ state.tasks.toFinset := by
      ext x
      simp only [Finset.mem_union, Finset.mem_erase, List.mem_toFinset, List.mem_append,
        List.mem_singleton]
      by_cases same : x = ent <;> simp [same, member]
    have run : entryDel state ent =
        some { state with ttlHeap := heap', tasks := state.tasks ++ [ent] } := by
      simp [entryDel, removed, large]
    refine ⟨_, _, tree, run, ⟨keyed, timed'', ?_, ?_⟩, rfl, rfl,
      .queued rfl rfl rfl fun x => rfl, fun x inRest => by simp [Server.view, record x inRest]⟩
    · rw [← owners] at owning
      exact owning
    · refine ⟨?_, fun x queued => ?_, ?_⟩
      · exact List.nodup_append.mpr ⟨allocated.nodup, List.nodup_singleton _, fun x queued y last same =>
          unqueued (List.mem_singleton.mp last ▸ same ▸ queued)⟩
      · rcases List.mem_append.mp queued with before | last
        · exact unlinked x before
        · exact List.mem_singleton.mp last ▸ Finset.notMem_erase ent entries
      · rw [owners]
        exact allocated.live
  · obtain ⟨zmemory, zset, tree', run', freed, kept, owning', scores⟩ := @entryDelSync_spec
      { state with ttlHeap := heap' } _ _ _ owning inOwners (allocated.live ent inOwners)
    have run : entryDel state ent = some { state with
        ttlHeap := heap'
        zmemory := zmemory
        zset := zset
        live := state.live.erase ent } := by
      simp [entryDel, removed, large, run']
    have owners : entries.erase ent ∪ state.tasks.toFinset =
        (entries ∪ state.tasks.toFinset).erase ent := by
      ext x
      by_cases same : x = ent <;> simp [same, unqueued]
    refine ⟨_, _, tree', run, ⟨keyed, timed'', ?_, ?_⟩, rfl, rfl,
      .sync rfl rfl freed fun x other => by simp [Server.members, kept x other],
      fun x inRest => ?_⟩
    · rw [← owners] at owning'
      exact owning'
    · refine ⟨allocated.nodup, unlinked, fun x inRest => ?_⟩
      simp only [owners] at inRest
      exact Finset.erase_subset_erase ent allocated.live inRest
    · have same := scores x (owners ▸ Finset.mem_union_left _ inRest)
      simp only at same
      simp [Server.view, record x inRest, same]

/-- The first step of `entry_del_sync` leaves its entry with an empty sorted set. -/
theorem entryClear_spec (invariant : state.Invariant clock entries deadline tree)
    (queued : ent ∈ state.tasks) :
    ∃ state', entryClear state ent = some state' ∧ state'.Consistent clock := by
  have inOwners : ent ∈ entries ∪ state.tasks.toFinset :=
    Finset.mem_union_right _ (List.mem_toFinset.mpr queued)
  by_cases sorted : state.type ent = .zset
  · obtain ⟨zmemory, run, cleared, -, -⟩ := invariant.owning.clear inOwners
    exact ⟨{ state with zmemory := zmemory, zset := Function.update state.zset ent {} },
      by simp [entryClear, sorted, run],
      entries, deadline, _, invariant.keyed, invariant.timed, cleared, invariant.allocated⟩
  · exact ⟨state, by simp [entryClear, sorted], invariant.consistent⟩

/-- The owners when a queued entry is gone. -/
theorem Allocated.owners_erase (allocated : Allocated state.live state.tasks entries)
    (queued : ent ∈ state.tasks) : entries ∪ (state.tasks.erase ent).toFinset =
      (entries ∪ state.tasks.toFinset).erase ent := by
  have unlinked : ent ∉ entries := allocated.unlinked ent queued
  ext x
  by_cases same : x = ent
  · simp [same, unlinked, allocated.nodup.mem_erase_iff]
  · simp [same, allocated.nodup.mem_erase_iff]

theorem Allocated.erase (allocated : Allocated state.live state.tasks entries)
    (queued : ent ∈ state.tasks) :
    Allocated (state.live.erase ent) (state.tasks.erase ent) entries := by
  refine ⟨allocated.nodup.erase ent, fun x inRest => ?_, fun x inRest => ?_⟩
  · exact allocated.unlinked x (List.mem_of_mem_erase inRest)
  · rw [allocated.owners_erase queued] at inRest
    exact Finset.erase_subset_erase ent allocated.live inRest

theorem entryDelete_of_mem (live : ent ∈ state.live) :
    entryDelete state ent = some { state with live := state.live.erase ent } := by
  simp [entryDelete, live]

/-- Its second step: a queued entry is gone. -/
theorem entryDelete_spec (invariant : state.Invariant clock entries deadline tree)
    (queued : ent ∈ state.tasks) :
    entryDelete state ent = some { state with live := state.live.erase ent } ∧
      Server.Consistent { state with
        tasks := state.tasks.erase ent
        live := state.live.erase ent } clock := by
  have live := invariant.allocated.live ent
    (Finset.mem_union_right _ (List.mem_toFinset.mpr queued))
  refine ⟨entryDelete_of_mem live, entries, deadline, tree, invariant.keyed, invariant.timed, ?_,
    invariant.allocated.erase queued⟩
  rw [invariant.allocated.owners_erase queued]
  exact invariant.owning.subset (Finset.erase_subset _ _)

/-- A worker frees an entry which no key leads to, and the nodes of its sorted set. -/
theorem runTask_spec (invariant : state.Invariant clock entries deadline tree)
    (queued : ent ∈ state.tasks) :
    ∃ state' tree', runTask state ent = some state' ∧
      state'.Invariant clock entries deadline tree' ∧ state'.contents = state.contents ∧
      state'.db = state.db ∧ state'.ttlHeap = state.ttlHeap ∧
      state'.tasks = state.tasks.erase ent ∧ state'.live = state.live.erase ent ∧
      state'.zmemory.live = state.zmemory.live \ (state.members ent).toFinset ∧
      ∀ x ≠ ent, state'.members x = state.members x := by
  have inOwners : ent ∈ entries ∪ state.tasks.toFinset :=
    Finset.mem_union_right _ (List.mem_toFinset.mpr queued)
  obtain ⟨zmemory, zset, tree', run, freed, kept, owning, scores⟩ := @entryDelSync_spec
    { state with tasks := state.tasks.erase ent } _ _ _ invariant.owning inOwners
    (invariant.allocated.live ent inOwners)
  have owners := invariant.allocated.owners_erase queued
  have invariant' : Server.Invariant { state with
      tasks := state.tasks.erase ent
      zmemory := zmemory
      zset := zset
      live := state.live.erase ent } clock entries deadline tree' := by
    refine ⟨invariant.keyed, invariant.timed, ?_, invariant.allocated.erase queued⟩
    rw [← owners] at owning
    exact owning
  refine ⟨_, tree', by simp [runTask, queued, run], invariant', ?_, rfl, rfl, rfl, rfl, freed,
    fun x other => by simp [Server.members, kept x other]⟩
  ext k : 1
  refine invariant.contents_at invariant' (fun x member _ => ⟨member, rfl, ?_⟩)
    fun x member _ => ⟨member, rfl⟩
  have same := scores x (owners ▸ Finset.mem_union_left _ member)
  simp only at same
  simp [Server.view, same]

theorem mem_tasks_of_runTask {state' : Server} (run : runTask state ent = some state') :
    ent ∈ state.tasks := by
  by_contra missing
  simp [runTask, missing] at run

end Deletion

end MiniRedis
