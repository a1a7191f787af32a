import MiniRedis.Server.Contents
import MiniRedis.Heap.Operations

/-!
# The invariant of the database

Four parts, each about its own fields of the state: the hash table of entries, the heap
of deadlines, the sorted sets, and the allocation of entries. A queued entry has left
the table and the heap but still owns its sorted set.
-/

namespace MiniRedis

open Binary64

/-- The hash table holds the entries, one a key. -/
structure Keyed (db : HMap Addr) (hcode : Addr → UInt64) (key : Addr → Bytes)
    (type : Addr → ValueType) (entries : Finset Addr) : Prop where
  index : db.Holds hcode entries
  hashed : ∀ x ∈ entries, hcode x = strHash (key x)
  unique : ∀ x ∈ entries, ∀ y ∈ entries, key x = key y → x = y
  typed : ∀ x ∈ entries, type x ≠ .init

/-- The heap holds the deadlines of the entries; they lie less than `2 ^ 63` ahead. -/
structure Timed (heap : TtlHeap Addr) (clock : Nat) (entries : Finset Addr)
    (deadline : Addr → Option Nat) : Prop where
  holds : heap.Holds deadline
  due : ∀ x val, deadline x = some val → x ∈ entries ∧ val < clock + 2 ^ 63
  untimed : ∀ x ∈ entries, deadline x = none → heap.heapIdx x = none

/-- The sorted sets of some entries are well-formed and share no node. -/
structure Owning (zset : Addr → ZSet Addr) (memory : ZMemory Addr) (owners : Finset Addr)
    (tree : Addr → BinaryTree Addr) : Prop where
  holds : ∀ x ∈ owners, (zset x).Holds memory (tree x)
  apart : ∀ x ∈ owners, ∀ y ∈ owners, x ≠ y → (tree x).toList.Disjoint (tree y).toList

/-- The entries and the queued entries are allocated and different. -/
structure Allocated (live : Finset Addr) (tasks : List Addr) (entries : Finset Addr) : Prop where
  nodup : tasks.Nodup
  unlinked : ∀ x ∈ tasks, x ∉ entries
  live : ∀ x ∈ entries ∪ tasks.toFinset, x ∈ live

structure Server.Invariant (state : Server) (clock : Nat) (entries : Finset Addr)
    (deadline : Addr → Option Nat) (tree : Addr → BinaryTree Addr) : Prop where
  keyed : Keyed state.db state.hcode state.key state.type entries
  timed : Timed state.ttlHeap clock entries deadline
  owning : Owning state.zset state.zmemory (entries ∪ state.tasks.toFinset) tree
  allocated : Allocated state.live state.tasks entries

/-- Some entries, deadlines and trees are those of the state. -/
def Server.Consistent (state : Server) (clock : Nat) : Prop :=
  ∃ entries deadline tree, state.Invariant clock entries deadline tree

/-! ## The hash table -/

section Keyed

variable {db : HMap Addr} {hcode : Addr → UInt64} {key : Addr → Bytes} {type : Addr → ValueType}
  {entries : Finset Addr}

/-- Whether a search by key found the entry of that key. -/
def FindsEntry (key : Addr → Bytes) (entries : Finset Addr) (k : Bytes) (found : Option Addr) :
    Prop :=
  match found with
  | none => ∀ x ∈ entries, key x ≠ k
  | some ent => ent ∈ entries ∧ key ent = k

theorem Keyed.respects (keyed : Keyed db hcode key type entries) (k : Bytes) :
    ∀ node ∈ entries, (key node == k) = true → hcode node = strHash k := by
  intro node member same
  rw [keyed.hashed node member, beq_iff_eq.mp same]

theorem Keyed.lookup (keyed : Keyed db hcode key type entries) (k : Bytes) :
    ∃ found db', hmLookup hcode db (strHash k) (fun ent => key ent == k) = some (found, db') ∧
      Keyed db' hcode key type entries ∧ FindsEntry key entries k found := by
  obtain ⟨found, db', run, index, spec⟩ := hmLookup_spec keyed.index (keyed.respects k)
  refine ⟨found, db', run, { keyed with index := index }, ?_⟩
  cases found with
  | none => exact fun x member => beq_eq_false_iff_ne.mp (spec x member)
  | some ent => exact ⟨spec.1, beq_iff_eq.mp spec.2⟩

theorem Keyed.delete (keyed : Keyed db hcode key type entries) (k : Bytes) :
    ∃ found db', hmDelete hcode db (strHash k) (fun ent => key ent == k) = some (found, db') ∧
      FindsEntry key entries k found ∧
      Keyed db' hcode key type (found.elim entries entries.erase) := by
  obtain ⟨found, db', run, spec⟩ := hmDelete_spec keyed.index (keyed.respects k)
  refine ⟨found, db', run, ?_⟩
  cases found with
  | none =>
      exact ⟨fun x member => beq_eq_false_iff_ne.mp (spec.2 x member),
        { keyed with index := spec.1 }⟩
  | some ent =>
      have inside : ∀ x ∈ entries.erase ent, x ∈ entries := fun x => Finset.mem_of_mem_erase
      exact ⟨⟨spec.2.1, beq_iff_eq.mp spec.2.2⟩, spec.1, fun x member => keyed.hashed x (inside x member),
        fun x left y right => keyed.unique x (inside x left) y (inside y right),
        fun x member => keyed.typed x (inside x member)⟩

/-- Deletion by identity, as the expiry loop does it. -/
theorem Keyed.deleteSame (keyed : Keyed db hcode key type entries) {ent : Addr}
    (member : ent ∈ entries) :
    ∃ db', hmDelete hcode db (hcode ent) (· == ent) = some (some ent, db') ∧
      Keyed db' hcode key type (entries.erase ent) := by
  obtain ⟨found, db', run, spec⟩ := @hmDelete_spec _ _ _ _ _ keyed.index (hcode ent) (· == ent)
    fun node _ same => by rw [beq_iff_eq.mp same]
  cases found with
  | none => simpa using spec.2 ent member
  | some node =>
      obtain rfl : node = ent := beq_iff_eq.mp spec.2.2
      have inside : ∀ x ∈ entries.erase node, x ∈ entries := fun x => Finset.mem_of_mem_erase
      exact ⟨db', run, spec.1, fun x inRest => keyed.hashed x (inside x inRest),
        fun x left y right => keyed.unique x (inside x left) y (inside y right),
        fun x inRest => keyed.typed x (inside x inRest)⟩

/-- A new entry for an absent key. -/
theorem Keyed.insert (keyed : Keyed db hcode key type entries) {ent : Addr} {k : Bytes}
    (fresh : ent ∉ entries) (absent : ∀ x ∈ entries, key x ≠ k) {t : ValueType} (typed : t ≠ .init) :
    ∃ db', hmInsert (Function.update hcode ent (strHash k)) db ent = some db' ∧
      Keyed db' (Function.update hcode ent (strHash k)) (Function.update key ent k)
        (Function.update type ent t) (insert ent entries) := by
  have other : ∀ x ∈ entries, x ≠ ent := fun x member same => fresh (same ▸ member)
  have index := keyed.index.congr fun x member =>
    Function.update_of_ne (other x member) (strHash k) hcode
  obtain ⟨db', run, index'⟩ := hmInsert_spec index fresh
  refine ⟨db', run, index', fun x member => ?_, fun x left y right same => ?_, fun x member => ?_⟩
  · rcases Finset.mem_insert.mp member with rfl | inOld
    · simp
    · simpa [other x inOld] using keyed.hashed x inOld
  · rcases Finset.mem_insert.mp left with rfl | inLeft <;>
      rcases Finset.mem_insert.mp right with rfl | inRight
    · rfl
    · simp only [Function.update_self, Function.update_of_ne (other y inRight)] at same
      exact absurd same.symm (absent y inRight)
    · simp only [Function.update_self, Function.update_of_ne (other x inLeft)] at same
      exact absurd same (absent x inLeft)
    · simp only [Function.update_of_ne (other x inLeft),
        Function.update_of_ne (other y inRight)] at same
      exact keyed.unique x inLeft y inRight same
  · rcases Finset.mem_insert.mp member with rfl | inOld
    · simpa using typed
    · simpa [other x inOld] using keyed.typed x inOld

end Keyed

/-! ## The heap -/

section Timed

variable {heap : TtlHeap Addr} {clock : Nat} {entries : Finset Addr}
  {deadline : Addr → Option Nat}

theorem Timed.later (timed : Timed heap clock entries deadline) {clock' : Nat}
    (later : clock ≤ clock') : Timed heap clock' entries deadline where
  holds := timed.holds
  due x val due := ⟨(timed.due x val due).1, by have bound := (timed.due x val due).2; omega⟩
  untimed := timed.untimed

/-- The deadline behind a back-pointer. -/
theorem Timed.read (timed : Timed heap clock entries deadline) {ent : Addr} (member : ent ∈ entries) :
    ((heap.heapIdx ent).bind fun pos => (heap.arr[pos]?).map HeapItem.val) = deadline ent := by
  cases due : deadline ent with
  | none => rw [timed.untimed ent member due]; rfl
  | some val =>
      obtain ⟨pos, index, slot⟩ := timed.holds.exists_slot due
      simp [index, slot]

theorem Timed.set (timed : Timed heap clock entries deadline) {ent : Addr} (member : ent ∈ entries)
    {val : Nat} (bound : val < clock + 2 ^ 63) :
    ∃ heap', heapUpsert heap (heap.heapIdx ent) ⟨val, ent⟩ = some heap' ∧
      Timed heap' clock entries (Function.update deadline ent (some val)) := by
  obtain ⟨heap', run, holds', frame⟩ := timed.holds.upsert ent val (timed.untimed ent member)
  refine ⟨heap', run, holds', fun x val' due => ?_, fun x inEntries free => ?_⟩
  · rcases eq_or_ne x ent with rfl | other
    · rw [Function.update_self, Option.some.injEq] at due
      exact ⟨member, due ▸ bound⟩
    · rw [Function.update_of_ne other] at due
      exact timed.due x val' due
  · rcases eq_or_ne x ent with rfl | other
    · simp at free
    · rw [Function.update_of_ne other] at free
      rw [frame x other free]
      exact timed.untimed x inEntries free

/-- Removing the item behind a back-pointer and clearing the pointer. -/
theorem Timed.remove (timed : Timed heap clock entries deadline) {ent : Addr} {pos : Nat}
    (member : ent ∈ entries) (index : heap.heapIdx ent = some pos) :
    ∃ heap', heapDelete heap pos = some heap' ∧
      Timed { heap' with heapIdx := Function.update heap'.heapIdx ent none } clock entries
        (Function.update deadline ent none) := by
  cases due : deadline ent with
  | none =>
      rw [timed.untimed ent member due] at index
      cases index
  | some val =>
      obtain ⟨heap', run, holds', frame⟩ := timed.holds.delete index due
      refine ⟨heap', run, holds'.clear_index (Function.update_self _ _ _),
        fun x val' due' => ?_, fun x inEntries free => ?_⟩
      · rcases eq_or_ne x ent with rfl | other
        · simp at due'
        · rw [Function.update_of_ne other] at due'
          exact timed.due x val' due'
      · rcases eq_or_ne x ent with rfl | other
        · exact Function.update_self _ _ _
        · rw [Function.update_of_ne other] at free
          simp only [Function.update_of_ne other]
          rw [frame x (.inr free)]
          exact timed.untimed x inEntries free

/-- A new entry starts without a deadline. -/
theorem Timed.insert (timed : Timed heap clock entries deadline) {ent : Addr}
    (fresh : ent ∉ entries) :
    Timed { heap with heapIdx := Function.update heap.heapIdx ent none } clock (insert ent entries)
      deadline := by
  have free : deadline ent = none := by
    cases due : deadline ent with
    | none => rfl
    | some val => exact absurd (timed.due ent val due).1 fresh
  refine ⟨timed.holds.clear_index free, fun x val due => ?_, fun x member untimed => ?_⟩
  · exact ⟨Finset.mem_insert_of_mem (timed.due x val due).1, (timed.due x val due).2⟩
  · rcases eq_or_ne x ent with rfl | other
    · exact Function.update_self _ _ _
    · simp only [Function.update_of_ne other]
      exact timed.untimed x (Finset.mem_of_mem_insert_of_ne member other) untimed

theorem Timed.erase (timed : Timed heap clock entries deadline) {ent : Addr}
    (free : deadline ent = none) : Timed heap clock (entries.erase ent) deadline where
  holds := timed.holds
  due x val due := by
    refine ⟨Finset.mem_erase.mpr ⟨?_, (timed.due x val due).1⟩, (timed.due x val due).2⟩
    rintro rfl
    rw [free] at due
    cases due
  untimed x member := timed.untimed x (Finset.mem_of_mem_erase member)

end Timed

/-! ## The sorted sets -/

section Owning

variable {zset : Addr → ZSet Addr} {memory : ZMemory Addr} {owners : Finset Addr}
  {tree : Addr → BinaryTree Addr}

/-- A change to the nodes of one sorted set, or to unallocated ones, spares all others. -/
theorem Owning.untouched (owning : Owning zset memory owners tree) {ent : Addr}
    (member : ent ∈ owners) {touched : Addr → Prop}
    (own : ∀ node, touched node → node ∈ (tree ent).toList ∨ node ∉ memory.live) {x : Addr}
    (inOwners : x ∈ owners) (other : x ≠ ent) : ∀ node ∈ (tree x).toList, ¬touched node := by
  intro node inTree touches
  rcases own node touches with shared | dead
  · exact owning.apart x inOwners ent member other inTree shared
  · exact dead ((owning.holds x inOwners).live node inTree)

theorem Owning.replace (owning : Owning zset memory owners tree) {ent : Addr} (member : ent ∈ owners)
    {memory' : ZMemory Addr} {zset' : ZSet Addr} {tree' : BinaryTree Addr} {touched : Addr → Prop}
    (holds' : zset'.Holds memory' tree') (agrees : memory.Agrees memory' touched)
    (own : ∀ node, touched node → node ∈ (tree ent).toList ∨ node ∉ memory.live)
    (inside : ∀ node ∈ tree'.toList, node ∈ (tree ent).toList ∨ node ∉ memory.live) :
    Owning (Function.update zset ent zset') memory' owners (Function.update tree ent tree') := by
  have others : ∀ x ∈ owners, x ≠ ent → ∀ node ∈ (tree x).toList, node ∉ tree'.toList :=
    fun x inOwners other => owning.untouched member inside inOwners other
  refine ⟨fun x inOwners => ?_, fun x left y right differs => ?_⟩
  · rcases eq_or_ne x ent with rfl | other
    · simpa using holds'
    · simp only [Function.update_of_ne other]
      exact (owning.holds x inOwners).congr agrees (owning.untouched member own inOwners other)
  · rcases eq_or_ne x ent with rfl | otherX
    · simp only [Function.update_self, Function.update_of_ne differs.symm]
      exact fun node inNew inTree => others y right differs.symm node inTree inNew
    · simp only [Function.update_of_ne otherX]
      rcases eq_or_ne y ent with rfl | otherY
      · simp only [Function.update_self]
        exact fun node inTree inNew => others x left otherX node inTree inNew
      · simp only [Function.update_of_ne otherY]
        exact owning.apart x left y right differs

/-- A new entry owns an empty sorted set. -/
theorem Owning.insert (owning : Owning zset memory owners tree) {ent : Addr} (fresh : ent ∉ owners) :
    Owning (Function.update zset ent {}) memory (insert ent owners)
      (Function.update tree ent .nil) := by
  have other : ∀ x ∈ owners, x ≠ ent := fun x member same => fresh (same ▸ member)
  refine ⟨fun x member => ?_, fun x left y right differs => ?_⟩
  · rcases Finset.mem_insert.mp member with rfl | inOld
    · simpa using ZSet.Holds.empty memory
    · simpa [other x inOld] using owning.holds x inOld
  · rcases Finset.mem_insert.mp left with rfl | inLeft
    · simp
    · rcases Finset.mem_insert.mp right with rfl | inRight
      · simp
      · simpa [other x inLeft, other y inRight] using owning.apart x inLeft y inRight differs

theorem Owning.subset (owning : Owning zset memory owners tree) {owners' : Finset Addr}
    (subset : owners' ⊆ owners) : Owning zset memory owners' tree where
  holds x member := owning.holds x (subset member)
  apart x left y right := owning.apart x (subset left) y (subset right)

/-- Clearing a sorted set leaves those of the other entries. -/
theorem Owning.clear (owning : Owning zset memory owners tree) {ent : Addr} (member : ent ∈ owners) :
    ∃ memory', zsetClear memory (zset ent) = some (memory', {}) ∧
      Owning (Function.update zset ent {}) memory' owners (Function.update tree ent .nil) ∧
      memory.Agrees memory' (· ∈ (tree ent).toList) ∧
      memory'.live = memory.live \ (zset ent).hmap.nodes.toFinset := by
  have holds := owning.holds ent member
  have disposed := treeDispose_spec holds.represents holds.nodup holds.live
  have agrees : memory.Agrees { memory with live := memory.live \ (tree ent).toList.toFinset }
      (· ∈ (tree ent).toList) :=
    ⟨fun _ _ => rfl, fun _ _ => rfl, fun _ _ => rfl, fun _ _ => rfl, fun x outside => by simp [outside]⟩
  have nodes : (zset ent).hmap.nodes.toFinset = (tree ent).toList.toFinset := by
    ext node
    rw [List.mem_toFinset, holds.index.mem_iff]
  refine ⟨_, by simp [zsetClear, holds.root, disposed, hmClear], ?_, agrees, by rw [nodes]⟩
  exact owning.replace member (.empty _) agrees (fun x inTree => .inl inTree) (by simp)

end Owning

end MiniRedis
