import MiniRedis.ZSet.Members

/-!
# A sorted set over whole runs

`scores` is the bookkeeping of the caller: the last score given to each name since
the name was last deleted.
-/

namespace MiniRedis

open Binary64
open AvlMemory (avlSeek)

variable {α : Type} [DecidableEq α]

/-- What `zset_insert` and `zset_delete` make of an initially empty sorted set. -/
inductive ZReachable : ZMemory α → ZSet α → (Bytes → Option Number) → Prop where
  | empty (memory : ZMemory α) : ZReachable memory {} fun _ => none
  | insert {memory memory' : ZMemory α} {zset zset' : ZSet α} {scores : Bytes → Option Number}
      {node : α} {added : Bool} (before : ZReachable memory zset scores)
      (fresh : node ∉ memory.live) (name : Bytes) (score : Number)
      (run : zsetInsert memory zset node name score = some (added, memory', zset')) :
      ZReachable memory' zset' (Function.update scores name (some score))
  | lookup {memory : ZMemory α} {zset zset' : ZSet α} {scores : Bytes → Option Number}
      {found : Option α} (before : ZReachable memory zset scores) (name : Bytes)
      (run : zsetLookup memory zset name = some (found, zset')) : ZReachable memory zset' scores
  | delete {memory memory' : ZMemory α} {zset looked zset' : ZSet α}
      {scores : Bytes → Option Number} {node : α} (before : ZReachable memory zset scores)
      (name : Bytes) (found : zsetLookup memory zset name = some (some node, looked))
      (run : zsetDelete memory looked node = some (memory', zset')) :
      ZReachable memory' zset' (Function.update scores name none)

/-- A node as the answer to a search: it carries the recorded score, up to C++ equality. -/
def Answers (memory : ZMemory α) (nodes : List α) (name : Bytes) (found : Option α)
    (recorded : Option Number) : Prop :=
  match found, recorded with
  | some node, some score =>
    node ∈ nodes ∧ memory.name node = name ∧ (memory.score node).double.eq score.double
  | none, none => ∀ x ∈ nodes, memory.name x ≠ name
  | _, _ => False

/-- The memory after `zset_update` has detached a node and given it its new score. -/
def ZMemory.rescored (memory : ZMemory α) (links : AvlMemory α) (node : α) (score : Number) :
    ZMemory α :=
  { memory with
    tree := avlInit links node
    score := Function.update memory.score node score }

/-- The bookkeeping agrees with the nodes, score by score up to C++ equality. -/
structure ZInvariant (memory : ZMemory α) (zset : ZSet α) (scores : Bytes → Option Number)
    (tree : BinaryTree α) : Prop where
  holds : zset.Holds memory tree
  recorded : ∀ name, (scoreOf memory tree.toList name).map Number.rank =
    (scores name).map Number.rank

theorem ZInvariant.isNone {memory : ZMemory α} {zset : ZSet α} {scores : Bytes → Option Number}
    {tree : BinaryTree α} (invariant : ZInvariant memory zset scores tree) (name : Bytes) :
    (scoreOf memory tree.toList name).isNone = (scores name).isNone := by
  have same := congrArg Option.isNone (invariant.recorded name)
  simpa using same

/-- Each operation keeps the two indexes in step with the bookkeeping. -/
theorem ZReachable.invariant {memory : ZMemory α} {zset : ZSet α}
    {scores : Bytes → Option Number} (reachable : ZReachable memory zset scores) :
    ∃ tree, ZInvariant memory zset scores tree := by
  induction reachable with
  | empty memory => exact ⟨.nil, .empty memory, fun name => rfl⟩
  | insert before fresh name score run ih =>
      obtain ⟨tree, holds, recorded⟩ := ih
      obtain ⟨_, _, tree', run', holds', scores', -⟩ := zsetInsert_spec holds fresh name score
      rw [run] at run'
      cases run'
      refine ⟨tree', holds', fun other => ?_⟩
      rw [scores']
      rcases eq_or_ne other name with rfl | differs
      · simp [insertedScore_rank]
      · rw [Function.update_of_ne differs, Function.update_of_ne differs]
        exact recorded other
  | lookup before name run ih =>
      obtain ⟨tree, holds, recorded⟩ := ih
      obtain ⟨_, _, run', holds', -⟩ := zsetLookup_spec holds name
      rw [run] at run'
      cases run'
      exact ⟨tree, holds', recorded⟩
  | delete before name found run ih =>
      obtain ⟨tree, holds, recorded⟩ := ih
      obtain ⟨_, _, found', lookedHolds, spec⟩ := zsetLookup_spec holds name
      rw [found] at found'
      cases found'
      obtain ⟨member, named⟩ := spec
      obtain ⟨_, _, tree', run', holds', labels, names, scores', -⟩ :=
        zsetDelete_spec lookedHolds member
      rw [run] at run'
      cases run'
      refine ⟨tree', holds', fun other => ?_⟩
      rw [scoreOf_delete lookedHolds member holds' labels names scores', named]
      rcases eq_or_ne other name with rfl | differs
      · simp
      · rw [Function.update_of_ne differs, Function.update_of_ne differs]
        exact recorded other

/-- In every reachable sorted set the indexes hold the same nodes, one a name and
strictly sorted; a lookup answers with the recorded score, an insertion reports
whether the name was new, and no reinsertion is dropped as a duplicate. -/
theorem zset_reachable {memory : ZMemory α} {zset : ZSet α} {scores : Bytes → Option Number}
    (reachable : ZReachable memory zset scores) :
    ∃ tree : BinaryTree α, zset.root = tree.root ∧ Represents memory.tree none tree ∧
      tree.toList.Nodup ∧ zset.hmap.nodes.Nodup ∧ (∀ x, x ∈ zset.hmap.nodes ↔ x ∈ tree.toList) ∧
      (tree.toList.map memory.name).Nodup ∧
      (tree.toList.Pairwise fun x y => memory.key x < memory.key y) ∧
      (∀ name, ∃ found zset', zsetLookup memory zset name = some (found, zset') ∧
        Answers memory tree.toList name found (scores name)) ∧
      (∀ node ∉ memory.live, ∀ name score, ∃ memory' zset',
        zsetInsert memory zset node name score = some ((scores name).isNone, memory', zset')) ∧
      (∀ name node looked, zsetLookup memory zset name = some (some node, looked) →
        ∃ memory' zset', zsetDelete memory looked node = some (memory', zset')) ∧
      (∀ node ∈ tree.toList, ∀ score, ∃ links root, avlDel memory.tree node = some (links, root) ∧
        avlSeek (avlInit links node) root (avlCmp (memory.rescored links node score)) node none
          .root ≠ some .duplicate) := by
  obtain ⟨tree, holds, recorded⟩ := reachable.invariant
  have isNone := ZInvariant.isNone ⟨holds, recorded⟩
  refine ⟨tree, holds.root, holds.represents, holds.nodup, holds.index.nodup, fun x => ?_, ?_,
    holds.sorted, fun name => ?_, fun node fresh name score => ?_,
    fun name node looked found => ?_, fun node member score => ?_⟩
  · rw [holds.index.mem_iff, List.mem_toFinset]
  · exact holds.nodup.map_on fun x left y right same => holds.named x left y right same
  · obtain ⟨found, zset', run, -, spec⟩ := zsetLookup_spec holds name
    refine ⟨found, zset', run, ?_⟩
    have same := recorded name
    rw [scoreOf_lookup holds spec] at same
    cases found with
    | none =>
        cases last : scores name with
        | none => exact spec
        | some score => simp [last] at same
    | some node =>
        cases last : scores name with
        | none => simp [last] at same
        | some score =>
            rw [last, Option.map_some, Option.map_some, Option.map_some, Option.some.injEq] at same
            exact ⟨spec.1, spec.2, (Number.eq_iff _ _).mpr same⟩
  · obtain ⟨memory', zset', _, run, -⟩ := zsetInsert_spec holds fresh name score
    rw [isNone] at run
    exact ⟨memory', zset', run⟩
  · obtain ⟨_, _, found', lookedHolds, spec⟩ := zsetLookup_spec holds name
    rw [found] at found'
    cases found'
    obtain ⟨memory', zset', _, run, -⟩ := zsetDelete_spec lookedHolds spec.1
    exact ⟨memory', zset', run⟩
  · obtain ⟨links, rest, detached, restHolds, labels, -, -⟩ :=
      avlDel_spec holds.represents holds.nodup member
    have gone : node ∉ rest.toList := by
      rw [labels]
      exact holds.nodup.not_mem_erase
    refine ⟨links, rest.root, detached, ?_⟩
    refine avlSeek_ne_duplicate (avlCmp_equal (memory.rescored links node score) node)
      (restHolds.congr fun x inRest => avlInit_of_ne fun same => gone (same ▸ inRest)) ?_
    rw [labels]
    exact holds.distinct_key member rfl

/-- Any pair can be inserted, at a node which `malloc` has not handed out. -/
theorem ZReachable.exists_insert [Infinite α] {memory : ZMemory α} {zset : ZSet α}
    {scores : Bytes → Option Number} (before : ZReachable memory zset scores) (name : Bytes)
    (score : Number) :
    ∃ (memory' : ZMemory α) (zset' : ZSet α),
      ZReachable memory' zset' (Function.update scores name (some score)) := by
  obtain ⟨tree, holds, -⟩ := before.invariant
  obtain ⟨node, fresh⟩ := Infinite.exists_notMem_finset memory.live
  obtain ⟨memory', zset', -, run, -⟩ := zsetInsert_spec holds fresh name score
  exact ⟨memory', zset', .insert before fresh name score run⟩

/-- Two insertions and an update: the updated name is found at a node with the new score, the
other one at a node with its score, and a further insertion of the name adds nothing. -/
theorem zset_reachable_moved : ∃ (memory : ZMemory Nat) (zset : ZSet Nat),
    (∃ node zset', zsetLookup memory zset [97] = some (some node, zset') ∧
      memory.name node = [97] ∧ (memory.score node).double.eq ⟨0x3FF0000000000000⟩) ∧
    (∃ node zset', zsetLookup memory zset [98] = some (some node, zset') ∧
      memory.name node = [98] ∧ (memory.score node).double.eq ⟨0⟩) ∧
    ∀ node ∉ memory.live, ∀ score, ∃ memory' zset',
      zsetInsert memory zset node [97] score = some (false, memory', zset') := by
  let zero : Number := ⟨⟨0⟩, by decide⟩
  let one : Number := ⟨⟨0x3FF0000000000000⟩, by decide⟩
  let blank : ZMemory Nat := ⟨fun _ => {}, fun _ => 0, fun _ => zero, fun _ => [], ∅⟩
  obtain ⟨_, _, reached⟩ := (ZReachable.empty blank).exists_insert [97] zero
  obtain ⟨_, _, reached⟩ := reached.exists_insert [98] zero
  obtain ⟨memory, zset, reached⟩ := reached.exists_insert [97] one
  obtain ⟨tree, -, -, -, -, -, -, -, lookup, insert, -⟩ := zset_reachable reached
  have located : ∀ name score, Function.update (Function.update (Function.update (fun _ => none)
      [97] (some zero)) [98] (some zero)) [97] (some one) name = some score →
      ∃ node zset', zsetLookup memory zset name = some (some node, zset') ∧
        memory.name node = name ∧ (memory.score node).double.eq score.double := by
    intro name score given
    obtain ⟨found, zset', answer, correct⟩ := lookup name
    rw [given] at correct
    cases found with
    | none => exact correct.elim
    | some node => exact ⟨node, zset', answer, correct.2⟩
  refine ⟨memory, zset, located [97] one rfl, located [98] zero rfl, fun node fresh score => ?_⟩
  obtain ⟨memory', zset', run⟩ := insert node fresh [97] score
  exact ⟨memory', zset', run⟩

end MiniRedis
