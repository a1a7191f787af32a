import MiniRedis.ZSet.Members
import MiniRedis.Avl.Offset

/-!
# Seeking, offsets and ranks in a sorted set
-/

namespace MiniRedis

open Binary64

variable {α : Type} [DecidableEq α] {memory : ZMemory α} {zset : ZSet α} {tree : BinaryTree α}

/-- Whether a node lies at or behind a pair. -/
def ZMemory.atLeast (memory : ZMemory α) (score : Number) (name : Bytes) (node : α) : Bool :=
  decide (pairKey score name ≤ memory.key node)

omit [DecidableEq α] in
theorem ZMemory.atLeast_iff {score : Number} {name : Bytes} {node : α} :
    memory.atLeast score name node = true ↔ ¬avlCmpKey memory node score name < 0 := by
  rw [(avlCmpKey_spec memory node score name).1, not_lt, ZMemory.atLeast, decide_eq_true_iff]

omit [DecidableEq α] in
/-- The descent finds the first node at or behind the pair, or else keeps its candidate. -/
theorem seekGeFrom_spec {parent : Option α} (holds : Represents memory.tree parent tree)
    (sorted : tree.toList.Pairwise fun x y => memory.key x < memory.key y) (score : Number)
    (name : Bytes) (found : Option α) :
    memory.seekGeFrom score name tree.root found =
      some ((tree.toList.find? (memory.atLeast score name)).or found) := by
  induction tree generalizing parent found with
  | nil =>
      rw [ZMemory.seekGeFrom.eq_def]
      rfl
  | node label left right leftIh rightIh =>
      have links := Represents.exposes holds
      rw [BinaryTree.toList_node, List.pairwise_append, List.pairwise_cons] at sorted
      obtain ⟨leftSorted, ⟨-, rightSorted⟩, across⟩ := sorted
      rw [ZMemory.seekGeFrom.eq_def, BinaryTree.root_node, BinaryTree.toList_node]
      simp only [links.leftLink, links.rightLink]
      by_cases before : avlCmpKey memory label score name < 0
      · have skipLabel : memory.atLeast score name label = false := by
          rw [← Bool.not_eq_true, ZMemory.atLeast_iff, not_not]
          exact before
        have skipLeft : left.toList.find? (memory.atLeast score name) = none := by
          rw [List.find?_eq_none]
          intro x inLeft
          rw [ZMemory.atLeast_iff, not_not, (avlCmpKey_spec memory x score name).1]
          exact (across x inLeft label List.mem_cons_self).trans
            ((avlCmpKey_spec memory label score name).1.mp before)
        rw [if_pos before, rightIh links.rightTree rightSorted, List.find?_append, skipLeft,
          List.find?_cons, skipLabel]
        rfl
      · have stop : memory.atLeast score name label = true := ZMemory.atLeast_iff.mpr before
        rw [if_neg before, leftIh links.leftTree leftSorted, List.find?_append, List.find?_cons, stop]
        cases left.toList.find? (memory.atLeast score name) <;> rfl

theorem zsetSeekGe_spec (holds : zset.Holds memory tree) (score : Number) (name : Bytes) :
    zsetSeekGe memory zset score name = some (tree.toList.find? (memory.atLeast score name)) := by
  rw [zsetSeekGe, holds.root, seekGeFrom_spec holds.represents holds.sorted, Option.or_none]

/-- An offset from the node at an index leads to the node at the sum, if there is one. -/
theorem znodeOffset_spec (holds : zset.Holds memory tree) {node : α} {index : Nat}
    (position : tree.toList[index]? = some node) (offset : Int) :
    znodeOffset memory (some node) offset = some (elementAt tree.toList (index + offset)) :=
  avlOffset_spec holds.represents holds.nodup position offset

theorem znodeRank_spec (holds : zset.Holds memory tree) {node : α} {index : Nat}
    (position : tree.toList[index]? = some node) : znodeRank memory node = some index :=
  avlRank_spec holds.represents holds.nodup position

/-- The name and the score which a node carries. -/
def ZMemory.pair (memory : ZMemory α) (node : α) : Bytes × Number :=
  (memory.name node, memory.score node)

/-- The members in the order of the tree, as a list without nodes. -/
theorem ZSet.Holds.members (holds : zset.Holds memory tree) :
    ((tree.toList.map memory.pair).Pairwise fun p q => pairKey p.2 p.1 < pairKey q.2 q.1) ∧
      ∀ name score, (name, score) ∈ tree.toList.map memory.pair ↔
        scoreOf memory tree.toList name = some score := by
  constructor
  · rw [List.pairwise_map]
    exact holds.sorted
  · intro name score
    rw [List.mem_map]
    constructor
    · rintro ⟨x, member, pair⟩
      obtain ⟨rfl, rfl⟩ := Prod.mk.inj pair
      exact holds.scoreOf_of_mem member
    · intro found
      obtain ⟨x, member, rfl, rfl⟩ := KeyedList.exists_of_lookup found
      exact ⟨x, member, rfl⟩

/-! ## The range of a query -/

/-- The pairs which a query reports of sorted members: from the first pair at or behind
the given one, moved by `offset`, as many as make up `limit` items of two a pair. -/
def zqueryPairs (members : List (Bytes × Number)) (score : Number) (name : Bytes)
    (offset limit : Int) : List (Bytes × Number) :=
  match members.findIdx? fun pair => decide (pairKey score name ≤ pairKey pair.2 pair.1) with
  | none => []
  | some i =>
    if 0 < limit ∧ 0 ≤ i + offset ∧ i + offset < members.length then
      (members.drop (i + offset).toNat).take ((limit + 1) / 2).toNat
    else []

end MiniRedis
