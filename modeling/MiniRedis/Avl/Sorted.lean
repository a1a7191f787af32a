import MiniRedis.Avl.Insert

/-!
# Insertion into a sorted tree

With a comparison that is the order of some key, the descent ends between the
smaller and the larger labels, so the rebuilt tree is sorted again.
-/

namespace MiniRedis

open AvlMemory (avlSeek)

variable {α : Type} [DecidableEq α] {κ : Type*} [LinearOrder κ] {key : α → κ}
  {memory : AvlMemory α} {tree : BinaryTree α} {node : α} {cmp : α → α → Int}

omit [DecidableEq α] [LinearOrder κ] in
/-- Without an equal label the descent does not stop early. -/
theorem descend_of_distinct (equal : ∀ x, cmp node x = 0 ↔ key node = key x)
    (distinct : ∀ x ∈ tree.toList, key x ≠ key node) :
    ∃ context, TreeContext.descend (cmp node) [] tree = some context := by
  cases reached : TreeContext.descend (cmp node) [] tree with
  | none =>
      obtain ⟨x, member, same⟩ := TreeContext.exists_equal_of_descend reached
      exact absurd ((equal x).mp same).symm (distinct x member)
  | some context => exact ⟨context, rfl⟩

omit [DecidableEq α] [LinearOrder κ] in
/-- `avl_insert` takes its duplicate branch only for a label with the same key. -/
theorem avlSeek_ne_duplicate (equal : ∀ x, cmp node x = 0 ↔ key node = key x)
    (holds : Represents memory none tree) (distinct : ∀ x ∈ tree.toList, key x ≠ key node) :
    avlSeek memory tree.root cmp node none .root ≠ some .duplicate := by
  obtain ⟨context, reached⟩ := descend_of_distinct equal distinct
  have seek : avlSeek memory tree.root cmp node none .root = _ :=
    @avlSeek_eq_descend α memory tree.root cmp node [] tree holds rfl
  rw [seek, reached]
  simp

/-- `avl_insert` puts a node with a new key between the smaller and the larger labels. -/
theorem avlInsert_between (less : ∀ x, cmp node x < 0 ↔ key node < key x)
    (equal : ∀ x, cmp node x = 0 ↔ key node = key x) (holds : Represents memory none tree)
    (nodup : tree.toList.Nodup) (balanced : tree.Balanced)
    (sorted : tree.toList.Pairwise fun x y => key x < key y) (fresh : node ∉ tree.toList)
    (leftLink : (memory node).left = none) (rightLink : (memory node).right = none)
    (distinct : ∀ x ∈ tree.toList, key x ≠ key node) :
    ∃ memory' tree' low high, avlInsert memory tree.root node cmp = some (memory', tree'.root) ∧
      Represents memory' none tree' ∧ tree'.Balanced ∧ tree.toList = low ++ high ∧
      tree'.toList = low ++ node :: high ∧ (∀ x ∈ low, key x < key node) ∧
      (∀ x ∈ high, key node < key x) ∧ ∀ x ∉ node :: tree.toList, memory' x = memory x := by
  have spec := @avlInsert_spec α _ _ _ _ cmp holds nodup fresh leftLink rightLink
  obtain ⟨context, reached⟩ := descend_of_distinct equal distinct
  simp only [reached] at spec
  obtain ⟨memory', run, rebuilt, frame⟩ := spec
  have plugged : context.plug .nil = tree := TreeContext.plug_of_descend reached
  obtain ⟨low, high, labels, before, after, lows, highs⟩ :=
    TreeContext.split_of_descend less equal sorted reached
  refine ⟨memory', _, low, high, run, rebuilt, ?_, labels, ?_, lows, highs, frame⟩
  · apply balanced_attach
    rw [plugged]
    exact balanced
  · rw [TreeContext.toList_rebuild, before, after]
    simp

omit [DecidableEq α] in
/-- A label between the smaller and the larger ones keeps a list sorted. -/
theorem sorted_between {low high : List α}
    (sorted : (low ++ high).Pairwise fun x y => key x < key y) (lows : ∀ x ∈ low, key x < key node)
    (highs : ∀ x ∈ high, key node < key x) :
    (low ++ node :: high).Pairwise fun x y => key x < key y := by
  rw [List.pairwise_append] at sorted
  obtain ⟨lowSorted, highSorted, across⟩ := sorted
  rw [List.pairwise_append, List.pairwise_cons]
  refine ⟨lowSorted, ⟨highs, highSorted⟩, fun x inLow y inRest => ?_⟩
  cases List.mem_cons.mp inRest with
  | inl same => exact same ▸ lows x inLow
  | inr inHigh => exact across x inLow y inHigh

/-- `avl_insert` puts a node with a new key at its sorted place. -/
theorem avlInsert_sorted (less : ∀ x, cmp node x < 0 ↔ key node < key x)
    (equal : ∀ x, cmp node x = 0 ↔ key node = key x) (holds : Represents memory none tree)
    (nodup : tree.toList.Nodup) (balanced : tree.Balanced)
    (sorted : tree.toList.Pairwise fun x y => key x < key y) (fresh : node ∉ tree.toList)
    (leftLink : (memory node).left = none) (rightLink : (memory node).right = none)
    (distinct : ∀ x ∈ tree.toList, key x ≠ key node) :
    ∃ memory' tree', avlInsert memory tree.root node cmp = some (memory', tree'.root) ∧
      Represents memory' none tree' ∧ tree'.Balanced ∧ tree'.toList.Perm (node :: tree.toList) ∧
      (tree'.toList.Pairwise fun x y => key x < key y) ∧
      ∀ x ∉ node :: tree.toList, memory' x = memory x := by
  obtain ⟨memory', tree', low, high, run, holds', balanced', labels, labels', lows, highs, frame⟩ :=
    avlInsert_between less equal holds nodup balanced sorted fresh leftLink rightLink distinct
  refine ⟨memory', tree', run, holds', balanced', ?_, ?_, frame⟩
  · rw [labels, labels']
    exact List.perm_middle
  · rw [labels] at sorted
    rw [labels']
    exact sorted_between sorted lows highs

/-- `avl_insert` drops a node whose key is in the tree. -/
theorem avlInsert_duplicate (less : ∀ x, cmp node x < 0 ↔ key node < key x)
    (equal : ∀ x, cmp node x = 0 ↔ key node = key x) (holds : Represents memory none tree)
    (sorted : tree.toList.Pairwise fun x y => key x < key y) {x : α} (member : x ∈ tree.toList)
    (same : key x = key node) : avlInsert memory tree.root node cmp = some (memory, tree.root) := by
  have seek : avlSeek memory tree.root cmp node none .root = _ :=
    @avlSeek_eq_descend α memory tree.root cmp node [] tree holds rfl
  cases reached : TreeContext.descend (cmp node) [] tree with
  | none => simp [avlInsert, seek, reached]
  | some context =>
      obtain ⟨low, high, labels, -, -, lows, highs⟩ :=
        TreeContext.split_of_descend less equal sorted reached
      rw [labels, List.mem_append] at member
      cases member with
      | inl inLow => exact absurd same (lows x inLow).ne
      | inr inHigh => exact absurd same (highs x inHigh).ne'

end MiniRedis
