import MiniRedis.Avl.Rebalance

/-!
# `avl_offset` and `avl_rank`

The rank walk climbs until the subtree at hand contains the target and then
descends; the climb is an induction on the context, the descent on the subtree.
-/

namespace MiniRedis

open AvlMemory (avlOffsetFrom avlRankFrom)

variable {α : Type}

/-- The element at an integer position; positions outside the list hold nothing. -/
def elementAt (list : List α) (index : Int) : Option α :=
  if 0 ≤ index then list[index.toNat]? else none

theorem elementAt_of_outside {list : List α} {index : Int}
    (outside : index < 0 ∨ (list.length : Int) ≤ index) : elementAt list index = none := by
  rw [elementAt]
  split
  · exact List.getElem?_eq_none (by omega)
  · rfl

theorem elementAt_plug {context : TreeContext α} {left right : BinaryTree α} {label : α} :
    elementAt (context.plug (.node label left right)).toList
      (context.before.length + left.numNodes) = some label := by
  have position : ((context.before.length : Int) + left.numNodes).toNat =
      context.before.length + left.numNodes := by
    omega
  rw [elementAt, if_pos (by omega), position, TreeContext.getElem?_plug]

/-- The index of a label among distinct ones is read off its context. -/
theorem index_plug {context : TreeContext α} {left right : BinaryTree α} {label : α} {index : Nat}
    (nodup : (context.plug (.node label left right)).toList.Nodup)
    (position : (context.plug (.node label left right)).toList[index]? = some label) :
    index = context.before.length + left.numNodes := by
  have here := @elementAt_plug α context left right label
  rw [elementAt, if_pos (by omega)] at here
  obtain ⟨bound, value⟩ := List.getElem?_eq_some_iff.mp position
  obtain ⟨bound', value'⟩ := List.getElem?_eq_some_iff.mp here
  have same := nodup.getElem_inj_iff.mp (value.trans value'.symm)
  omega

variable [DecidableEq α]

/-- Inside the subtree which contains the target, the walk only descends. -/
theorem avlOffsetFrom_descend {memory : AvlMemory α} {context : TreeContext α}
    {left right : BinaryTree α} {label : α}
    (holds : Represents memory none (context.plug (.node label left right)))
    {offset rankDiff : Int} (lower : rankDiff - left.numNodes ≤ offset)
    (upper : offset ≤ rankDiff + right.numNodes) :
    avlOffsetFrom memory offset label rankDiff =
      some (elementAt (context.plug (.node label left right)).toList
        (context.before.length + left.numNodes + (offset - rankDiff))) := by
  suffices walk : ∀ (tree : BinaryTree α) (context : TreeContext α) (label : α)
      (left right : BinaryTree α) (rankDiff : Int), tree = .node label left right →
      Represents memory none (context.plug tree) → rankDiff - left.numNodes ≤ offset →
      offset ≤ rankDiff + right.numNodes →
      avlOffsetFrom memory offset label rankDiff =
        some (elementAt (context.plug tree).toList
          (context.before.length + left.numNodes + (offset - rankDiff))) from
    walk _ context label left right rankDiff rfl holds lower upper
  intro tree
  induction tree with
  | nil => rintro _ _ _ _ _ ⟨⟩
  | node top first second firstIh secondIh =>
      rintro context _ _ _ rankDiff ⟨rfl, rfl, rfl⟩ holds lower upper
      have links := Represents.exposes (represents_plug holds).2
      rw [avlOffsetFrom, links.leftLink, links.rightLink, links.leftTree.avlCnt,
        links.rightTree.avlCnt]
      rcases lt_trichotomy rankDiff offset with before | rfl | behind
      · rw [if_neg (by omega), if_pos ⟨before, upper⟩]
        have nonempty : second ≠ .nil := by
          rintro rfl
          simp only [BinaryTree.numNodes] at upper
          omega
        obtain ⟨next, below, above, rfl⟩ := BinaryTree.exists_node nonempty
        have nextLinks := links.rightTree.exposes
        simp only [BinaryTree.numNodes] at upper
        simp only [BinaryTree.root_node, nextLinks.leftLink, nextLinks.leftTree.avlCnt]
        rw [secondIh (.right first top :: context) next below above _ rfl holds (by omega)
          (by omega)]
        rw [TreeContext.plug_right, TreeContext.before_right]
        congr 2
        simp only [List.length_append, List.length_singleton, BinaryTree.length_toList]
        omega
      · rw [if_pos rfl, Int.sub_self, Int.add_zero, elementAt_plug]
      · rw [if_neg (by omega), if_neg (by omega), if_pos ⟨behind, lower⟩]
        have nonempty : first ≠ .nil := by
          rintro rfl
          simp only [BinaryTree.numNodes] at lower
          omega
        obtain ⟨next, below, above, rfl⟩ := BinaryTree.exists_node nonempty
        have nextLinks := links.leftTree.exposes
        simp only [BinaryTree.numNodes] at lower
        simp only [BinaryTree.root_node, nextLinks.rightLink, nextLinks.rightTree.avlCnt]
        rw [firstIh (.left top second :: context) next below above _ rfl holds (by omega)
          (by omega)]
        rw [TreeContext.plug_left, TreeContext.before_left]
        congr 2
        simp only [BinaryTree.numNodes]
        omega

/-- From any node and any accumulated difference, the walk returns the node whose
index is as far away as asked, or null when the index is outside the tree. -/
theorem avlOffsetFrom_spec {memory : AvlMemory α} {context : TreeContext α}
    {left right : BinaryTree α} {label : α}
    (holds : Represents memory none (context.plug (.node label left right)))
    (nodup : (context.plug (.node label left right)).toList.Nodup) (offset rankDiff : Int) :
    avlOffsetFrom memory offset label rankDiff =
      some (elementAt (context.plug (.node label left right)).toList
        (context.before.length + left.numNodes + (offset - rankDiff))) := by
  induction context generalizing left right label rankDiff with
  | nil =>
      by_cases inside : rankDiff - left.numNodes ≤ offset ∧ offset ≤ rankDiff + right.numNodes
      · exact avlOffsetFrom_descend holds inside.1 inside.2
      · have links := Represents.exposes (@represents_plug α memory [] _ holds).2
        rw [avlOffsetFrom, links.leftLink, links.rightLink, links.leftTree.avlCnt,
          links.rightTree.avlCnt, if_neg (by omega), if_neg (by omega), if_neg (by omega),
          links.parentLink]
        have length : (BinaryTree.node label left right).toList.length =
            left.numNodes + right.numNodes + 1 := BinaryTree.length_toList _
        simp only [TreeContext.parent_nil, TreeContext.plug_nil, TreeContext.before_nil,
          List.length_nil]
        rw [elementAt_of_outside]
        rw [length]
        omega
  | cons frame outer ih =>
      by_cases inside : rankDiff - left.numNodes ≤ offset ∧ offset ≤ rankDiff + right.numNodes
      · exact avlOffsetFrom_descend holds inside.1 inside.2
      · obtain ⟨around, here⟩ := represents_plug holds
        have links := Represents.exposes here
        have apart := (TreeContext.nodup_plug nodup).2.2
        rw [avlOffsetFrom, links.leftLink, links.rightLink, links.leftTree.avlCnt,
          links.rightTree.avlCnt, if_neg (by omega), if_neg (by omega), if_neg (by omega),
          links.parentLink]
        cases frame with
        | left above sibling =>
            have rightLink : (memory above).right = sibling.root := around.2.2.1
            have notRight : sibling.root ≠ some label := fun top =>
              apart label (.inr (by simp [BinaryTree.mem_of_root top])) (by simp)
            simp only [TreeContext.parent_cons, TreeFrame.label, rightLink]
            rw [if_neg notRight, @ih (.node label left right) sibling above holds nodup]
            rw [TreeContext.plug_left, TreeContext.before_left]
            congr 2
            simp only [BinaryTree.numNodes]
            omega
        | right sibling above =>
            have rightLink : (memory above).right = some label := around.2.2.1
            simp only [TreeContext.parent_cons, TreeFrame.label, rightLink, if_true]
            rw [@ih sibling (.node label left right) above holds nodup]
            rw [TreeContext.plug_right, TreeContext.before_right]
            congr 2
            simp only [List.length_append, List.length_singleton, BinaryTree.length_toList]
            omega

/-- `avl_offset` from the node at index `i` returns the node at index `i + offset`. -/
theorem avlOffset_spec {memory : AvlMemory α} {tree : BinaryTree α} {node : α} {index : Nat}
    (holds : Represents memory none tree) (nodup : tree.toList.Nodup)
    (position : tree.toList[index]? = some node) (offset : Int) :
    avlOffset memory node offset = some (elementAt tree.toList (index + offset)) := by
  obtain ⟨context, left, right, rfl⟩ :=
    TreeContext.exists_plug (List.mem_of_getElem? position)
  have same := index_plug nodup position
  rw [avlOffset, avlOffsetFrom_spec holds nodup]
  congr 2
  omega

/-- The climb of `avl_rank` adds the nodes in front of the current subtree. -/
theorem avlRankFrom_spec {memory : AvlMemory α} {context : TreeContext α}
    {left right : BinaryTree α} {label : α}
    (holds : Represents memory none (context.plug (.node label left right)))
    (nodup : (context.plug (.node label left right)).toList.Nodup) (rank : Nat) :
    avlRankFrom memory label rank = some (rank + context.before.length) := by
  induction context generalizing left right label rank with
  | nil =>
      have links := Represents.exposes (@represents_plug α memory [] _ holds).2
      rw [avlRankFrom, links.parentLink]
      rfl
  | cons frame outer ih =>
      obtain ⟨around, here⟩ := represents_plug holds
      have links := Represents.exposes here
      have apart := (TreeContext.nodup_plug nodup).2.2
      rw [avlRankFrom, links.parentLink]
      cases frame with
      | left above sibling =>
          have rightLink : (memory above).right = sibling.root := around.2.2.1
          have notRight : sibling.root ≠ some label := fun top =>
            apart label (.inr (by simp [BinaryTree.mem_of_root top])) (by simp)
          simp only [TreeContext.parent_cons, TreeFrame.label, rightLink]
          rw [if_neg notRight, @ih (.node label left right) sibling above holds nodup]
          rfl
      | right sibling above =>
          obtain ⟨-, leftLink, rightLink, siblingTree, -⟩ := around
          have turned : (memory above).right = some label := rightLink
          simp only [TreeContext.parent_cons, TreeFrame.label, turned, leftLink,
            siblingTree.avlCnt, if_true]
          rw [@ih sibling (.node label left right) above holds nodup]
          simp only [TreeContext.before_right, List.length_append, List.length_singleton,
            BinaryTree.length_toList]
          congr 1
          omega

/-- `avl_rank` of the node at index `i` is `i`. -/
theorem avlRank_spec {memory : AvlMemory α} {tree : BinaryTree α} {node : α} {index : Nat}
    (holds : Represents memory none tree) (nodup : tree.toList.Nodup)
    (position : tree.toList[index]? = some node) : avlRank memory node = some index := by
  obtain ⟨context, left, right, rfl⟩ :=
    TreeContext.exists_plug (List.mem_of_getElem? position)
  have same := index_plug nodup position
  have links := Represents.exposes (represents_plug holds).2
  rw [avlRank, links.leftLink, links.leftTree.avlCnt, avlRankFrom_spec holds nodup]
  congr 1
  omega

end MiniRedis
