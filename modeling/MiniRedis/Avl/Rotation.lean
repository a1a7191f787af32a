import MiniRedis.Avl.Representation

/-!
# The rotations and one turn of `avl_fix` on represented trees

Each routine is followed write by write: the subtrees it does not touch are
framed, the ones it relinks are read off the written fields.
-/

namespace MiniRedis

variable {α : Type} [DecidableEq α]

/-- `rot_left` performs `BinaryTree.rotateLeft` and writes only inside the tree. -/
theorem rotLeft_spec {memory : AvlMemory α} {parent : Option α}
    {left inner far : BinaryTree α} {label pivot : α}
    (links : Exposes memory parent left label (.node pivot inner far))
    (nodup : (BinaryTree.node label left (.node pivot inner far)).toList.Nodup) :
    ∃ memory', rotLeft memory label = some (memory', pivot) ∧
      Represents memory' parent (.node pivot (.node label left inner) far) ∧
      ∀ x ∉ (BinaryTree.node label left (.node pivot inner far)).toList, memory' x = memory x := by
  have pivotLinks := links.rightTree.exposes
  simp only [BinaryTree.toList_node, List.nodup_append, List.nodup_cons, List.mem_append,
    List.mem_cons, not_or] at nodup
  obtain ⟨-, ⟨⟨notInner, distinct, notFar⟩, innerNodup, ⟨pivotNotFar, -⟩, innerApart⟩, leftApart⟩ :=
    nodup
  have labelNotLeft : label ∉ left.toList := fun member => leftApart label member label (by simp) rfl
  have pivotNotLeft : pivot ∉ left.toList := fun member => leftApart pivot member pivot (by simp) rfl
  have pivotNotInner : pivot ∉ inner.toList :=
    fun member => innerApart pivot member pivot (by simp) rfl
  let relinked : AvlMemory α :=
    ((((memory.setRight label inner.root).adopt inner.root (some label)).setParent pivot
      parent).setLeft pivot (some label)).setParent label (some pivot)
  have run : rotLeft memory label = some (avlUpdate (avlUpdate relinked label) pivot, pivot) := by
    simp [rotLeft, links.rightLink, links.parentLink, pivotLinks.leftLink, relinked]
  have outside : ∀ x, x ≠ label → x ≠ pivot → x ∉ inner.toList → relinked x = memory x := by
    intro x notLabel notPivot notMember
    simp [relinked, notLabel, notPivot, adopt_root notMember]
  have innerTree : Represents relinked (some label) inner := by
    have moved : Represents ((memory.setRight label inner.root).adopt inner.root (some label))
        (some label) inner := by
      refine Represents.adopt (pivotLinks.leftTree.congr fun x member => ?_) innerNodup _
      exact AvlMemory.setRight_of_ne _ _ fun equal => notInner (equal ▸ member)
    apply moved.congr
    intro x member
    have notLabel : x ≠ label := fun equal => notInner (equal ▸ member)
    have notPivot : x ≠ pivot := fun equal => pivotNotInner (equal ▸ member)
    simp [relinked, notLabel, notPivot]
  have lower : Exposes relinked (some pivot) left label inner := by
    refine ⟨by simp [relinked], ?_, ?_, links.leftTree.congr fun x member => ?_, innerTree⟩
    · simp [relinked, distinct, adopt_root notInner, links.leftLink]
    · simp [relinked, distinct, adopt_root notInner]
    · refine outside x (fun equal => labelNotLeft (equal ▸ member))
        (fun equal => pivotNotLeft (equal ▸ member)) fun inInner => ?_
      exact leftApart x member x (by simp [inInner]) rfl
  have upper : Exposes (avlUpdate relinked label) parent (.node label left inner) pivot far := by
    refine ⟨?_, ?_, ?_, lower.avlUpdate labelNotLeft notInner,
      pivotLinks.rightTree.congr fun x member => ?_⟩
    · simp [avlUpdate_of_ne (Ne.symm distinct), relinked, Ne.symm distinct]
    · simp [avlUpdate_of_ne (Ne.symm distinct), relinked, Ne.symm distinct]
    · simp [avlUpdate_of_ne (Ne.symm distinct), relinked, Ne.symm distinct,
        adopt_root pivotNotInner, pivotLinks.rightLink]
    · have notLabel : x ≠ label := fun equal => notFar (equal ▸ member)
      rw [avlUpdate_of_ne notLabel]
      apply outside x notLabel (fun equal => pivotNotFar (equal ▸ member))
      intro inInner
      exact innerApart x inInner x (by simp [member]) rfl
  refine ⟨_, run, upper.avlUpdate ?_ pivotNotFar, ?_⟩
  · simp [pivotNotLeft, pivotNotInner, Ne.symm distinct]
  · intro x notMember
    simp only [BinaryTree.toList_node, List.mem_append, List.mem_cons, not_or] at notMember
    obtain ⟨notLeft, notLabel, notIn, notPivot, notRight⟩ := notMember
    rw [avlUpdate_of_ne notPivot, avlUpdate_of_ne notLabel, outside x notLabel notPivot notIn]

/-! ## Reflection

Exchanging the child fields of every record turns each left-hand routine into the
right-hand one, so the specification of `rot_right` is read off `rotLeft_spec`. -/

namespace AvlMemory

/-- Exchange the child fields of every node. -/
def mirror (memory : AvlMemory α) : AvlMemory α :=
  fun x => { memory x with left := (memory x).right, right := (memory x).left }

omit [DecidableEq α] in
/-- Mirroring is its own inverse. -/
@[simp] theorem mirror_mirror (memory : AvlMemory α) : memory.mirror.mirror = memory := rfl

/-- Parent links have no side. -/
@[simp] theorem mirror_setParent (memory : AvlMemory α) (node : α) (value : Option α) :
    (memory.setParent node value).mirror = memory.mirror.setParent node value := by
  funext x
  by_cases equal : x = node <;> simp [mirror, equal]

/-- A store to one child link is a store to the other one in the mirror. -/
@[simp] theorem mirror_setLeft (memory : AvlMemory α) (node : α) (value : Option α) :
    (memory.setLeft node value).mirror = memory.mirror.setRight node value := by
  funext x
  by_cases equal : x = node <;> simp [mirror, equal]

/-- The same from the other side. -/
@[simp] theorem mirror_setRight (memory : AvlMemory α) (node : α) (value : Option α) :
    (memory.setRight node value).mirror = memory.mirror.setLeft node value := by
  funext x
  by_cases equal : x = node <;> simp [mirror, equal]

/-- The parent link which a rotation stores at a child has no side either. -/
@[simp] theorem mirror_adopt (memory : AvlMemory α) (child value : Option α) :
    (memory.adopt child value).mirror = memory.mirror.adopt child value := by
  cases child <;> simp [adopt]

/-- Counts and heights do not depend on the sides of the children. -/
theorem mirror_avlUpdate (memory : AvlMemory α) (node : α) :
    mirror (avlUpdate memory node) = avlUpdate memory.mirror node := by
  have heights : ∀ child, avlHeight memory.mirror child = avlHeight memory child := by
    rintro (_ | child) <;> rfl
  have counts : ∀ child, avlCnt memory.mirror child = avlCnt memory child := by
    rintro (_ | child) <;> rfl
  funext x
  by_cases equal : x = node
  · subst equal
    simp only [avlUpdate, mirror, Function.update_self, heights, counts]
    rw [max_comm, Nat.add_right_comm]
  · simp [mirror, avlUpdate, equal]

end AvlMemory

/-- `rot_right` is `rot_left` in the mirror, so its facts follow from those of `rot_left`. -/
theorem rotRight_eq_mirror (memory : AvlMemory α) (node : α) :
    rotRight memory node =
      (rotLeft memory.mirror node).map fun result => (result.1.mirror, result.2) := by
  unfold rotRight rotLeft
  cases leftLink : (memory node).left with
  | none => simp [AvlMemory.mirror, leftLink]
  | some left =>
      have rightLink : (memory.mirror node).right = some left := leftLink
      simp [rightLink, AvlMemory.mirror_avlUpdate]
      rfl

omit [DecidableEq α] in
/-- A tree in memory is a mirrored tree in the mirrored memory. -/
theorem represents_mirror {memory : AvlMemory α} {parent : Option α} {tree : BinaryTree α}
    (holds : Represents memory parent tree) : Represents memory.mirror parent tree.mirror := by
  induction tree generalizing parent with
  | nil => trivial
  | node label left right leftIh rightIh =>
      obtain ⟨record, leftTree, rightTree⟩ := holds
      refine ⟨?_, rightIh rightTree, leftIh leftTree⟩
      simp only [AvlMemory.mirror, record, BinaryTree.height, BinaryTree.numNodes,
        BinaryTree.root_mirror, BinaryTree.height_mirror, BinaryTree.numNodes_mirror]
      rw [max_comm, Nat.add_comm left.numNodes]

omit [DecidableEq α] in
/-- The links of an open node, in the mirror. -/
theorem Exposes.mirror {memory : AvlMemory α} {parent : Option α} {left right : BinaryTree α}
    {label : α} (links : Exposes memory parent left label right) :
    Exposes memory.mirror parent right.mirror label left.mirror where
  parentLink := links.parentLink
  leftLink := by rw [BinaryTree.root_mirror, ← links.rightLink]; rfl
  rightLink := by rw [BinaryTree.root_mirror, ← links.leftLink]; rfl
  leftTree := represents_mirror links.rightTree
  rightTree := represents_mirror links.leftTree

/-- `rot_right` performs `BinaryTree.rotateRight` and writes only inside the tree. -/
theorem rotRight_spec {memory : AvlMemory α} {parent : Option α}
    {far inner right : BinaryTree α} {label pivot : α}
    (links : Exposes memory parent (.node pivot far inner) label right)
    (nodup : (BinaryTree.node label (.node pivot far inner) right).toList.Nodup) :
    ∃ memory', rotRight memory label = some (memory', pivot) ∧
      Represents memory' parent (.node pivot far (.node label inner right)) ∧
      ∀ x ∉ (BinaryTree.node label (.node pivot far inner) right).toList,
        memory' x = memory x := by
  have reflectedNodup : (BinaryTree.node label (.node pivot far inner) right).mirror.toList.Nodup :=
    by simpa only [BinaryTree.toList_mirror, List.nodup_reverse] using nodup
  obtain ⟨memory', run, holds, frame⟩ := rotLeft_spec links.mirror reflectedNodup
  refine ⟨memory'.mirror, ?_, ?_, fun x outside => ?_⟩
  · rw [rotRight_eq_mirror, run]
    rfl
  · simpa using represents_mirror holds
  · have same := frame x (by
      rw [← BinaryTree.mirror_node, ← BinaryTree.mirror_node, BinaryTree.toList_mirror,
        List.mem_reverse]
      exact outside)
    rw [AvlMemory.mirror, same]
    rfl

end MiniRedis
