import MiniRedis.Avl.Model
import MiniRedis.Library.TreeContext

/-!
# Trees and contexts laid out in node memory

`Represents` says that a tree of addresses is the content of the node memory:
links agree in both directions and the cached height and size are exact.
`Surrounds` says the same of a context, except that the cached values of its own
frames may be stale, as they are while `avl_fix` climbs.
-/

namespace MiniRedis

variable {α : Type}

/-- The memory holds `tree` below `parent`. -/
def Represents (memory : AvlMemory α) (parent : Option α) : BinaryTree α → Prop
  | .nil => True
  | .node label left right =>
      memory label =
          { parent := parent
            left := left.root
            right := right.root
            height := (BinaryTree.node label left right).height
            cnt := (BinaryTree.node label left right).numNodes } ∧
        Represents memory (some label) left ∧ Represents memory (some label) right

/-- The memory holds both subtrees of `label`, whose own cached height and size
may be stale. -/
structure Exposes (memory : AvlMemory α) (parent : Option α) (left : BinaryTree α) (label : α)
    (right : BinaryTree α) : Prop where
  parentLink : (memory label).parent = parent
  leftLink : (memory label).left = left.root
  rightLink : (memory label).right = right.root
  leftTree : Represents memory (some label) left
  rightTree : Represents memory (some label) right

/-- The memory holds the frames around a hole which contains the pointer `hole`. -/
def Surrounds (memory : AvlMemory α) (hole : Option α) : TreeContext α → Prop
  | [] => True
  | .left label sibling :: outer =>
      (memory label).parent = TreeContext.parent outer ∧ (memory label).left = hole ∧
        (memory label).right = sibling.root ∧ Represents memory (some label) sibling ∧
        Surrounds memory (some label) outer
  | .right sibling label :: outer =>
      (memory label).parent = TreeContext.parent outer ∧ (memory label).left = sibling.root ∧
        (memory label).right = hole ∧ Represents memory (some label) sibling ∧
        Surrounds memory (some label) outer

@[simp] theorem represents_nil (memory : AvlMemory α) (parent : Option α) :
    Represents memory parent .nil := trivial

/-- The links at the root of a tree in memory. -/
theorem Represents.exposes {memory : AvlMemory α} {parent : Option α} {left right : BinaryTree α}
    {label : α} (holds : Represents memory parent (.node label left right)) :
    Exposes memory parent left label right := by
  obtain ⟨record, leftTree, rightTree⟩ := holds
  exact ⟨by rw [record], by rw [record], by rw [record], leftTree, rightTree⟩

/-- A represented tree depends only on the memory at its labels. -/
theorem Represents.congr {memory memory' : AvlMemory α} {parent : Option α} {tree : BinaryTree α}
    (same : ∀ x ∈ tree.toList, memory' x = memory x) (holds : Represents memory parent tree) :
    Represents memory' parent tree := by
  induction tree generalizing parent with
  | nil => trivial
  | node label left right leftIh rightIh =>
      obtain ⟨record, leftTree, rightTree⟩ := holds
      refine ⟨?_, leftIh (fun x member => same x ?_) leftTree,
        rightIh (fun x member => same x ?_) rightTree⟩
      · rw [same label (by simp), record]
      · simp [member]
      · simp [member]

/-- A context depends only on the memory at its labels. -/
theorem Surrounds.congr {memory memory' : AvlMemory α} {hole : Option α} {context : TreeContext α}
    (same : ∀ x, x ∈ context.before ∨ x ∈ context.after → memory' x = memory x)
    (holds : Surrounds memory hole context) : Surrounds memory' hole context := by
  induction context generalizing hole with
  | nil => trivial
  | cons frame outer ih =>
      cases frame with
      | left label sibling =>
          obtain ⟨parentLink, leftLink, rightLink, siblingTree, outerHolds⟩ := holds
          have here : memory' label = memory label := same label (by simp)
          refine ⟨by rw [here, parentLink], by rw [here, leftLink], by rw [here, rightLink],
            siblingTree.congr fun x member => same x (by simp [member]),
            ih (fun x member => same x ?_) outerHolds⟩
          rcases member with inBefore | inAfter <;> simp [*]
      | right sibling label =>
          obtain ⟨parentLink, leftLink, rightLink, siblingTree, outerHolds⟩ := holds
          have here : memory' label = memory label := same label (by simp)
          refine ⟨by rw [here, parentLink], by rw [here, leftLink], by rw [here, rightLink],
            siblingTree.congr fun x member => same x (by simp [member]),
            ih (fun x member => same x ?_) outerHolds⟩
          rcases member with inBefore | inAfter <;> simp [*]

/-- The cached height of a represented tree is its height. -/
theorem Represents.avlHeight {memory : AvlMemory α} {parent : Option α} {tree : BinaryTree α}
    (holds : Represents memory parent tree) : avlHeight memory tree.root = tree.height := by
  cases tree with
  | nil => rfl
  | node label left right => simp [MiniRedis.avlHeight, holds.1]

/-- The cached count of a represented tree is its size. -/
theorem Represents.avlCnt {memory : AvlMemory α} {parent : Option α} {tree : BinaryTree α}
    (holds : Represents memory parent tree) : avlCnt memory tree.root = tree.numNodes := by
  cases tree with
  | nil => rfl
  | node label left right => simp [MiniRedis.avlCnt, holds.1]

/-- No cached value of a node exceeds the number of nodes. -/
theorem Represents.cached_le {memory : AvlMemory α} {parent : Option α} {tree : BinaryTree α}
    (holds : Represents memory parent tree) {x : α} (member : x ∈ tree.toList) :
    (memory x).cnt ≤ tree.numNodes ∧ (memory x).height ≤ tree.numNodes := by
  induction tree generalizing parent with
  | nil => simp at member
  | node label left right leftIh rightIh =>
      obtain ⟨record, leftTree, rightTree⟩ := holds
      have total : (BinaryTree.node label left right).numNodes =
          left.numNodes + right.numNodes + 1 := rfl
      rw [BinaryTree.toList_node, List.mem_append, List.mem_cons] at member
      rcases member with inLeft | rfl | inRight
      · have within := leftIh leftTree inLeft
        omega
      · rw [record]
        exact ⟨le_rfl, BinaryTree.height_le_numNodes _⟩
      · have within := rightIh rightTree inRight
        omega

/-- A tree in memory can be taken out of its context. -/
theorem represents_plug {memory : AvlMemory α} {context : TreeContext α} {tree : BinaryTree α}
    (holds : Represents memory none (context.plug tree)) :
    Surrounds memory tree.root context ∧ Represents memory context.parent tree := by
  induction context generalizing tree with
  | nil => exact ⟨trivial, holds⟩
  | cons frame outer ih =>
      obtain ⟨outerHolds, here⟩ := ih holds
      cases frame with
      | left label sibling =>
          have links := Represents.exposes here
          exact ⟨⟨links.parentLink, links.leftLink, links.rightLink, links.rightTree, outerHolds⟩,
            links.leftTree⟩
      | right sibling label =>
          have links := Represents.exposes here
          exact ⟨⟨links.parentLink, links.leftLink, links.rightLink, links.leftTree, outerHolds⟩,
            links.rightTree⟩

/-- The cached heights and counts of the frames are exact when the hole holds a
tree of the given height and count. -/
def Cached (memory : AvlMemory α) (height cnt : Nat) : TreeContext α → Prop
  | [] => True
  | .left label sibling :: outer =>
      (memory label).height = max height sibling.height + 1 ∧
        (memory label).cnt = cnt + sibling.numNodes + 1 ∧
        Cached memory (max height sibling.height + 1) (cnt + sibling.numNodes + 1) outer
  | .right sibling label :: outer =>
      (memory label).height = max sibling.height height + 1 ∧
        (memory label).cnt = sibling.numNodes + cnt + 1 ∧
        Cached memory (max sibling.height height + 1) (sibling.numNodes + cnt + 1) outer

/-- The frames of a represented tree are cached exactly. -/
theorem cached_of_represents {memory : AvlMemory α} {context : TreeContext α}
    {tree : BinaryTree α} (holds : Represents memory none (context.plug tree)) :
    Cached memory tree.height tree.numNodes context := by
  induction context generalizing tree with
  | nil => trivial
  | cons frame outer ih =>
      have here : Represents memory (TreeContext.parent outer) (frame.plug tree) :=
        (@represents_plug α memory outer _ holds).2
      cases frame with
      | left label sibling => exact ⟨by rw [here.1]; rfl, by rw [here.1]; rfl, ih holds⟩
      | right sibling label => exact ⟨by rw [here.1]; rfl, by rw [here.1]; rfl, ih holds⟩

/-- A represented tree in an exact context is a represented tree. -/
theorem represents_of_surrounds {memory : AvlMemory α} {context : TreeContext α}
    {tree : BinaryTree α} (around : Surrounds memory tree.root context)
    (cached : Cached memory tree.height tree.numNodes context)
    (holds : Represents memory context.parent tree) :
    Represents memory none (context.plug tree) := by
  induction context generalizing tree with
  | nil => exact holds
  | cons frame outer ih =>
      cases frame with
      | left label sibling =>
          obtain ⟨parentLink, leftLink, rightLink, siblingTree, outerAround⟩ := around
          refine ih outerAround cached.2.2 ⟨?_, holds, siblingTree⟩
          rw [← parentLink, ← leftLink, ← rightLink]
          exact AvlNode.ext rfl rfl rfl cached.1 cached.2.1
      | right sibling label =>
          obtain ⟨parentLink, leftLink, rightLink, siblingTree, outerAround⟩ := around
          refine ih outerAround cached.2.2 ⟨?_, siblingTree, holds⟩
          rw [← parentLink, ← leftLink, ← rightLink]
          exact AvlNode.ext rfl rfl rfl cached.1 cached.2.1

/-- The cached fields of a context depend on its own nodes. -/
theorem Cached.congr {memory memory' : AvlMemory α} {context : TreeContext α} {height cnt : Nat}
    (same : ∀ x, x ∈ context.before ∨ x ∈ context.after →
      (memory' x).height = (memory x).height ∧ (memory' x).cnt = (memory x).cnt)
    (cached : Cached memory height cnt context) : Cached memory' height cnt context := by
  induction context generalizing height cnt with
  | nil => trivial
  | cons frame outer ih =>
      cases frame with
      | left label sibling =>
          obtain ⟨sameHeight, sameCnt⟩ := same label (by simp)
          refine ⟨sameHeight.trans cached.1, sameCnt.trans cached.2.1,
            ih (fun x member => same x ?_) cached.2.2⟩
          rcases member with inBefore | inAfter <;> simp [*]
      | right sibling label =>
          obtain ⟨sameHeight, sameCnt⟩ := same label (by simp)
          refine ⟨sameHeight.trans cached.1, sameCnt.trans cached.2.1,
            ih (fun x member => same x ?_) cached.2.2⟩
          rcases member with inBefore | inAfter <;> simp [*]

/-! ## Effects of single writes -/

variable [DecidableEq α]

namespace AvlMemory

variable (memory : AvlMemory α) {node x : α} (value : Option α)

@[simp] theorem setParent_self :
    memory.setParent node value node = { memory node with parent := value } := by
  simp [setParent]

@[simp] theorem setParent_of_ne (distinct : x ≠ node) :
    memory.setParent node value x = memory x := by
  simp [setParent, distinct]

@[simp] theorem setLeft_self :
    memory.setLeft node value node = { memory node with left := value } := by
  simp [setLeft]

@[simp] theorem setLeft_of_ne (distinct : x ≠ node) :
    memory.setLeft node value x = memory x := by
  simp [setLeft, distinct]

@[simp] theorem setRight_self :
    memory.setRight node value node = { memory node with right := value } := by
  simp [setRight]

@[simp] theorem setRight_of_ne (distinct : x ≠ node) :
    memory.setRight node value x = memory x := by
  simp [setRight, distinct]

end AvlMemory

/-- Storing a parent link touches the root of the child alone. -/
theorem adopt_root {memory : AvlMemory α} {tree : BinaryTree α} {parent : Option α} {x : α}
    (outside : x ∉ tree.toList) : memory.adopt tree.root parent x = memory x := by
  cases tree with
  | nil => rfl
  | node label left right =>
      have distinct : x ≠ label := by
        rintro rfl
        simp at outside
      simp [AvlMemory.adopt, distinct]

/-- A represented tree can be moved below another parent by one write. -/
theorem Represents.adopt {memory : AvlMemory α} {parent : Option α} {tree : BinaryTree α}
    (holds : Represents memory parent tree) (nodup : tree.toList.Nodup) (newParent : Option α) :
    Represents (memory.adopt tree.root newParent) newParent tree := by
  cases tree with
  | nil => trivial
  | node label left right =>
      obtain ⟨record, leftTree, rightTree⟩ := holds
      simp only [BinaryTree.toList_node, List.nodup_append, List.nodup_cons] at nodup
      refine ⟨by simp [AvlMemory.adopt, record], leftTree.congr ?_,
        rightTree.congr ?_⟩
      · intro x member
        have distinct : x ≠ label := nodup.2.2 x member label (by simp)
        simp [AvlMemory.adopt, distinct]
      · intro x member
        have distinct : x ≠ label := by
          rintro rfl
          exact nodup.2.1.1 member
        simp [AvlMemory.adopt, distinct]

/-- An update touches its node alone. -/
theorem avlUpdate_of_ne {memory : AvlMemory α} {node x : α} (distinct : x ≠ node) :
    avlUpdate memory node x = memory x := by
  simp [avlUpdate, distinct]

/-- Refreshing the cached values completes an exposed node. -/
theorem Exposes.avlUpdate {memory : AvlMemory α} {parent : Option α} {left right : BinaryTree α}
    {label : α} (links : Exposes memory parent left label right) (notLeft : label ∉ left.toList)
    (notRight : label ∉ right.toList) :
    Represents (avlUpdate memory label) parent (.node label left right) := by
  refine ⟨?_, links.leftTree.congr ?_, links.rightTree.congr ?_⟩
  · simp [MiniRedis.avlUpdate, links.parentLink, links.leftLink, links.rightLink,
      links.leftTree.avlHeight, links.rightTree.avlHeight, links.leftTree.avlCnt,
      links.rightTree.avlCnt]
    omega
  · intro x member
    exact avlUpdate_of_ne fun equal => notLeft (equal ▸ member)
  · intro x member
    exact avlUpdate_of_ne fun equal => notRight (equal ▸ member)

end MiniRedis
