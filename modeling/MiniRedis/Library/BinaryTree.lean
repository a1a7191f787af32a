import Mathlib

/-!
# Rotations and height balance of binary trees

General facts about Mathlib's labelled binary trees: the labels in symmetric
order, single rotations, and the repair of one node whose subtrees differ in
height by two. The right-hand cases are mirror images of the left-hand ones.
-/

namespace BinaryTree

universe u

variable {α : Type u}

/-- Labels in symmetric order. -/
def toList : BinaryTree α → List α
  | nil => []
  | node label left right => left.toList ++ label :: right.toList

/-- The label at the root, if there is one. -/
def root : BinaryTree α → Option α
  | nil => none
  | node label _ _ => some label

@[simp] theorem toList_nil : (nil : BinaryTree α).toList = [] := rfl

@[simp] theorem toList_node (label : α) (left right : BinaryTree α) :
    (node label left right).toList = left.toList ++ label :: right.toList := rfl

@[simp] theorem root_nil : (nil : BinaryTree α).root = none := rfl

@[simp] theorem root_node (label : α) (left right : BinaryTree α) :
    (node label left right).root = some label := rfl

/-- The in-order list has each node once. -/
theorem length_toList (tree : BinaryTree α) : tree.toList.length = tree.numNodes := by
  induction tree with
  | nil => rfl
  | node label left right leftIh rightIh =>
      simp only [toList_node, List.length_append, List.length_cons, leftIh, rightIh, numNodes]
      omega

/-- The root is one of the nodes. -/
theorem mem_of_root {tree : BinaryTree α} {label : α} (top : tree.root = some label) :
    label ∈ tree.toList := by
  cases tree with
  | nil => simp at top
  | node other left right =>
      simp at top
      simp [top]

/-- A nonempty tree displayed as a node. -/
theorem exists_node {tree : BinaryTree α} (nonempty : tree ≠ nil) :
    ∃ label left right, tree = node label left right := by
  cases tree with
  | nil => exact absurd rfl nonempty
  | node label left right => exact ⟨label, left, right, rfl⟩

/-- The one subtree of a root with an empty child. -/
def onlyChild : BinaryTree α → BinaryTree α
  | nil => nil
  | node _ nil right => right
  | node _ left _ => left

@[simp] theorem onlyChild_left_nil (label : α) (right : BinaryTree α) :
    (node label nil right).onlyChild = right := rfl

@[simp] theorem onlyChild_right_nil (label : α) (left : BinaryTree α) :
    (node label left nil).onlyChild = left := by
  cases left <;> rfl

/-- A node without one child can be replaced by the other one. -/
theorem toList_onlyChild {label : α} {left right : BinaryTree α} (empty : left = nil ∨ right = nil) :
    (node label left right).onlyChild.toList = left.toList ++ right.toList := by
  rcases empty with rfl | rfl <;> simp

/-! ## Rotations -/

/-- Lift the right child above the root; other trees are unchanged. -/
def rotateLeft : BinaryTree α → BinaryTree α
  | node label outer (node pivot inner far) => node pivot (node label outer inner) far
  | tree => tree

/-- Lift the left child above the root; other trees are unchanged. -/
def rotateRight : BinaryTree α → BinaryTree α
  | node label (node pivot far inner) outer => node pivot far (node label inner outer)
  | tree => tree

@[simp] theorem rotateLeft_node (label pivot : α) (outer inner far : BinaryTree α) :
    rotateLeft (node label outer (node pivot inner far)) =
      node pivot (node label outer inner) far := rfl

@[simp] theorem rotateRight_node (label pivot : α) (outer inner far : BinaryTree α) :
    rotateRight (node label (node pivot far inner) outer) =
      node pivot far (node label inner outer) := rfl

/-- Rotations keep the order. -/
@[simp] theorem toList_rotateLeft (tree : BinaryTree α) :
    (rotateLeft tree).toList = tree.toList := by
  unfold rotateLeft
  split <;> simp

@[simp] theorem toList_rotateRight (tree : BinaryTree α) :
    (rotateRight tree).toList = tree.toList := by
  unfold rotateRight
  split <;> simp

/-! ## Height balance -/

/-- The two subtrees of every node differ in height by at most one. -/
def Balanced : BinaryTree α → Prop
  | nil => True
  | node _ left right =>
      left.height ≤ right.height + 1 ∧ right.height ≤ left.height + 1 ∧
        left.Balanced ∧ right.Balanced

@[simp] theorem balanced_nil : (nil : BinaryTree α).Balanced := trivial

@[simp] theorem balanced_node (label : α) (left right : BinaryTree α) :
    (node label left right).Balanced ↔
      left.height ≤ right.height + 1 ∧ right.height ≤ left.height + 1 ∧
        left.Balanced ∧ right.Balanced := Iff.rfl

/-- Rotate a left child whose inner subtree is the taller one. -/
def leanLeft (tree : BinaryTree α) : BinaryTree α :=
  if tree.left.height < tree.right.height then rotateLeft tree else tree

/-- Rotate a right child whose inner subtree is the taller one. -/
def leanRight (tree : BinaryTree α) : BinaryTree α :=
  if tree.right.height < tree.left.height then rotateRight tree else tree

/-- Repair one node whose subtrees differ in height by exactly two. -/
def rebalance : BinaryTree α → BinaryTree α
  | nil => nil
  | node label left right =>
      if left.height = right.height + 2 then rotateRight (node label left.leanLeft right)
      else if right.height = left.height + 2 then rotateLeft (node label left right.leanRight)
      else node label left right

theorem leanLeft_node (label : α) (left right : BinaryTree α) :
    leanLeft (node label left right) =
      if left.height < right.height then rotateLeft (node label left right)
      else node label left right := rfl

theorem leanRight_node (label : α) (left right : BinaryTree α) :
    leanRight (node label left right) =
      if right.height < left.height then rotateRight (node label left right)
      else node label left right := rfl

theorem rebalance_node (label : α) (left right : BinaryTree α) :
    rebalance (node label left right) =
      if left.height = right.height + 2 then rotateRight (node label left.leanLeft right)
      else if right.height = left.height + 2 then rotateLeft (node label left right.leanRight)
      else node label left right := rfl

@[simp] theorem toList_leanLeft (tree : BinaryTree α) : tree.leanLeft.toList = tree.toList := by
  unfold leanLeft
  split <;> simp

@[simp] theorem toList_leanRight (tree : BinaryTree α) : tree.leanRight.toList = tree.toList := by
  unfold leanRight
  split <;> simp

/-- So does rebalancing. -/
@[simp] theorem toList_rebalance (tree : BinaryTree α) : tree.rebalance.toList = tree.toList := by
  cases tree with
  | nil => rfl
  | node label left right =>
      rw [rebalance_node]
      split
      · simp
      · split <;> simp

/-! ## Mirror images -/

/-- Exchange left and right everywhere. -/
def mirror : BinaryTree α → BinaryTree α
  | nil => nil
  | node label left right => node label right.mirror left.mirror

@[simp] theorem mirror_nil : (nil : BinaryTree α).mirror = nil := rfl

@[simp] theorem mirror_node (label : α) (left right : BinaryTree α) :
    (node label left right).mirror = node label right.mirror left.mirror := rfl

@[simp] theorem mirror_mirror (tree : BinaryTree α) : tree.mirror.mirror = tree := by
  induction tree with
  | nil => rfl
  | node label left right leftIh rightIh => simp [leftIh, rightIh]

@[simp] theorem root_mirror (tree : BinaryTree α) : tree.mirror.root = tree.root := by
  cases tree <;> rfl

/-- A mirrored tree has the reverse order. -/
@[simp] theorem toList_mirror (tree : BinaryTree α) :
    tree.mirror.toList = tree.toList.reverse := by
  induction tree with
  | nil => rfl
  | node label left right leftIh rightIh => simp [leftIh, rightIh]

@[simp] theorem numNodes_mirror (tree : BinaryTree α) :
    tree.mirror.numNodes = tree.numNodes := by
  simp [← length_toList]

@[simp] theorem height_mirror (tree : BinaryTree α) : tree.mirror.height = tree.height := by
  induction tree with
  | nil => rfl
  | node label left right leftIh rightIh => simp [leftIh, rightIh, max_comm]

/-- Heights have no side, so balance has none. -/
@[simp] theorem balanced_mirror {tree : BinaryTree α} : tree.mirror.Balanced ↔ tree.Balanced := by
  induction tree with
  | nil => rfl
  | node label left right leftIh rightIh =>
      simp only [mirror_node, balanced_node, height_mirror, leftIh, rightIh]
      tauto

/-- A rotation to one side is a rotation to the other one in the mirror. -/
theorem mirror_rotateLeft (tree : BinaryTree α) :
    (rotateLeft tree).mirror = rotateRight tree.mirror := by
  rcases tree with _ | ⟨label, left, _ | ⟨pivot, inner, far⟩⟩ <;>
    simp [rotateLeft, rotateRight]

theorem mirror_rotateRight (tree : BinaryTree α) :
    (rotateRight tree).mirror = rotateLeft tree.mirror := by
  rcases tree with _ | ⟨label, _ | ⟨pivot, far, inner⟩, right⟩ <;>
    simp [rotateLeft, rotateRight]

/-- The same for the rotation of a child. -/
theorem mirror_leanLeft (tree : BinaryTree α) : tree.leanLeft.mirror = tree.mirror.leanRight := by
  cases tree with
  | nil => rfl
  | node label left right =>
      rw [leanLeft_node, mirror_node, leanRight_node, height_mirror, height_mirror]
      split
      · rw [mirror_rotateLeft, mirror_node]
      · rfl

theorem mirror_leanRight (tree : BinaryTree α) :
    tree.leanRight.mirror = tree.mirror.leanLeft := by
  cases tree with
  | nil => rfl
  | node label left right =>
      rw [leanRight_node, mirror_node, leanLeft_node, height_mirror, height_mirror]
      split
      · rw [mirror_rotateRight, mirror_node]
      · rfl

/-- Repair commutes with reflection. -/
theorem mirror_rebalance (tree : BinaryTree α) :
    tree.rebalance.mirror = tree.mirror.rebalance := by
  cases tree with
  | nil => rfl
  | node label left right =>
      simp only [mirror_node, rebalance_node, height_mirror]
      by_cases tallLeft : left.height = right.height + 2
      · have notRight : ¬ right.height = left.height + 2 := by omega
        rw [if_pos tallLeft, if_neg notRight, if_pos tallLeft, mirror_rotateRight, mirror_node,
          mirror_leanLeft]
      · rw [if_neg tallLeft, if_neg tallLeft]
        split
        · rw [mirror_rotateLeft, mirror_node, mirror_leanRight]
        · rfl

/-! ## Repair -/

/-- A repaired tall-left node is balanced and no taller than before. -/
theorem rebalance_tall_left {left right : BinaryTree α} (label : α)
    (leftBalanced : left.Balanced) (rightBalanced : right.Balanced)
    (tall : left.height = right.height + 2) :
    (rebalance (node label left right)).Balanced ∧
      left.height ≤ (rebalance (node label left right)).height ∧
      (rebalance (node label left right)).height ≤ left.height + 1 := by
  have nonempty : left ≠ nil := by
    rintro rfl
    simp at tall
  obtain ⟨pivot, far, inner, rfl⟩ := exists_node nonempty
  simp only [height] at tall
  simp only [balanced_node] at leftBalanced
  rw [rebalance_node, if_pos (by simpa using tall), leanLeft_node]
  split
  next taller =>
    -- the inner subtree is the taller one: a double rotation
    have inhabited : inner ≠ nil := by
      rintro rfl
      simp at taller
    obtain ⟨middle, innerLeft, innerRight, rfl⟩ := exists_node inhabited
    simp only [height, balanced_node] at *
    simp only [rotateLeft_node, rotateRight_node, balanced_node, height]
    obtain ⟨_, _, farBalanced, _, _, innerLeftBalanced, innerRightBalanced⟩ := leftBalanced
    refine ⟨⟨?_, ?_, ⟨?_, ?_, farBalanced, innerLeftBalanced⟩, ?_, ?_, innerRightBalanced,
      rightBalanced⟩, ?_, ?_⟩ <;> omega
  next shorter =>
    simp only [rotateRight_node, balanced_node, height]
    obtain ⟨_, _, farBalanced, innerBalanced⟩ := leftBalanced
    refine ⟨⟨?_, ?_, farBalanced, ?_, ?_, innerBalanced, rightBalanced⟩, ?_, ?_⟩ <;> omega

/-- A repaired tall-right node is balanced and no taller than before: the
mirror image of `rebalance_tall_left`. -/
theorem rebalance_tall_right {left right : BinaryTree α} (label : α)
    (leftBalanced : left.Balanced) (rightBalanced : right.Balanced)
    (tall : right.height = left.height + 2) :
    (rebalance (node label left right)).Balanced ∧
      right.height ≤ (rebalance (node label left right)).height ∧
      (rebalance (node label left right)).height ≤ right.height + 1 := by
  have reflected := @rebalance_tall_left α right.mirror left.mirror label
    (balanced_mirror.mpr rightBalanced) (balanced_mirror.mpr leftBalanced) (by simpa using tall)
  rw [← mirror_node, ← mirror_rebalance] at reflected
  simpa using reflected

/-- Repair is the identity on a node which is already in balance. -/
theorem rebalance_even {left right : BinaryTree α} (label : α)
    (notLeft : left.height ≤ right.height + 1) (notRight : right.height ≤ left.height + 1) :
    rebalance (node label left right) = node label left right := by
  rw [rebalance_node, if_neg (by omega), if_neg (by omega)]

/-! ## Height and size -/

/-- A balanced tree has at least as many nodes as a tree of Fibonacci shape. -/
theorem Balanced.fib_le {tree : BinaryTree α} (balanced : tree.Balanced) :
    Nat.fib (tree.height + 2) ≤ tree.numNodes + 1 := by
  induction tree with
  | nil => rfl
  | node label left right leftIh rightIh =>
      obtain ⟨notLeft, notRight, leftBalanced, rightBalanced⟩ := balanced
      have leftSize := leftIh leftBalanced
      have rightSize := rightIh rightBalanced
      have step : Nat.fib (max left.height right.height + 1 + 2) =
          Nat.fib (max left.height right.height + 1) + Nat.fib (max left.height right.height + 2) :=
        Nat.fib_add_two
      rw [height, numNodes, step]
      rcases le_total left.height right.height with taller | taller
      · have shorter := Nat.fib_mono (show right.height + 1 ≤ left.height + 2 by omega)
        rw [max_eq_right taller]
        omega
      · have shorter := Nat.fib_mono (show left.height + 1 ≤ right.height + 2 by omega)
        rw [max_eq_left taller]
        omega

/-- Children are lower. -/
theorem height_lt_node (label : α) (left right : BinaryTree α) :
    left.height < (node label left right).height ∧ right.height < (node label left right).height := by
  rw [height]
  omega

end BinaryTree
