import MiniRedis.Avl.Reachable

/-!
# The height of a reachable AVL tree

The loops of `avl.cpp` follow links down from the root or up to it. In every reachable tree
these ways are logarithmic in the number of nodes.
-/

namespace MiniRedis

variable {α : Type}

/-- `n` child links lead from one node down to another. -/
inductive Descent (memory : AvlMemory α) : α → Nat → α → Prop where
  | here (node : α) : Descent memory node 0 node
  | left {node child x : α} {n : Nat} (link : (memory node).left = some child)
      (below : Descent memory child n x) :
      Descent memory node (n + 1) x
  | right {node child x : α} {n : Nat} (link : (memory node).right = some child)
      (below : Descent memory child n x) : Descent memory node (n + 1) x

/-- `n` parent links lead from one node up to another. -/
inductive Climb (memory : AvlMemory α) : α → Nat → α → Prop where
  | here (node : α) : Climb memory node 0 node
  | up {node parent x : α} {n : Nat} (link : (memory node).parent = some parent)
      (above : Climb memory parent n x) :
      Climb memory node (n + 1) x

variable {memory : AvlMemory α} {parent : Option α} {tree : BinaryTree α}

theorem Descent.bound {node x : α} {n : Nat} (descent : Descent memory node n x)
    (holds : Represents memory parent tree) (top : tree.root = some node) :
    n + avlHeight memory (some x) ≤ tree.height := by
  induction descent generalizing parent tree with
  | here node =>
      have cached := holds.avlHeight
      rw [top] at cached
      rw [cached, Nat.zero_add]
  | @left node child x n link below ih =>
      cases tree with
      | nil => cases top
      | node label left right =>
          obtain rfl : label = node := by simpa using top
          obtain ⟨-, leftLink, -, leftTree, -⟩ := holds.exposes
          have within := ih leftTree (leftLink.symm.trans link)
          have lower := (BinaryTree.height_lt_node label left right).1
          omega
  | @right node child x n link below ih =>
      cases tree with
      | nil => cases top
      | node label left right =>
          obtain rfl : label = node := by simpa using top
          obtain ⟨-, -, rightLink, -, rightTree⟩ := holds.exposes
          have within := ih rightTree (rightLink.symm.trans link)
          have lower := (BinaryTree.height_lt_node label left right).2
          omega

theorem Climb.bound {node x : α} {n : Nat} (climb : Climb memory node n x) {context : TreeContext α}
    {left right : BinaryTree α} (holds : Represents memory none (context.plug (.node node left right))) :
    n + (BinaryTree.node node left right).height ≤
      (context.plug (.node node left right)).height := by
  induction climb generalizing context left right with
  | here node =>
      rw [Nat.zero_add]
      exact context.height_le_plug _
  | @up node parent x n link above ih =>
      have up := (represents_plug holds).2.exposes.parentLink
      cases context with
      | nil => cases link.symm.trans up
      | cons frame outer =>
          cases frame with
          | left label sibling =>
              obtain rfl : parent = label := by simpa [TreeFrame.label] using link.symm.trans up
              have within := ih holds
              have lower := (BinaryTree.height_lt_node parent (.node node left right) sibling).1
              rw [TreeContext.plug_left]
              omega
          | right sibling label =>
              obtain rfl : parent = label := by simpa [TreeFrame.label] using link.symm.trans up
              have within := ih holds
              have lower := (BinaryTree.height_lt_node parent sibling (.node node left right)).2
              rw [TreeContext.plug_right]
              omega

/-- In every reachable tree the height, the number of child links from the root to any node and the
number of parent links from any node are bounded by the number of nodes as in a tree of Fibonacci
shape. Below `2 ^ 32` nodes the height is at most 45. -/
theorem avl_height_reachable [DecidableEq α] {root : Option α}
    (reachable : AvlReachable memory root) :
    Nat.fib (avlHeight memory root + 2) ≤ avlCnt memory root + 1 ∧
    (avlCnt memory root < 2 ^ 32 → avlHeight memory root ≤ 45) ∧
    (∀ top, root = some top → ∀ n x, Descent memory top n x →
      n + avlHeight memory (some x) ≤ avlHeight memory root) ∧
    ∀ node, InTree memory root node → ∀ n x, Climb memory node n x →
      n + avlHeight memory (some node) ≤ avlHeight memory root := by
  obtain ⟨tree, represents, rfl, nodup, balanced⟩ := reachable.invariant
  have size := balanced.fib_le
  rw [represents.avlHeight, represents.avlCnt]
  refine ⟨size, fun small => ?_, fun top same n x descent => descent.bound represents same, ?_⟩
  · by_contra tall
    have many : Nat.fib 48 ≤ Nat.fib (tree.height + 2) := Nat.fib_mono (by omega)
    norm_num at many small
    omega
  · intro node member n x climb
    obtain ⟨context, left, right, rfl⟩ := TreeContext.exists_plug (represents.inTree_iff.mp member)
    have cached := (represents_plug represents).2.avlHeight
    rw [BinaryTree.root_node] at cached
    rw [cached]
    exact climb.bound represents

/-- In a tree of three nodes, which a rotation has balanced, one link leads down and one up. -/
theorem avl_height_reachable_rotated : ∃ memory : AvlMemory Nat, AvlReachable memory (some 1) ∧
    Descent memory 1 1 2 ∧ Climb memory 0 1 1 ∧
    (∀ n x, Descent memory 1 n x → n + avlHeight memory (some x) ≤ 2) ∧
    ∀ n x, Climb memory 0 n x → n + avlHeight memory (some 0) ≤ 2 := by
  obtain ⟨memory, reachable, invariant⟩ := AvlReachable.ascending
  have links := invariant.represents.exposes
  have height : avlHeight memory (some 1) = 2 := invariant.represents.avlHeight
  obtain ⟨-, -, down, up⟩ := avl_height_reachable reachable
  rw [height] at down up
  exact ⟨memory, reachable, .right links.rightLink (.here 2),
    .up links.leftTree.exposes.parentLink (.here 1), down 1 rfl,
    up 0 (invariant.inTree_iff.mpr (by decide))⟩

end MiniRedis
