import MiniRedis.Avl.Insert
import MiniRedis.Avl.Delete

/-!
# Every reachable AVL tree

A run inserts initialised nodes which are not in the tree and deletes nodes which
are. Memory outside the tree is free to change between operations, and each
insertion may use its own comparison: nothing here depends on the order.
-/

namespace MiniRedis

open AvlMemory (avlFix leftmost avlSeek)

variable {α : Type} [DecidableEq α]

/-- The node can be reached from the pointer through child links. -/
inductive InTree (memory : AvlMemory α) : Option α → α → Prop where
  | here {node} : InTree memory (some node) node
  | left {node x} (below : InTree memory (memory node).left x) : InTree memory (some node) x
  | right {node x} (below : InTree memory (memory node).right x) : InTree memory (some node) x

/-- Trees produced from the empty one by insertions and deletions. -/
inductive AvlReachable : AvlMemory α → Option α → Prop where
  | empty {memory} : AvlReachable memory none
  | elsewhere {memory memory' root} (prior : AvlReachable memory root)
      (same : ∀ x, InTree memory root x → memory' x = memory x) : AvlReachable memory' root
  | insert {memory root node cmp memory' root'} (prior : AvlReachable memory root)
      (fresh : ¬ InTree memory root node)
      (run : avlInsert (avlInit memory node) root node cmp = some (memory', root')) :
      AvlReachable memory' root'
  | delete {memory root node memory' root'} (prior : AvlReachable memory root)
      (member : InTree memory root node) (run : avlDel memory node = some (memory', root')) :
      AvlReachable memory' root'

/-- The climb of `avl_fix` from `node` compares the heights `l` and `r` at some node. -/
inductive FixMeets : AvlMemory α → α → Nat → Nat → Prop where
  | here {memory : AvlMemory α} {node} :
      FixMeets memory node
        (avlHeight (avlUpdate memory node) (avlUpdate memory node node).left)
        (avlHeight (avlUpdate memory node) (avlUpdate memory node node).right)
  | above {memory memory' : AvlMemory α} {node subtree parent l r}
      (turn : avlFixStep memory node = some (memory', subtree, some parent))
      (later : FixMeets memory' parent l r) : FixMeets memory node l r

/-- The node which `avl_del` unlinks: the given one or its successor. -/
def avlDetached (memory : AvlMemory α) (node : α) : Option α :=
  if (memory node).left = none ∨ (memory node).right = none then some node
  else (memory node).right.bind (leftmost memory)

/-- What the memory of a reachable tree holds. -/
structure AvlInvariant (memory : AvlMemory α) (root : Option α) (tree : BinaryTree α) : Prop where
  represents : Represents memory none tree
  root : tree.root = root
  nodup : tree.toList.Nodup
  balanced : tree.Balanced

omit [DecidableEq α] in
theorem Represents.inTree_iff {memory : AvlMemory α} {parent : Option α} {tree : BinaryTree α}
    (holds : Represents memory parent tree) {x : α} :
    InTree memory tree.root x ↔ x ∈ tree.toList := by
  induction tree generalizing parent with
  | nil =>
      constructor
      · intro path
        cases path
      · simp
  | node label left right leftIh rightIh =>
      have links := holds.exposes
      rw [BinaryTree.toList_node, List.mem_append, List.mem_cons, ← leftIh links.leftTree,
        ← rightIh links.rightTree, ← links.leftLink, ← links.rightLink]
      constructor
      · intro path
        cases path with
        | here => exact .inr (.inl rfl)
        | left below => exact .inl below
        | right below => exact .inr (.inr below)
      · rintro (below | rfl | below)
        · exact .left below
        · exact .here
        · exact .right below

omit [DecidableEq α] in
theorem AvlInvariant.inTree_iff {memory : AvlMemory α} {root : Option α} {tree : BinaryTree α}
    (invariant : AvlInvariant memory root tree) {x : α} : InTree memory root x ↔ x ∈ tree.toList := by
  rw [← invariant.root]
  exact invariant.represents.inTree_iff

/-- The invariant survives initialising a node outside the tree. -/
theorem AvlInvariant.avlInit {memory : AvlMemory α} {root : Option α} {tree : BinaryTree α}
    (invariant : AvlInvariant memory root tree) {node : α} (fresh : node ∉ tree.toList) :
    AvlInvariant (avlInit memory node) root tree where
  represents := invariant.represents.congr fun _ member => avlInit_of_ne fun equal =>
    fresh (equal ▸ member)
  root := invariant.root
  nodup := invariant.nodup
  balanced := invariant.balanced

/-- An insertion at the place where the descent ends. -/
theorem AvlInvariant.insert_at {memory : AvlMemory α} {root : Option α} {tree : BinaryTree α}
    (invariant : AvlInvariant memory root tree) {node : α} (fresh : node ∉ tree.toList)
    {cmp : α → α → Int} {context : TreeContext α}
    (reached : TreeContext.descend (cmp node) [] tree = some context) :
    ∃ memory', avlInsert (MiniRedis.avlInit memory node) root node cmp =
        some (memory', (context.rebuild (.node node .nil .nil)).root) ∧
      AvlInvariant memory' (context.rebuild (.node node .nil .nil)).root
        (context.rebuild (.node node .nil .nil)) := by
  have ready := invariant.avlInit fresh
  have spec := @avlInsert_spec α _ _ _ _ cmp ready.represents ready.nodup fresh
    (by simp [MiniRedis.avlInit]) (by simp [MiniRedis.avlInit])
  simp only [invariant.root, reached] at spec
  obtain ⟨memory', run, holds, -⟩ := spec
  have plugged : context.plug .nil = tree := TreeContext.plug_of_descend reached
  have balanced := ready.balanced
  have nodup := ready.nodup
  rw [← plugged] at balanced nodup fresh
  refine ⟨memory', run, holds, rfl, ?_, balanced_attach node balanced⟩
  rw [TreeContext.toList_rebuild, BinaryTree.toList_node, BinaryTree.toList_nil,
    List.nil_append, List.append_assoc, List.singleton_append]
  rw [TreeContext.mem_plug, not_or, ← List.mem_append] at fresh
  exact List.nodup_middle.mpr (List.nodup_cons.mpr ⟨fresh.1, (TreeContext.nodup_plug nodup).2.1⟩)

/-- An insertion returns and preserves the invariant. -/
theorem AvlInvariant.insert {memory : AvlMemory α} {root : Option α} {tree : BinaryTree α}
    (invariant : AvlInvariant memory root tree) {node : α} (fresh : node ∉ tree.toList)
    (cmp : α → α → Int) :
    ∃ memory' root' tree',
      avlInsert (MiniRedis.avlInit memory node) root node cmp = some (memory', root') ∧
      AvlInvariant memory' root' tree' := by
  cases reached : TreeContext.descend (cmp node) [] tree with
  | none =>
      have ready := invariant.avlInit fresh
      have spec := @avlInsert_spec α _ _ _ _ cmp ready.represents ready.nodup fresh
        (by simp [MiniRedis.avlInit]) (by simp [MiniRedis.avlInit])
      simp only [invariant.root, reached] at spec
      exact ⟨_, _, tree, spec, ready⟩
  | some context =>
      obtain ⟨memory', run, invariant'⟩ := invariant.insert_at fresh reached
      exact ⟨memory', _, _, run, invariant'⟩

/-- A deletion returns and preserves the invariant. -/
theorem AvlInvariant.delete {memory : AvlMemory α} {root : Option α} {tree : BinaryTree α}
    (invariant : AvlInvariant memory root tree) {node : α} (member : node ∈ tree.toList) :
    ∃ memory' root' tree', avlDel memory node = some (memory', root') ∧
      AvlInvariant memory' root' tree' := by
  obtain ⟨memory', tree', run, holds, labels, keeps, -⟩ :=
    avlDel_spec invariant.represents invariant.nodup member
  refine ⟨memory', tree'.root, tree', run, holds, rfl, ?_, keeps invariant.balanced⟩
  rw [labels]
  exact invariant.nodup.erase node

/-- Every reachable tree satisfies the invariant. -/
theorem AvlReachable.invariant {memory : AvlMemory α} {root : Option α}
    (reachable : AvlReachable memory root) : ∃ tree, AvlInvariant memory root tree := by
  induction reachable with
  | empty => exact ⟨.nil, trivial, rfl, List.nodup_nil, trivial⟩
  | elsewhere _ same ih =>
      obtain ⟨tree, invariant⟩ := ih
      exact ⟨tree, invariant.represents.congr fun x member => same x (invariant.inTree_iff.mpr member),
        invariant.root, invariant.nodup, invariant.balanced⟩
  | insert _ fresh run ih =>
      obtain ⟨tree, invariant⟩ := ih
      rw [invariant.inTree_iff] at fresh
      obtain ⟨_, _, tree', run', invariant'⟩ := invariant.insert fresh _
      rw [run, Option.some.injEq, Prod.mk.injEq] at run'
      obtain ⟨rfl, rfl⟩ := run'
      exact ⟨tree', invariant'⟩
  | delete _ member run ih =>
      obtain ⟨tree, invariant⟩ := ih
      rw [invariant.inTree_iff] at member
      obtain ⟨_, _, tree', run', invariant'⟩ := invariant.delete member
      rw [run, Option.some.injEq, Prod.mk.injEq] at run'
      obtain ⟨rfl, rfl⟩ := run'
      exact ⟨tree', invariant'⟩

/-! ## What the climb meets -/

/-- If the first turn meets an imbalance of at most two, in a context which was
balanced around a tree of nearly the same height, so do all later turns. -/
theorem FixMeets.bound {memory : AvlMemory α} {context : TreeContext α}
    {left right old : BinaryTree α} {label : α} {l r : Nat}
    (links : Exposes memory context.parent left label right)
    (around : Surrounds memory (some label) context)
    (nodup : (context.plug (.node label left right)).toList.Nodup)
    (balanced : (context.plug old).Balanced) (leftBalanced : left.Balanced)
    (rightBalanced : right.Balanced)
    (bound : left.height ≤ right.height + 2 ∧ right.height ≤ left.height + 2)
    (near : TreeContext.Near (BinaryTree.node label left right).rebalance.height old.height)
    (meets : FixMeets memory label l r) : l ≤ r + 2 ∧ r ≤ l + 2 := by
  induction context generalizing memory left right old label with
  | nil =>
      obtain ⟨stepped, top, run, -⟩ := avlFixStep_spec links around nodup
      cases meets with
      | here =>
          obtain ⟨leftHeight, rightHeight⟩ := links.refreshedHeights nodup
          rwa [leftHeight, rightHeight]
      | above turn later =>
          rw [run] at turn
          simp at turn
  | cons frame outer ih =>
      obtain ⟨stepped, top, run, root, holds, stepAround, -⟩ := avlFixStep_spec links around nodup
      cases meets with
      | here =>
          obtain ⟨leftHeight, rightHeight⟩ := links.refreshedHeights nodup
          rwa [leftHeight, rightHeight]
      | above turn later =>
          rw [run] at turn
          simp only [TreeContext.parent_cons, Option.some.injEq, Prod.mk.injEq] at turn
          obtain ⟨rfl, rfl, rfl⟩ := turn
          rw [← root] at stepAround
          obtain ⟨above, below, plugged, parentLinks, outerAround⟩ := stepAround.exposes holds
          have fixed := @TreeContext.balanced_rebalance α label _ _ leftBalanced rightBalanced
            bound.1 bound.2
          have here : (frame.plug old).Balanced := TreeContext.balanced_of_plug balanced
          obtain ⟨aboveBalanced, belowBalanced, aboveBound, belowBound⟩ :=
            TreeContext.children_of_frame here fixed near plugged
          have close := (TreeContext.near_rebalance here fixed near).2
          rw [plugged] at close
          refine ih parentLinks outerAround ?_ balanced aboveBalanced belowBalanced
            ⟨aboveBound, belowBound⟩ close later
          have sameLabels : (TreeContext.plug outer (.node frame.label above below)).toList =
              (TreeContext.plug (frame :: outer) (.node label left right)).toList := by
            rw [← plugged]
            cases frame <;> simp [TreeContext.toList_plug, TreeFrame.plug]
          rwa [sameLabels]

/-- The climb after attaching a new node meets no imbalance above two. -/
theorem AvlInvariant.insert_meets {memory : AvlMemory α} {root : Option α} {tree : BinaryTree α}
    (invariant : AvlInvariant memory root tree) {node : α} (fresh : node ∉ tree.toList)
    {cmp : α → α → Int} {parent : Option α} {link : Link α}
    (seek : avlSeek (MiniRedis.avlInit memory node) root cmp node none .root =
      some (.vacant parent link)) {l r : Nat}
    (meets : FixMeets (avlAttach (MiniRedis.avlInit memory node) node parent link) node l r) :
    l ≤ r + 2 ∧ r ≤ l + 2 := by
  have ready := invariant.avlInit fresh
  have found : avlSeek (MiniRedis.avlInit memory node) root cmp node none .root = _ :=
    @avlSeek_eq_descend α _ _ _ _ [] tree ready.represents ready.root.symm
  rw [seek] at found
  cases reached : TreeContext.descend (cmp node) [] tree with
  | none => simp [reached] at found
  | some context =>
      simp only [reached, Option.some.injEq, Place.vacant.injEq] at found
      obtain ⟨rfl, rfl⟩ := found
      have plugged : context.plug .nil = tree := TreeContext.plug_of_descend reached
      have holds := ready.represents
      have nodup := ready.nodup
      have balanced := ready.balanced
      rw [← plugged] at holds nodup balanced fresh
      obtain ⟨links, around, attachedNodup, -⟩ := avlAttach_spec holds nodup fresh
        (by simp [MiniRedis.avlInit]) (by simp [MiniRedis.avlInit])
      exact FixMeets.bound links around attachedNodup balanced trivial trivial (by simp)
        (by simp [TreeContext.Near, BinaryTree.rebalance]) meets

omit [DecidableEq α] in
/-- The unlinked node is in the tree and has an empty child. -/
theorem avlDetached_spec {memory : AvlMemory α} {tree : BinaryTree α} {node : α}
    (holds : Represents memory none tree) (member : node ∈ tree.toList) :
    ∃ detached path left right, avlDetached memory node = some detached ∧
      tree = TreeContext.plug path (.node detached left right) ∧ (left = .nil ∨ right = .nil) := by
  obtain ⟨context, left, right, rfl⟩ := TreeContext.exists_plug member
  have links := Represents.exposes (represents_plug holds).2
  by_cases empty : left = .nil ∨ right = .nil
  · refine ⟨node, context, left, right, ?_, rfl, empty⟩
    rw [avlDetached, if_pos]
    rw [links.leftLink, links.rightLink]
    rcases empty with rfl | rfl <;> simp
  · rw [not_or] at empty
    obtain ⟨leftTop, _, _, leftNode⟩ := BinaryTree.exists_node empty.1
    obtain ⟨rightTop, _, _, rightNode⟩ := BinaryTree.exists_node empty.2
    obtain ⟨inner, successor, rest, rightEq, first⟩ := TreeContext.exists_leftmost empty.2
    refine ⟨successor, inner ++ .right left node :: context, .nil, rest, ?_, ?_, .inl rfl⟩
    · rw [avlDetached, if_neg (by rw [links.leftLink, links.rightLink, leftNode, rightNode]; simp),
        links.rightLink, rightNode]
      have found := links.rightTree
      rw [rightNode] at found
      simp only [BinaryTree.root_node, Option.bind_some]
      rw [leftmost_spec found, ← rightNode, rightEq, TreeContext.toList_plug, first]
      rfl
    · rw [TreeContext.plug_append, ← rightEq]
      rfl

/-- The climb after unlinking a node meets no imbalance above two. -/
theorem AvlInvariant.delete_meets {memory : AvlMemory α} {root : Option α} {tree : BinaryTree α}
    (invariant : AvlInvariant memory root tree) {node detached parent : α}
    (member : node ∈ tree.toList) (detaches : avlDetached memory node = some detached)
    (above : (memory detached).parent = some parent) {l r : Nat}
    (meets : FixMeets (avlUnlink memory detached).1 parent l r) : l ≤ r + 2 ∧ r ≤ l + 2 := by
  obtain ⟨unlinkedNode, path, left, right, found, rfl, empty⟩ :=
    avlDetached_spec invariant.represents member
  rw [detaches, Option.some.injEq] at found
  subst found
  have holds := invariant.represents
  have links := Represents.exposes (represents_plug holds).2
  obtain ⟨unlinked, run, childTree, around, -⟩ := avlUnlink_spec holds invariant.nodup empty
  rw [run] at meets
  cases path with
  | nil =>
      rw [links.parentLink] at above
      simp at above
  | cons frame outer =>
      have parentEq : frame.label = parent := by
        rw [links.parentLink] at above
        simpa using above
      subst parentEq
      obtain ⟨first, second, plugged, parentLinks, outerAround⟩ := around.exposes childTree
      have balanced : (TreeContext.plug outer (frame.plug (.node detached left right))).Balanced :=
        invariant.balanced
      have here := TreeContext.balanced_of_plug balanced
      have removed : (BinaryTree.node detached left right).Balanced :=
        TreeContext.balanced_of_plug invariant.balanced
      have childBalanced : (BinaryTree.node detached left right).onlyChild.Balanced := by
        rcases empty with rfl | rfl <;> simp at removed ⊢ <;> exact removed.2
      have near : TreeContext.Near (BinaryTree.node detached left right).onlyChild.height
          (BinaryTree.node detached left right).height := by
        rcases empty with rfl | rfl <;> simp [TreeContext.Near] at removed ⊢ <;> omega
      obtain ⟨firstBalanced, secondBalanced, bound⟩ :=
        TreeContext.children_of_frame here childBalanced near plugged
      have close := (TreeContext.near_rebalance here childBalanced near).2
      rw [plugged] at close
      refine FixMeets.bound parentLinks outerAround ?_ balanced firstBalanced secondBalanced bound
        close meets
      rw [← plugged]
      exact avlUnlink_nodup invariant.nodup empty

/-- In every reachable tree the links agree in both directions below a root without
parent, cached heights and counts are exact and children differ in height by at
most one; below `2 ^ 32` nodes every cached value fits into its `uint32_t`. Both operations
return, so no assertion fails, and their climbs never compare heights which differ by
more than two. -/
theorem avl_reachable {memory : AvlMemory α} {root : Option α}
    (reachable : AvlReachable memory root) :
    (∃ tree, Represents memory none tree ∧ tree.root = root ∧ tree.toList.Nodup ∧
      tree.Balanced) ∧
    (avlCnt memory root < 2 ^ 32 → ∀ node, InTree memory root node →
      (memory node).cnt < 2 ^ 32 ∧ (memory node).height < 2 ^ 32) ∧
    (∀ node cmp, ¬ InTree memory root node →
      (avlInsert (avlInit memory node) root node cmp).isSome ∧
      ∀ parent link,
        avlSeek (avlInit memory node) root cmp node none .root = some (.vacant parent link) →
        ∀ l r, FixMeets (avlAttach (avlInit memory node) node parent link) node l r →
          l ≤ r + 2 ∧ r ≤ l + 2) ∧
    ∀ node, InTree memory root node →
      (avlDel memory node).isSome ∧
      ∀ detached parent, avlDetached memory node = some detached →
        (memory detached).parent = some parent →
        ∀ l r, FixMeets (avlUnlink memory detached).1 parent l r → l ≤ r + 2 ∧ r ≤ l + 2 := by
  obtain ⟨tree, invariant⟩ := reachable.invariant
  refine ⟨⟨tree, invariant.represents, invariant.root, invariant.nodup, invariant.balanced⟩,
    fun few node member => ?_, fun node cmp fresh => ?_, fun node member => ?_⟩
  · rw [← invariant.root, invariant.represents.avlCnt] at few
    have within := invariant.represents.cached_le (invariant.inTree_iff.mp member)
    exact ⟨within.1.trans_lt few, within.2.trans_lt few⟩
  · rw [invariant.inTree_iff] at fresh
    obtain ⟨_, _, _, run, -⟩ := invariant.insert fresh cmp
    exact ⟨by simp [run], fun _ _ seek _ _ meets => invariant.insert_meets fresh seek meets⟩
  · rw [invariant.inTree_iff] at member
    obtain ⟨_, _, _, run, -⟩ := invariant.delete member
    exact ⟨by simp [run], fun _ _ detaches above _ _ meets =>
      invariant.delete_meets member detaches above meets⟩

/-- The nodes 0, 1 and 2 have been inserted in this order, and a rotation has put 1 on top. -/
theorem AvlReachable.ascending : ∃ memory : AvlMemory Nat, AvlReachable memory (some 1) ∧
    AvlInvariant memory (some 1) (.node 1 (.node 0 .nil .nil) (.node 2 .nil .nil)) := by
  have empty : AvlInvariant (fun _ : Nat => ({} : AvlNode Nat)) none .nil :=
    ⟨trivial, rfl, List.nodup_nil, trivial⟩
  obtain ⟨first, run, one⟩ := @AvlInvariant.insert_at _ _ _ _ _ empty 0 (by simp)
    (fun x y => (x : Int) - y) [] rfl
  have reachable := AvlReachable.empty.insert (mt empty.inTree_iff.mp (by simp)) run
  obtain ⟨second, run, two⟩ := @AvlInvariant.insert_at _ _ _ _ _ one 1 (by decide)
    (fun x y => (x : Int) - y) [.right .nil 0] rfl
  have reachable := reachable.insert (mt one.inTree_iff.mp (by decide)) run
  obtain ⟨third, run, three⟩ := @AvlInvariant.insert_at _ _ _ _ _ two 2 (by decide)
    (fun x y => (x : Int) - y) [.right .nil 1, .right .nil 0] rfl
  exact ⟨third, reachable.insert (mt two.inTree_iff.mp (by decide)) run, three⟩

/-- A node with two children, on top by a rotation, is deleted. -/
theorem avl_reachable_rotated : ∃ (memory memory' : AvlMemory Nat) (root' : Option Nat),
    (memory 1).left = some 0 ∧ (memory 1).right = some 2 ∧
    avlDel memory 1 = some (memory', root') ∧
    ∃ tree, Represents memory' none tree ∧ tree.root = root' ∧ tree.toList.Nodup ∧
      tree.Balanced := by
  obtain ⟨memory, reachable, invariant⟩ := AvlReachable.ascending
  have links := invariant.represents.exposes
  obtain ⟨-, -, -, deletes⟩ := avl_reachable reachable
  have member : InTree memory (some 1) 1 := .here
  obtain ⟨⟨memory', root'⟩, run⟩ := Option.isSome_iff_exists.mp (deletes 1 member).1
  exact ⟨memory, memory', root', links.leftLink, links.rightLink, run,
    (avl_reachable (reachable.delete member run)).1⟩

end MiniRedis
