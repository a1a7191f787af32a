import MiniRedis.Library.BinaryTree

/-!
# One-hole contexts of binary trees

A context lists the frames between a hole and the root, innermost first.
`plug` restores the tree around the hole and `rebuild` restores it while
repairing the height balance at every level.
-/

universe u

variable {α : Type u}

/-- One step of a path to the root: the hole is a left or a right child. -/
inductive TreeFrame (α : Type u) where
  | left (label : α) (sibling : BinaryTree α)
  | right (sibling : BinaryTree α) (label : α)
  deriving DecidableEq, Repr

namespace TreeFrame

/-- The node of the step, with a tree in the hole. -/
def plug : TreeFrame α → BinaryTree α → BinaryTree α
  | left label sibling, tree => .node label tree sibling
  | right sibling label, tree => .node label sibling tree

def label : TreeFrame α → α
  | left label _ => label
  | right _ label => label

end TreeFrame

/-- The frames from a hole to the root, innermost first. -/
abbrev TreeContext (α : Type u) := List (TreeFrame α)

namespace TreeContext

/-- The whole tree, with a tree in the hole. -/
def plug : TreeContext α → BinaryTree α → BinaryTree α
  | [], tree => tree
  | frame :: outer, tree => plug outer (frame.plug tree)

/-- Restore the tree around the hole, repairing every node on the way up. -/
def rebuild : TreeContext α → BinaryTree α → BinaryTree α
  | [], tree => tree
  | frame :: outer, tree => rebuild outer (frame.plug tree).rebalance

/-- The label directly above the hole. -/
def parent : TreeContext α → Option α
  | [] => none
  | frame :: _ => some frame.label

/-- Labels in front of the hole in symmetric order. -/
def before : TreeContext α → List α
  | [] => []
  | .left _ _ :: outer => before outer
  | .right sibling label :: outer => before outer ++ (sibling.toList ++ [label])

/-- Labels behind the hole in symmetric order. -/
def after : TreeContext α → List α
  | [] => []
  | .left label sibling :: outer => label :: sibling.toList ++ after outer
  | .right _ _ :: outer => after outer

@[simp] theorem plug_nil (tree : BinaryTree α) : plug [] tree = tree := rfl

@[simp] theorem plug_left (label : α) (sibling tree : BinaryTree α) (outer : TreeContext α) :
    plug (.left label sibling :: outer) tree = plug outer (.node label tree sibling) := rfl

@[simp] theorem plug_right (label : α) (sibling tree : BinaryTree α) (outer : TreeContext α) :
    plug (.right sibling label :: outer) tree = plug outer (.node label sibling tree) := rfl

@[simp] theorem rebuild_nil (tree : BinaryTree α) : rebuild [] tree = tree := rfl

@[simp] theorem rebuild_cons (frame : TreeFrame α) (outer : TreeContext α) (tree : BinaryTree α) :
    rebuild (frame :: outer) tree = rebuild outer (frame.plug tree).rebalance := rfl

@[simp] theorem parent_nil : parent ([] : TreeContext α) = none := rfl

@[simp] theorem parent_cons (frame : TreeFrame α) (outer : TreeContext α) :
    parent (frame :: outer) = some frame.label := rfl

@[simp] theorem before_nil : before ([] : TreeContext α) = [] := rfl

@[simp] theorem before_left (label : α) (sibling : BinaryTree α) (outer : TreeContext α) :
    before (.left label sibling :: outer) = before outer := rfl

@[simp] theorem before_right (label : α) (sibling : BinaryTree α) (outer : TreeContext α) :
    before (.right sibling label :: outer) = before outer ++ (sibling.toList ++ [label]) := rfl

@[simp] theorem after_nil : after ([] : TreeContext α) = [] := rfl

@[simp] theorem after_left (label : α) (sibling : BinaryTree α) (outer : TreeContext α) :
    after (.left label sibling :: outer) = label :: sibling.toList ++ after outer := rfl

@[simp] theorem after_right (label : α) (sibling : BinaryTree α) (outer : TreeContext α) :
    after (.right sibling label :: outer) = after outer := rfl

/-- Contexts are nested one in the other. -/
theorem plug_append (inner outer : TreeContext α) (tree : BinaryTree α) :
    plug (inner ++ outer) tree = plug outer (plug inner tree) := by
  induction inner generalizing tree with
  | nil => rfl
  | cons frame inner ih => exact ih (frame.plug tree)

/-- In order, a tree is between what its context has before it and behind it. -/
theorem toList_plug (context : TreeContext α) (tree : BinaryTree α) :
    (context.plug tree).toList = context.before ++ tree.toList ++ context.after := by
  induction context generalizing tree with
  | nil => simp
  | cons frame outer ih => cases frame <;> simp [ih]

/-- The label in focus comes behind what is to the left of it. -/
theorem getElem?_plug (context : TreeContext α) (left right : BinaryTree α) (label : α) :
    (context.plug (.node label left right)).toList[context.before.length + left.numNodes]? =
      some label := by
  have front : (context.plug (.node label left right)).toList =
      (context.before ++ left.toList) ++ label :: (right.toList ++ context.after) := by
    simp [toList_plug]
  have position : context.before.length + left.numNodes = (context.before ++ left.toList).length := by
    rw [List.length_append, BinaryTree.length_toList]
  rw [front, position, List.getElem?_append_right le_rfl]
  simp

/-- Repairing on the way up keeps the symmetric order. -/
theorem toList_rebuild (context : TreeContext α) (tree : BinaryTree α) :
    (context.rebuild tree).toList = context.before ++ tree.toList ++ context.after := by
  induction context generalizing tree with
  | nil => simp
  | cons frame outer ih => cases frame <;> simp [ih, TreeFrame.plug]

/-- The nodes before a tree, outermost first. -/
theorem before_append (inner outer : TreeContext α) :
    before (inner ++ outer) = before outer ++ before inner := by
  induction inner with
  | nil => simp
  | cons frame inner ih => cases frame <;> simp [ih]

/-- The nodes behind it, innermost first. -/
theorem after_append (inner outer : TreeContext α) :
    after (inner ++ outer) = after inner ++ after outer := by
  induction inner with
  | nil => simp
  | cons frame inner ih => cases frame <;> simp [ih]

/-- Below at least one frame, the root does not depend on the tree in the hole. -/
theorem root_plug_cons (frame : TreeFrame α) (outer : TreeContext α) (first second : BinaryTree α) :
    (plug (frame :: outer) first).root = (plug (frame :: outer) second).root := by
  induction outer generalizing frame first second with
  | nil => cases frame <;> rfl
  | cons next outer ih => exact ih next (frame.plug first) (frame.plug second)

/-- Distinct labels of a plugged tree: distinct in both parts, and apart. -/
theorem nodup_plug {context : TreeContext α} {tree : BinaryTree α}
    (nodup : (context.plug tree).toList.Nodup) :
    tree.toList.Nodup ∧ (context.before ++ context.after).Nodup ∧
      ∀ x, x ∈ context.before ∨ x ∈ context.after → x ∉ tree.toList := by
  rw [toList_plug, List.append_assoc, List.nodup_append, List.nodup_append] at nodup
  obtain ⟨beforeNodup, ⟨treeNodup, afterNodup, afterApart⟩, beforeApart⟩ := nodup
  refine ⟨treeNodup, ?_, ?_⟩
  · rw [List.nodup_append]
    exact ⟨beforeNodup, afterNodup, fun x inBefore y inAfter =>
      beforeApart x inBefore y (List.mem_append_right _ inAfter)⟩
  · rintro x (inBefore | inAfter) inTree
    · exact beforeApart x inBefore x (List.mem_append_left _ inTree) rfl
    · exact afterApart x inTree x inAfter rfl

/-- Renaming one label of a list of distinct labels. -/
theorem map_rename [DecidableEq α] {front back : List α} {label : α}
    (nodup : (front ++ label :: back).Nodup) (other : α) :
    ((front ++ label :: back).map fun x => if x = label then other else x) =
      front ++ other :: back := by
  have fixed : ∀ labels : List α, label ∉ labels →
      (labels.map fun x => if x = label then other else x) = labels := by
    intro labels absent
    conv_rhs => rw [← List.map_id labels]
    apply List.map_congr_left
    intro x member
    apply if_neg
    rintro rfl
    exact absent member
  rw [List.nodup_append, List.nodup_cons] at nodup
  have notFront : label ∉ front := fun member => nodup.2.2 label member label (by simp) rfl
  simp [fixed _ notFront, fixed _ nodup.2.1.1]

/-- Renaming the label at the hole renames it in symmetric order. -/
theorem toList_plug_rename [DecidableEq α] {context : TreeContext α} {left right : BinaryTree α}
    {label : α} (nodup : (context.plug (.node label left right)).toList.Nodup) (other : α) :
    (context.plug (.node other left right)).toList =
      (context.plug (.node label left right)).toList.map fun x => if x = label then other else x := by
  have split : ∀ top : α, (context.plug (.node top left right)).toList =
      (context.before ++ left.toList) ++ top :: (right.toList ++ context.after) := by
    intro top
    simp [toList_plug]
  rw [split] at nodup
  rw [split, split, map_rename nodup]

/-- A node is in the context or in the tree. -/
theorem mem_plug {context : TreeContext α} {tree : BinaryTree α} {x : α} :
    x ∈ (context.plug tree).toList ↔
      (x ∈ context.before ∨ x ∈ context.after) ∨ x ∈ tree.toList := by
  rw [toList_plug, List.mem_append, List.mem_append]
  tauto

/-- The parent is in the context. -/
theorem mem_of_parent {context : TreeContext α} {x : α} (top : context.parent = some x) :
    x ∈ context.before ∨ x ∈ context.after := by
  rcases context with _ | ⟨_ | _, outer⟩ <;> simp_all [TreeFrame.label]

/-- Every label of a tree is the root of a subtree in some context. -/
theorem exists_plug {tree : BinaryTree α} {label : α} (member : label ∈ tree.toList) :
    ∃ context left right, tree = plug context (.node label left right) := by
  induction tree with
  | nil => simp at member
  | node top left right leftIh rightIh =>
      simp only [BinaryTree.toList_node, List.mem_append, List.mem_cons] at member
      rcases member with inLeft | rfl | inRight
      · obtain ⟨context, below, above, equal⟩ := leftIh inLeft
        refine ⟨context ++ [.left top right], below, above, ?_⟩
        rw [plug_append, ← equal]
        rfl
      · exact ⟨[], left, right, rfl⟩
      · obtain ⟨context, below, above, equal⟩ := rightIh inRight
        refine ⟨context ++ [.right left top], below, above, ?_⟩
        rw [plug_append, ← equal]
        rfl

/-- The leftmost label of a nonempty tree has nothing in front of it. -/
theorem exists_leftmost {tree : BinaryTree α} (nonempty : tree ≠ .nil) :
    ∃ context label right, tree = plug context (.node label .nil right) ∧ before context = [] := by
  induction tree with
  | nil => exact absurd rfl nonempty
  | node top left right leftIh _ =>
      cases left with
      | nil => exact ⟨[], top, right, rfl, rfl⟩
      | node middle below above =>
          obtain ⟨context, label, rest, equal, first⟩ := leftIh (by simp)
          refine ⟨context ++ [.left top right], label, rest, ?_, ?_⟩
          · rw [plug_append, ← equal]
            rfl
          · simp [before_append, first]

/-! ## Height balance -/

/-- Two heights which differ by at most one. -/
def Near (first second : Nat) : Prop := first ≤ second + 1 ∧ second ≤ first + 1

/-- A tree is no higher than what it is part of. -/
theorem height_le_plug (context : TreeContext α) (tree : BinaryTree α) :
    tree.height ≤ (plug context tree).height := by
  induction context generalizing tree with
  | nil => exact le_rfl
  | cons frame outer ih =>
      refine le_trans ?_ (ih (frame.plug tree))
      cases frame with
      | left label sibling => exact (BinaryTree.height_lt_node label tree sibling).1.le
      | right sibling label => exact (BinaryTree.height_lt_node label sibling tree).2.le

/-- Parts of a balanced tree are balanced. -/
theorem balanced_of_plug {context : TreeContext α} {tree : BinaryTree α}
    (balanced : (context.plug tree).Balanced) : tree.Balanced := by
  induction context generalizing tree with
  | nil => exact balanced
  | cons frame outer ih =>
      have here := ih balanced
      cases frame with
      | left label sibling => exact here.2.2.1
      | right sibling label => exact here.2.2.2

/-- Replacing the left subtree by a tree of nearly the same height leaves at most
an imbalance of two, which repair removes without moving the height far. -/
theorem near_rebalance_left {label : α} {old new right : BinaryTree α}
    (balanced : (BinaryTree.node label old right).Balanced) (newBalanced : new.Balanced)
    (near : Near new.height old.height) :
    (BinaryTree.node label new right).rebalance.Balanced ∧
      Near (BinaryTree.node label new right).rebalance.height
        (BinaryTree.node label old right).height := by
  unfold Near at *
  simp only [BinaryTree.balanced_node, BinaryTree.height] at balanced ⊢
  obtain ⟨leftBound, rightBound, _, rightBalanced⟩ := balanced
  by_cases tallLeft : new.height = right.height + 2
  · obtain ⟨fixed, lower, upper⟩ :=
      BinaryTree.rebalance_tall_left label newBalanced rightBalanced tallLeft
    exact ⟨fixed, by omega, by omega⟩
  · by_cases tallRight : right.height = new.height + 2
    · obtain ⟨fixed, lower, upper⟩ :=
        BinaryTree.rebalance_tall_right label newBalanced rightBalanced tallRight
      exact ⟨fixed, by omega, by omega⟩
    · rw [BinaryTree.rebalance_even label (by omega) (by omega)]
      simp only [BinaryTree.balanced_node, BinaryTree.height]
      refine ⟨⟨?_, ?_, newBalanced, rightBalanced⟩, ?_, ?_⟩ <;> omega

/-- `near_rebalance_left` for either side, the right-hand side by reflection. -/
theorem near_rebalance {frame : TreeFrame α} {old new : BinaryTree α}
    (balanced : (frame.plug old).Balanced) (newBalanced : new.Balanced)
    (near : Near new.height old.height) :
    (frame.plug new).rebalance.Balanced ∧
      Near (frame.plug new).rebalance.height (frame.plug old).height := by
  cases frame with
  | left label sibling => exact near_rebalance_left balanced newBalanced near
  | right sibling label =>
      have reflected := @near_rebalance_left α label old.mirror new.mirror sibling.mirror
        ((@BinaryTree.balanced_mirror α (.node label sibling old)).mpr balanced)
        (BinaryTree.balanced_mirror.mpr newBalanced) (by simpa using near)
      rw [← BinaryTree.mirror_node, ← BinaryTree.mirror_node, ← BinaryTree.mirror_rebalance]
        at reflected
      simpa only [TreeFrame.plug, BinaryTree.balanced_mirror, BinaryTree.height_mirror] using reflected

/-- Subtrees whose heights differ by at most two can be repaired. -/
theorem balanced_rebalance {label : α} {left right : BinaryTree α} (leftBalanced : left.Balanced)
    (rightBalanced : right.Balanced) (leftBound : left.height ≤ right.height + 2)
    (rightBound : right.height ≤ left.height + 2) :
    (BinaryTree.node label left right).rebalance.Balanced := by
  by_cases tallLeft : left.height = right.height + 2
  · exact (BinaryTree.rebalance_tall_left label leftBalanced rightBalanced tallLeft).1
  · by_cases tallRight : right.height = left.height + 2
    · exact (BinaryTree.rebalance_tall_right label leftBalanced rightBalanced tallRight).1
    · rw [BinaryTree.rebalance_even label (by omega) (by omega)]
      exact ⟨by omega, by omega, leftBalanced, rightBalanced⟩

/-- The children met one level up after a subtree changed its height by at most one. -/
theorem children_of_frame {frame : TreeFrame α} {old new left right : BinaryTree α}
    (balanced : (frame.plug old).Balanced) (newBalanced : new.Balanced)
    (near : Near new.height old.height) (plugged : frame.plug new = .node frame.label left right) :
    left.Balanced ∧ right.Balanced ∧ left.height ≤ right.height + 2 ∧
      right.height ≤ left.height + 2 := by
  unfold Near at near
  cases frame with
  | left label sibling =>
      simp only [TreeFrame.plug, BinaryTree.node.injEq] at plugged
      obtain ⟨-, rfl, rfl⟩ := plugged
      simp only [TreeFrame.plug, BinaryTree.balanced_node] at balanced
      exact ⟨newBalanced, balanced.2.2.2, by omega, by omega⟩
  | right sibling label =>
      simp only [TreeFrame.plug, BinaryTree.node.injEq] at plugged
      obtain ⟨-, rfl, rfl⟩ := plugged
      simp only [TreeFrame.plug, BinaryTree.balanced_node] at balanced
      exact ⟨balanced.2.2.1, newBalanced, by omega, by omega⟩

/-- Balance of the whole sees only the height and the balance of a part. -/
theorem balanced_plug_congr {context : TreeContext α} {old new : BinaryTree α}
    (sameHeight : new.height = old.height) (keeps : old.Balanced → new.Balanced)
    (balanced : (context.plug old).Balanced) : (context.plug new).Balanced := by
  induction context generalizing old new with
  | nil => exact keeps balanced
  | cons frame outer ih =>
      refine ih ?_ ?_ balanced
      · cases frame <;> simp [TreeFrame.plug, sameHeight]
      · cases frame <;> simp only [TreeFrame.plug, BinaryTree.balanced_node, sameHeight] <;> tauto

/-- Rebuilding a balanced tree around a subtree whose height moved by at most
one gives a balanced tree. -/
theorem balanced_rebuild {context : TreeContext α} {old new : BinaryTree α}
    (balanced : (context.plug old).Balanced) (newBalanced : new.Balanced)
    (near : Near new.height old.height) : (context.rebuild new).Balanced := by
  induction context generalizing old new with
  | nil => exact newBalanced
  | cons frame outer ih =>
      have here : (frame.plug old).Balanced := balanced_of_plug balanced
      obtain ⟨fixed, close⟩ := near_rebalance here newBalanced near
      exact ih balanced fixed close

/-! ## Descent to an insertion point -/

/-- The comparisons of an insertion: the context of the empty place reached, or
`none` when a label compares equal. -/
def descend (cmp : α → Int) : TreeContext α → BinaryTree α → Option (TreeContext α)
  | context, .nil => some context
  | context, .node label left right =>
      if cmp label = 0 then none
      else if cmp label < 0 then descend cmp (.left label right :: context) left
      else descend cmp (.right left label :: context) right

/-- A descent ends at an empty place of the same tree. -/
theorem plug_of_descend {cmp : α → Int} {context found : TreeContext α} {tree : BinaryTree α}
    (reached : descend cmp context tree = some found) : found.plug .nil = context.plug tree := by
  induction tree generalizing context with
  | nil =>
      simp only [descend, Option.some.injEq] at reached
      rw [reached]
  | node label left right leftIh rightIh =>
      simp only [descend] at reached
      split at reached
      · simp at reached
      · split at reached
        · exact leftIh reached
        · exact rightIh reached

/-- It is blocked only by a node which compares equal. -/
theorem exists_equal_of_descend {cmp : α → Int} {context : TreeContext α} {tree : BinaryTree α}
    (blocked : descend cmp context tree = none) : ∃ x ∈ tree.toList, cmp x = 0 := by
  induction tree generalizing context with
  | nil => simp [descend] at blocked
  | node label left right leftIh rightIh =>
      simp only [descend] at blocked
      split at blocked
      next equal => exact ⟨label, by simp, equal⟩
      · split at blocked
        · obtain ⟨x, member, equal⟩ := leftIh blocked
          exact ⟨x, by simp [member], equal⟩
        · obtain ⟨x, member, equal⟩ := rightIh blocked
          exact ⟨x, by simp [member], equal⟩

/-- In a tree sorted by a key, the descent for a key value splits the labels into
the smaller and the larger ones. -/
theorem split_of_descend {κ : Type*} [LinearOrder κ] {key : α → κ} {value : κ} {cmp : α → Int}
    (less : ∀ x, cmp x < 0 ↔ value < key x) (equal : ∀ x, cmp x = 0 ↔ value = key x)
    {context found : TreeContext α} {tree : BinaryTree α}
    (sorted : tree.toList.Pairwise fun x y => key x < key y)
    (reached : descend cmp context tree = some found) :
    ∃ low high, tree.toList = low ++ high ∧ found.before = context.before ++ low ∧
      found.after = high ++ context.after ∧ (∀ x ∈ low, key x < value) ∧
      ∀ x ∈ high, value < key x := by
  induction tree generalizing context with
  | nil =>
      simp only [descend, Option.some.injEq] at reached
      subst reached
      exact ⟨[], [], by simp⟩
  | node label left right leftIh rightIh =>
      simp only [BinaryTree.toList_node, List.pairwise_append, List.pairwise_cons] at sorted
      obtain ⟨leftSorted, ⟨labelRight, rightSorted⟩, leftLabel⟩ := sorted
      simp only [descend] at reached
      split at reached
      · simp at reached
      next different =>
        split at reached
        next below =>
          obtain ⟨low, high, labels, before, after, lows, highs⟩ := leftIh leftSorted reached
          have first : value < key label := (less label).mp below
          refine ⟨low, high ++ label :: right.toList, by simp [labels], by simpa using before,
            by simpa using after, lows, fun x member => ?_⟩
          rcases List.mem_append.mp member with inHigh | inRest
          · exact highs x inHigh
          · rcases List.mem_cons.mp inRest with rfl | inRight
            · exact first
            · exact first.trans (labelRight x inRight)
        next notBelow =>
          obtain ⟨low, high, labels, before, after, lows, highs⟩ := rightIh rightSorted reached
          have last : key label < value := by
            rcases lt_trichotomy (key label) value with lower | same | upper
            · exact lower
            · exact absurd ((equal label).mpr same.symm) different
            · exact absurd ((less label).mpr upper) notBelow
          refine ⟨left.toList ++ label :: low, high, by simp [labels], by simp [before],
            by simpa using after, fun x member => ?_, highs⟩
          rcases List.mem_append.mp member with inLeft | inRest
          · exact (leftLabel x inLeft label (by simp)).trans last
          · rcases List.mem_cons.mp inRest with rfl | inLow
            · exact last
            · exact lows x inLow

end TreeContext
