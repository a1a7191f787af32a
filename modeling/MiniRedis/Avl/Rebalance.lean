import MiniRedis.Avl.Rotation

/-!
# `avl_fix` rebuilds the context

The climb of `avl_fix` from a node performs `TreeContext.rebuild` on the frames
above it. The assertions of the fix routines follow from the cached heights of
the two children being exact; no balance is assumed.
-/

namespace MiniRedis

open AvlMemory (avlFix)

variable {α : Type} [DecidableEq α]

/-- The conditional rotation performs `BinaryTree.leanLeft` on the left child. -/
theorem avlLeanLeft_spec {memory : AvlMemory α} {parent : Option α}
    {far inner right : BinaryTree α} {label pivot : α}
    (links : Exposes memory parent (.node pivot far inner) label right)
    (nodup : (BinaryTree.node label (.node pivot far inner) right).toList.Nodup) :
    ∃ memory', avlLeanLeft memory label pivot = some memory' ∧
      Exposes memory' parent (BinaryTree.node pivot far inner).leanLeft label right ∧
      ∀ x ∉ (BinaryTree.node label (.node pivot far inner) right).toList,
        memory' x = memory x := by
  have pivotLinks := links.leftTree.exposes
  rw [avlLeanLeft, pivotLinks.leftLink, pivotLinks.rightLink, pivotLinks.leftTree.avlHeight,
    pivotLinks.rightTree.avlHeight, BinaryTree.leanLeft_node]
  by_cases taller : far.height < inner.height
  · rw [if_pos taller, if_pos taller]
    have inhabited : inner ≠ .nil := by
      rintro rfl
      simp at taller
    obtain ⟨middle, innerLeft, innerRight, rfl⟩ := BinaryTree.exists_node inhabited
    rw [BinaryTree.toList_node, List.nodup_append, List.nodup_cons] at nodup
    obtain ⟨leftNodup, ⟨notRight, -⟩, apart⟩ := nodup
    have notLeft : label ∉ (BinaryTree.node pivot far (.node middle innerLeft innerRight)).toList :=
      fun member => apart label member label (by simp) rfl
    obtain ⟨rotated, run, rotatedTree, frame⟩ := rotLeft_spec pivotLinks leftNodup
    have same : rotated label = memory label := frame label notLeft
    refine ⟨rotated.setLeft label (some middle), by simp [run], ⟨by simp [same, links.parentLink],
      by simp, by simp [same, links.rightLink], rotatedTree.congr fun x member => ?_,
      links.rightTree.congr fun x member => ?_⟩, fun x outside => ?_⟩
    · apply AvlMemory.setLeft_of_ne
      intro equal
      apply notLeft
      subst equal
      simpa [or_assoc] using member
    · have notLabel : x ≠ label := fun equal => notRight (equal ▸ member)
      rw [AvlMemory.setLeft_of_ne _ _ notLabel]
      exact frame x fun inLeft => apart x inLeft x (by simp [member]) rfl
    · rw [BinaryTree.toList_node, List.mem_append, List.mem_cons, not_or, not_or] at outside
      rw [AvlMemory.setLeft_of_ne _ _ outside.2.1, frame x outside.1]
  · rw [if_neg taller, if_neg taller]
    exact ⟨memory, rfl, links, fun _ _ => rfl⟩

/-- `avl_fix_left` on a represented node whose left subtree is taller by two. -/
theorem avlFixLeft_spec {memory : AvlMemory α} {parent : Option α} {left right : BinaryTree α}
    {label : α} (holds : Represents memory parent (.node label left right))
    (nodup : (BinaryTree.node label left right).toList.Nodup)
    (tall : left.height = right.height + 2) :
    ∃ memory' top, avlFixLeft memory label = some (memory', top) ∧
      (BinaryTree.node label left right).rebalance.root = some top ∧
      Represents memory' parent (BinaryTree.node label left right).rebalance ∧
      ∀ x ∉ (BinaryTree.node label left right).toList, memory' x = memory x := by
  have links := holds.exposes
  have asserted : avlHeight memory left.root - avlHeight memory right.root = 2 := by
    rw [links.leftTree.avlHeight, links.rightTree.avlHeight]
    omega
  have nonempty : left ≠ .nil := by
    rintro rfl
    simp at tall
  obtain ⟨pivot, far, inner, rfl⟩ := BinaryTree.exists_node nonempty
  obtain ⟨leaning, leanRun, outer, leanFrame⟩ := avlLeanLeft_spec links nodup
  have leanNonempty : (BinaryTree.node pivot far inner).leanLeft ≠ .nil := by
    intro empty
    have labels := BinaryTree.toList_leanLeft (.node pivot far inner)
    simp [empty] at labels
  obtain ⟨top, topLeft, topRight, leanEq⟩ := BinaryTree.exists_node leanNonempty
  have sameLabels : (BinaryTree.node label (.node top topLeft topRight) right).toList =
      (BinaryTree.node label (.node pivot far inner) right).toList := by
    rw [← leanEq, BinaryTree.toList_node, BinaryTree.toList_leanLeft, ← BinaryTree.toList_node]
  rw [BinaryTree.rebalance_node, if_pos tall, leanEq]
  rw [leanEq] at outer
  obtain ⟨memory', run, fixed, frame⟩ := rotRight_spec outer (by rwa [sameLabels])
  refine ⟨memory', top, ?_, rfl, fixed, fun x outside => ?_⟩
  · unfold avlFixLeft
    rw [links.leftLink, links.rightLink, asserted]
    simp [guard, leanRun, run]
  · rw [frame x (by rwa [sameLabels]), leanFrame x outside]

/-! ## The right-hand side by reflection -/

omit [DecidableEq α] in
theorem avlHeight_mirror (memory : AvlMemory α) (child : Option α) :
    avlHeight memory.mirror child = avlHeight memory child := by
  cases child <;> rfl

theorem avlLeanRight_eq_mirror (memory : AvlMemory α) (node right : α) :
    avlLeanRight memory node right =
      (avlLeanLeft memory.mirror node right).map AvlMemory.mirror := by
  have leftLink : (memory.mirror right).left = (memory right).right := rfl
  have rightLink : (memory.mirror right).right = (memory right).left := rfl
  rw [avlLeanRight, avlLeanLeft, rotRight_eq_mirror, avlHeight_mirror, avlHeight_mirror, leftLink,
    rightLink]
  by_cases taller :
      avlHeight memory (memory right).right < avlHeight memory (memory right).left
  · rw [if_pos taller, if_pos taller]
    cases rotLeft memory.mirror right <;> simp
  · rw [if_neg taller, if_neg taller]
    rfl

theorem rotLeft_eq_mirror (memory : AvlMemory α) (node : α) :
    rotLeft memory.mirror node =
      (rotRight memory node).map fun result => (result.1.mirror, result.2) := by
  rw [rotRight_eq_mirror]
  cases rotLeft memory.mirror node <;> rfl

theorem avlFixRight_eq_mirror (memory : AvlMemory α) (node : α) :
    avlFixRight memory node =
      (avlFixLeft memory.mirror node).map fun result => (result.1.mirror, result.2) := by
  have leftLink : (memory.mirror node).left = (memory node).right := rfl
  have rightLink : (memory.mirror node).right = (memory node).left := rfl
  rw [avlFixRight, avlFixLeft, avlHeight_mirror, avlHeight_mirror, leftLink, rightLink]
  by_cases asserted : avlHeight memory (memory node).right -
      avlHeight memory (memory node).left = 2
  · simp only [guard, asserted, if_true]
    cases (memory node).right with
    | none => rfl
    | some right =>
        simp only [avlLeanRight_eq_mirror, Option.pure_def, Option.bind_eq_bind,
          Option.bind_some]
        cases avlLeanLeft memory.mirror node right with
        | none => rfl
        | some leaning => exact rotLeft_eq_mirror leaning node
  · simp [guard, asserted]

/-- `avl_fix_right` on a represented node whose right subtree is taller by two. -/
theorem avlFixRight_spec {memory : AvlMemory α} {parent : Option α}
    {left right : BinaryTree α} {label : α}
    (holds : Represents memory parent (.node label left right))
    (nodup : (BinaryTree.node label left right).toList.Nodup)
    (tall : right.height = left.height + 2) :
    ∃ memory' top, avlFixRight memory label = some (memory', top) ∧
      (BinaryTree.node label left right).rebalance.root = some top ∧
      Represents memory' parent (BinaryTree.node label left right).rebalance ∧
      ∀ x ∉ (BinaryTree.node label left right).toList, memory' x = memory x := by
  have reflectedNodup : (BinaryTree.node label left right).mirror.toList.Nodup := by
    rwa [BinaryTree.toList_mirror, List.nodup_reverse]
  obtain ⟨memory', top, run, root, fixed, frame⟩ :=
    avlFixLeft_spec (represents_mirror holds) reflectedNodup (by simpa using tall)
  rw [← BinaryTree.mirror_node, ← BinaryTree.mirror_rebalance] at root fixed
  refine ⟨memory'.mirror, top, ?_, by simpa using root, by simpa using represents_mirror fixed,
    fun x outside => ?_⟩
  · rw [avlFixRight_eq_mirror, run]
    rfl
  · rw [AvlMemory.mirror, frame x (by
      rw [← BinaryTree.mirror_node, BinaryTree.toList_mirror, List.mem_reverse]
      exact outside)]
    rfl

/-! ## One turn of the climb -/

/-- The parent's field which holds the pointer to the hole. -/
def holeLink : TreeContext α → Link α
  | [] => .root
  | .left label _ :: _ => .left label
  | .right _ label :: _ => .right label

/-- The field test of the source finds the field which holds the pointer. -/
theorem linkTo_eq_holeLink {memory : AvlMemory α} {context : TreeContext α} {label : α}
    (around : Surrounds memory (some label) context)
    (fresh : label ∉ context.before ∧ label ∉ context.after) :
    (context.parent.elim .root fun parent => memory.linkTo parent label) = holeLink context := by
  rcases context with _ | ⟨_ | _, outer⟩
  · rfl
  · simp [AvlMemory.linkTo, TreeFrame.label, around.2.1, holeLink]
  · next sibling parent =>
    have notRoot : sibling.root ≠ some label := by
      intro top
      have member := BinaryTree.mem_of_root top
      simp [member] at fresh
    simp [AvlMemory.linkTo, TreeFrame.label, around.2.1, holeLink, notRoot]

/-- Writing the hole's field changes what the hole contains and nothing else. -/
theorem Surrounds.write {memory : AvlMemory α} {context : TreeContext α} {hole : Option α}
    (around : Surrounds memory hole context)
    (nodup : (context.before ++ context.after).Nodup) (newHole : Option α) :
    Surrounds (memory.write newHole (holeLink context)) newHole context := by
  rcases context with _ | ⟨_ | _, outer⟩
  · trivial
  · next label sibling =>
    obtain ⟨parentLink, leftLink, rightLink, siblingTree, outerHolds⟩ := around
    simp only [TreeContext.before_left, TreeContext.after_left, List.nodup_append,
      List.nodup_cons, List.cons_append, List.mem_cons, List.mem_append, not_or] at nodup
    refine ⟨by simp [AvlMemory.write, holeLink, parentLink], by simp [AvlMemory.write, holeLink],
      by simp [AvlMemory.write, holeLink, rightLink], siblingTree.congr fun x member => ?_,
      outerHolds.congr fun x member => ?_⟩
    · have distinct : x ≠ label := fun equal => nodup.2.1.1.1 (equal ▸ member)
      simp [AvlMemory.write, holeLink, distinct]
    · have distinct : x ≠ label := by
        rintro rfl
        rcases member with inBefore | inAfter
        · exact nodup.2.2 x inBefore x (by simp) rfl
        · exact nodup.2.1.1.2 inAfter
      simp [AvlMemory.write, holeLink, distinct]
  · next sibling label =>
    obtain ⟨parentLink, leftLink, rightLink, siblingTree, outerHolds⟩ := around
    simp only [TreeContext.before_right, TreeContext.after_right, List.nodup_append,
      List.nodup_cons, List.mem_cons, List.mem_append] at nodup
    refine ⟨by simp [AvlMemory.write, holeLink, parentLink],
      by simp [AvlMemory.write, holeLink, leftLink], by simp [AvlMemory.write, holeLink],
      siblingTree.congr fun x member => ?_, outerHolds.congr fun x member => ?_⟩
    · have distinct : x ≠ label := by
        rintro rfl
        exact nodup.1.2.1.2.2 x member x (by simp) rfl
      simp [AvlMemory.write, holeLink, distinct]
    · have distinct : x ≠ label := by
        rintro rfl
        rcases member with inBefore | inAfter
        · exact nodup.1.2.2 x inBefore x (by simp) rfl
        · exact nodup.2.2 x (by simp) x inAfter rfl
      simp [AvlMemory.write, holeLink, distinct]

/-- A write through the hole's field is seen only at the parent. -/
theorem write_holeLink_of_ne {memory : AvlMemory α} {context : TreeContext α} {x : α}
    (outside : context.parent ≠ some x) (value : Option α) :
    memory.write value (holeLink context) x = memory x := by
  rcases context with _ | ⟨_ | _, outer⟩
  · rfl
  · have distinct : x ≠ _ := fun equal => outside (by rw [equal]; rfl)
    exact AvlMemory.setLeft_of_ne _ _ distinct
  · have distinct : x ≠ _ := fun equal => outside (by rw [equal]; rfl)
    exact AvlMemory.setRight_of_ne _ _ distinct

/-- The result of a fix routine, linked into the context through the hole. -/
theorem relink_spec {memory fixed : AvlMemory α} {context : TreeContext α}
    {tree repaired : BinaryTree α} {label : α} (value : Option α)
    (around : Surrounds memory (some label) context) (nodup : (context.plug tree).toList.Nodup)
    (sameLabels : repaired.toList = tree.toList)
    (holds : Represents fixed context.parent repaired)
    (frame : ∀ x ∉ tree.toList, fixed x = memory x) :
    Represents (fixed.write value (holeLink context)) context.parent repaired ∧
      Surrounds (fixed.write value (holeLink context)) value context ∧
      ∀ x ∉ (context.plug tree).toList, fixed.write value (holeLink context) x = memory x := by
  obtain ⟨-, contextNodup, apart⟩ := TreeContext.nodup_plug nodup
  refine ⟨holds.congr fun x member => write_holeLink_of_ne (fun top => ?_) _,
    (around.congr fun x member => frame x (apart x member)).write contextNodup _,
    fun x outside => ?_⟩
  · rw [sameLabels] at member
    exact apart x (TreeContext.mem_of_parent top) member
  · rw [TreeContext.mem_plug, not_or] at outside
    rw [write_holeLink_of_ne fun top => outside.1 (TreeContext.mem_of_parent top),
      frame x outside.2]

/-- The heights which a turn of `avl_fix` compares are those of the two subtrees. -/
theorem Exposes.refreshedHeights {memory : AvlMemory α} {context : TreeContext α}
    {left right : BinaryTree α} {label : α}
    (links : Exposes memory context.parent left label right)
    (nodup : (context.plug (.node label left right)).toList.Nodup) :
    MiniRedis.avlHeight (MiniRedis.avlUpdate memory label)
        (MiniRedis.avlUpdate memory label label).left = left.height ∧
      MiniRedis.avlHeight (MiniRedis.avlUpdate memory label)
        (MiniRedis.avlUpdate memory label label).right = right.height := by
  have treeNodup := (TreeContext.nodup_plug nodup).1
  rw [BinaryTree.toList_node, List.nodup_append, List.nodup_cons] at treeNodup
  have notLeft : label ∉ left.toList := fun member =>
    treeNodup.2.2 label member label (by simp) rfl
  have refreshed := (links.avlUpdate notLeft treeNodup.2.1.1).exposes
  rw [refreshed.leftLink, refreshed.rightLink]
  exact ⟨refreshed.leftTree.avlHeight, refreshed.rightTree.avlHeight⟩

/-- One turn of `avl_fix` repairs the subtree at the hole and relinks it. -/
theorem avlFixStep_spec {memory : AvlMemory α} {context : TreeContext α}
    {left right : BinaryTree α} {label : α}
    (links : Exposes memory context.parent left label right)
    (around : Surrounds memory (some label) context)
    (nodup : (context.plug (.node label left right)).toList.Nodup) :
    ∃ memory' top, avlFixStep memory label = some (memory', top, context.parent) ∧
      (BinaryTree.node label left right).rebalance.root = some top ∧
      Represents memory' context.parent (BinaryTree.node label left right).rebalance ∧
      Surrounds memory' (some top) context ∧
      ∀ x ∉ (context.plug (.node label left right)).toList, memory' x = memory x := by
  obtain ⟨treeNodup, -, apart⟩ := TreeContext.nodup_plug nodup
  have labelMember : label ∈ (BinaryTree.node label left right).toList := by simp
  have notContext : label ∉ context.before ∧ label ∉ context.after :=
    ⟨fun member => apart label (.inl member) labelMember,
      fun member => apart label (.inr member) labelMember⟩
  have childrenNodup := treeNodup
  rw [BinaryTree.toList_node, List.nodup_append, List.nodup_cons] at childrenNodup
  have notLeft : label ∉ left.toList := fun member =>
    childrenNodup.2.2 label member label (by simp) rfl
  have refreshed := links.avlUpdate notLeft childrenNodup.2.1.1
  have refreshedLinks := refreshed.exposes
  have refreshedAround : Surrounds (avlUpdate memory label) (some label) context :=
    around.congr fun x member => avlUpdate_of_ne fun equal =>
      apart x member (equal ▸ labelMember)
  have refreshedFrame : ∀ x ∉ (context.plug (.node label left right)).toList,
      avlUpdate memory label x = memory x := by
    intro x outside
    apply avlUpdate_of_ne
    rintro rfl
    simp [TreeContext.mem_plug] at outside
  have link := linkTo_eq_holeLink refreshedAround notContext
  unfold avlFixStep
  simp only [refreshedLinks.parentLink, refreshedLinks.leftLink, refreshedLinks.rightLink,
    refreshedLinks.leftTree.avlHeight, refreshedLinks.rightTree.avlHeight, link]
  by_cases tallLeft : left.height = right.height + 2
  · obtain ⟨fixed, top, run, root, holds, frame⟩ := avlFixLeft_spec refreshed treeNodup tallLeft
    obtain ⟨linked, linkedAround, linkedFrame⟩ := relink_spec (some top) refreshedAround nodup
      (BinaryTree.toList_rebalance _) holds frame
    refine ⟨_, top, by rw [if_pos tallLeft, run]; rfl, root, linked, linkedAround,
      fun x outside => ?_⟩
    rw [linkedFrame x outside, refreshedFrame x outside]
  · by_cases tallRight : right.height = left.height + 2
    · obtain ⟨fixed, top, run, root, holds, frame⟩ :=
        avlFixRight_spec refreshed treeNodup tallRight
      obtain ⟨linked, linkedAround, linkedFrame⟩ := relink_spec (some top) refreshedAround nodup
        (BinaryTree.toList_rebalance _) holds frame
      refine ⟨_, top, by rw [if_neg tallLeft, if_pos tallRight, run]; rfl, root, linked,
        linkedAround, fun x outside => ?_⟩
      rw [linkedFrame x outside, refreshedFrame x outside]
    · have even : (BinaryTree.node label left right).rebalance = .node label left right := by
        rw [BinaryTree.rebalance_node, if_neg tallLeft, if_neg tallRight]
      rw [even]
      exact ⟨avlUpdate memory label, label, by rw [if_neg tallLeft, if_neg tallRight]; rfl, rfl,
        refreshed, refreshedAround, refreshedFrame⟩

omit [DecidableEq α] in
/-- A context frame whose hole is filled by a represented tree is an exposed node. -/
theorem Surrounds.exposes {memory : AvlMemory α} {frame : TreeFrame α} {outer : TreeContext α}
    {tree : BinaryTree α} (around : Surrounds memory tree.root (frame :: outer))
    (holds : Represents memory (some frame.label) tree) :
    ∃ left right, frame.plug tree = .node frame.label left right ∧
      Exposes memory (TreeContext.parent outer) left frame.label right ∧
      Surrounds memory (some frame.label) outer := by
  cases frame with
  | left label sibling =>
      obtain ⟨parentLink, leftLink, rightLink, siblingTree, outerAround⟩ := around
      exact ⟨tree, sibling, rfl, ⟨parentLink, leftLink, rightLink, holds, siblingTree⟩, outerAround⟩
  | right sibling label =>
      obtain ⟨parentLink, leftLink, rightLink, siblingTree, outerAround⟩ := around
      exact ⟨sibling, tree, rfl, ⟨parentLink, leftLink, rightLink, siblingTree, holds⟩, outerAround⟩

/-- `avl_fix` rebuilds the whole context and returns the root of the result. -/
theorem avlFix_spec {memory : AvlMemory α} {context : TreeContext α}
    {left right : BinaryTree α} {label : α}
    (links : Exposes memory context.parent left label right)
    (around : Surrounds memory (some label) context)
    (nodup : (context.plug (.node label left right)).toList.Nodup) :
    ∃ memory' top, avlFix memory label = some (memory', top) ∧
      (context.rebuild (BinaryTree.node label left right).rebalance).root = some top ∧
      Represents memory' none (context.rebuild (BinaryTree.node label left right).rebalance) ∧
      ∀ x ∉ (context.plug (.node label left right)).toList, memory' x = memory x := by
  induction context generalizing memory left right label with
  | nil =>
      obtain ⟨memory', top, run, root, holds, -, frame⟩ := avlFixStep_spec links around nodup
      refine ⟨memory', top, ?_, root, holds, frame⟩
      rw [avlFix, run]
      rfl
  | cons parent outer ih =>
      obtain ⟨stepped, top, run, root, holds, stepAround, stepFrame⟩ :=
        avlFixStep_spec links around nodup
      have climb : avlFix memory label = avlFix stepped parent.label := by
        rw [avlFix, run]
        rfl
      rw [← root] at stepAround
      obtain ⟨above, below, plugged, parentLinks, outerAround⟩ := stepAround.exposes holds
      have sameLabels : (TreeContext.plug outer (.node parent.label above below)).toList =
          (TreeContext.plug (parent :: outer) (.node label left right)).toList := by
        rw [← plugged]
        cases parent <;> simp [TreeContext.toList_plug, TreeFrame.plug]
      obtain ⟨memory', final, finalRun, finalRoot, finalHolds, frame⟩ :=
        ih parentLinks outerAround (by rwa [sameLabels])
      rw [climb, TreeContext.rebuild_cons, plugged]
      refine ⟨memory', final, finalRun, finalRoot, finalHolds, fun x outside => ?_⟩
      rw [frame x (by rwa [sameLabels]), stepFrame x outside]

end MiniRedis
