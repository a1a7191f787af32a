import MiniRedis.Avl.Rebalance

/-!
# `avl_del_easy` and `avl_del`

A node with an empty child is unlinked and the context above it rebuilt. A node
with two children is replaced by its successor, which is detached first; the
final copy of all fields only renames one node of the rebuilt tree.
-/

namespace MiniRedis

open AvlMemory (avlFix leftmost)

variable {α : Type} [DecidableEq α]

/-- Linking the only child into the place of its parent. -/
theorem avlUnlink_spec {memory : AvlMemory α} {context : TreeContext α}
    {left right : BinaryTree α} {label : α}
    (holds : Represents memory none (context.plug (.node label left right)))
    (nodup : (context.plug (.node label left right)).toList.Nodup)
    (empty : left = .nil ∨ right = .nil) :
    ∃ memory', avlUnlink memory label =
        (memory', (BinaryTree.node label left right).onlyChild.root) ∧
      Represents memory' context.parent (BinaryTree.node label left right).onlyChild ∧
      Surrounds memory' (BinaryTree.node label left right).onlyChild.root context ∧
      ∀ x ∉ (context.plug (.node label left right)).toList, memory' x = memory x := by
  obtain ⟨around, here⟩ := represents_plug holds
  obtain ⟨treeNodup, contextNodup, apart⟩ := TreeContext.nodup_plug nodup
  have links := Represents.exposes here
  have childLabels : (BinaryTree.node label left right).onlyChild.toList = _ :=
    BinaryTree.toList_onlyChild empty
  have childSub : ∀ x ∈ (BinaryTree.node label left right).onlyChild.toList,
      x ∈ (BinaryTree.node label left right).toList := by
    intro x member
    rw [childLabels] at member
    rcases List.mem_append.mp member with inLeft | inRight <;> simp [*]
  have child : (memory label).left.elim (memory label).right some =
      (BinaryTree.node label left right).onlyChild.root := by
    rw [links.leftLink, links.rightLink]
    rcases empty with rfl | rfl
    · rfl
    · cases left <;> rfl
  have childTree : Represents memory (some label) (BinaryTree.node label left right).onlyChild := by
    rcases empty with rfl | rfl
    · exact links.rightTree
    · simpa using links.leftTree
  have childNodup : (BinaryTree.node label left right).onlyChild.toList.Nodup := by
    rw [childLabels]
    rw [BinaryTree.toList_node] at treeNodup
    exact (List.nodup_middle.mp treeNodup).of_cons
  let adopted := memory.adopt (BinaryTree.node label left right).onlyChild.root context.parent
  have adoptedAround : Surrounds adopted (some label) context :=
    around.congr fun x member => adopt_root fun inChild => apart x member (childSub x inChild)
  have link : (context.parent.elim .root fun parent => adopted.linkTo parent label) =
      holeLink context :=
    linkTo_eq_holeLink adoptedAround
      ⟨fun member => apart label (.inl member) (by simp),
        fun member => apart label (.inr member) (by simp)⟩
  refine ⟨adopted.write (BinaryTree.node label left right).onlyChild.root (holeLink context), ?_,
    ?_, adoptedAround.write contextNodup _, fun x outside => ?_⟩
  · rw [← link]
    simp only [avlUnlink, child, links.parentLink, adopted]
  · refine (childTree.adopt childNodup context.parent).congr fun x member =>
      write_holeLink_of_ne (fun top => ?_) _
    exact apart x (TreeContext.mem_of_parent top) (childSub x member)
  · rw [TreeContext.mem_plug, not_or] at outside
    rw [write_holeLink_of_ne fun top => outside.1 (TreeContext.mem_of_parent top)]
    exact adopt_root fun inChild => outside.2 (childSub x inChild)

omit [DecidableEq α] in
/-- The labels left after unlinking are still distinct. -/
theorem avlUnlink_nodup {context : TreeContext α} {left right : BinaryTree α} {label : α}
    (nodup : (context.plug (.node label left right)).toList.Nodup)
    (empty : left = .nil ∨ right = .nil) :
    (context.plug (BinaryTree.node label left right).onlyChild).toList.Nodup := by
  apply List.Nodup.sublist _ nodup
  rw [TreeContext.toList_plug, TreeContext.toList_plug, BinaryTree.toList_onlyChild empty,
    BinaryTree.toList_node]
  exact ((List.Sublist.refl _).append
    ((List.Sublist.refl _).append (List.sublist_cons_self _ _))).append (List.Sublist.refl _)

/-- `avl_del_easy` rebuilds the context around the only child. -/
theorem avlDelEasy_spec {memory : AvlMemory α} {context : TreeContext α}
    {left right : BinaryTree α} {label : α}
    (holds : Represents memory none (context.plug (.node label left right)))
    (nodup : (context.plug (.node label left right)).toList.Nodup)
    (empty : left = .nil ∨ right = .nil) :
    ∃ memory', avlDelEasy memory label =
        some (memory', (context.rebuild (BinaryTree.node label left right).onlyChild).root) ∧
      Represents memory' none (context.rebuild (BinaryTree.node label left right).onlyChild) ∧
      ∀ x ∉ (context.plug (.node label left right)).toList, memory' x = memory x := by
  have links := Represents.exposes (represents_plug holds).2
  have asserted : (memory label).left = none ∨ (memory label).right = none := by
    rw [links.leftLink, links.rightLink]
    rcases empty with rfl | rfl <;> simp
  obtain ⟨unlinked, run, childTree, around, unlinkFrame⟩ := avlUnlink_spec holds nodup empty
  cases context with
  | nil =>
      refine ⟨unlinked, ?_, childTree, unlinkFrame⟩
      have parentLink : (memory label).parent = none := links.parentLink
      simp [avlDelEasy, guard, asserted, run, parentLink]
  | cons frame outer =>
      obtain ⟨above, below, plugged, parentLinks, outerAround⟩ := around.exposes childTree
      have remaining := avlUnlink_nodup nodup empty
      have same : TreeContext.plug (frame :: outer) (BinaryTree.node label left right).onlyChild =
          TreeContext.plug outer (.node frame.label above below) := by
        rw [← plugged]
        rfl
      rw [same] at remaining
      obtain ⟨memory', top, fixRun, root, fixed, frameFix⟩ :=
        avlFix_spec parentLinks outerAround remaining
      rw [TreeContext.rebuild_cons, plugged]
      refine ⟨memory', ?_, fixed, fun x outside => ?_⟩
      · have parentLink : (memory label).parent = some frame.label := links.parentLink
        simp [avlDelEasy, guard, asserted, run, parentLink, fixRun, root]
      · rw [frameFix x, unlinkFrame x outside]
        rw [← same]
        rw [TreeContext.mem_plug] at outside ⊢
        rw [BinaryTree.toList_onlyChild empty, List.mem_append]
        rw [BinaryTree.toList_node, List.mem_append, List.mem_cons] at outside
        tauto

omit [DecidableEq α] in
/-- The inner loop of `avl_del` ends at the first node in symmetric order. -/
theorem leftmost_spec {memory : AvlMemory α} {parent : Option α} {label : α}
    {left right : BinaryTree α} (holds : Represents memory parent (.node label left right)) :
    leftmost memory label = (BinaryTree.node label left right).toList.head? := by
  induction left generalizing parent label right with
  | nil =>
      have links := Represents.exposes holds
      rw [leftmost, links.leftLink]
      rfl
  | node next below above belowIh _ =>
      have links := Represents.exposes holds
      rw [leftmost, links.leftLink]
      simp only [BinaryTree.root_node]
      rw [belowIh links.leftTree]
      simp [List.head?_append]

theorem write_cached (memory : AvlMemory α) (value : Option α) (link : Link α) (x : α) :
    (memory.write value link x).height = (memory x).height ∧
      (memory.write value link x).cnt = (memory x).cnt := by
  cases link with
  | root => exact ⟨rfl, rfl⟩
  | left parent =>
      by_cases equal : x = parent <;> simp [AvlMemory.write, equal]
  | right parent =>
      by_cases equal : x = parent <;> simp [AvlMemory.write, equal]

/-- After the copy, both subtrees hang below the successor, which holds the old record. -/
theorem avlTakeOver_spec {memory : AvlMemory α} {parent : Option α} {left right : BinaryTree α}
    {label successor : α} (links : Exposes memory parent left label right)
    (nodup : (BinaryTree.node label left right).toList.Nodup)
    (fresh : successor ∉ (BinaryTree.node label left right).toList) :
    avlTakeOver memory label successor successor = memory label ∧
      Represents (avlTakeOver memory label successor) (some successor) left ∧
      Represents (avlTakeOver memory label successor) (some successor) right ∧
      ∀ x, x ≠ successor → x ∉ left.toList → x ∉ right.toList →
        avlTakeOver memory label successor x = memory x := by
  rw [BinaryTree.toList_node, List.nodup_append, List.nodup_cons] at nodup
  obtain ⟨leftNodup, ⟨-, rightNodup⟩, sidesApart⟩ := nodup
  have leftNotRight : ∀ x ∈ left.toList, x ∉ right.toList := fun x inLeft inRight =>
    sidesApart x inLeft x (by simp [inRight]) rfl
  rw [BinaryTree.toList_node, List.mem_append, List.mem_cons, not_or, not_or] at fresh
  obtain ⟨notLeft, -, notRight⟩ := fresh
  let copied : AvlMemory α := Function.update memory successor (memory label)
  have copiedFrame : ∀ x, x ≠ successor → copied x = memory x := fun x distinct =>
    Function.update_of_ne distinct _ _
  let leftAdopted := copied.adopt left.root (some successor)
  let adopted := leftAdopted.adopt right.root (some successor)
  have leftAdoptedFrame : ∀ x, x ∉ left.toList → leftAdopted x = copied x :=
    fun x outside => adopt_root outside
  have adoptedFrame : ∀ x, x ∉ left.toList → x ∉ right.toList → adopted x = copied x :=
    fun x outLeft outRight => (adopt_root outRight).trans (leftAdoptedFrame x outLeft)
  have unfolded : avlTakeOver memory label successor = adopted := by
    have copiedLeft : (copied successor).left = left.root := by simp [copied, links.leftLink]
    have adoptedRight : (leftAdopted successor).right = right.root := by
      rw [leftAdoptedFrame successor notLeft]
      simp [copied, links.rightLink]
    change (copied.adopt (copied successor).left (some successor)).adopt
      (copied.adopt (copied successor).left (some successor) successor).right (some successor) = _
    rw [copiedLeft, adoptedRight]
  rw [unfolded]
  refine ⟨?_, ?_, ?_, fun x distinct outLeft outRight => ?_⟩
  · rw [adoptedFrame successor notLeft notRight]
    simp [copied]
  · refine Represents.congr (fun x member => adopt_root (leftNotRight x member))
      (Represents.adopt (Represents.congr (fun x member => copiedFrame x ?_) links.leftTree)
        leftNodup _)
    rintro rfl
    exact notLeft member
  · refine Represents.adopt (Represents.congr (fun x member => ?_) links.rightTree) rightNodup _
    rw [leftAdoptedFrame x fun inLeft => leftNotRight x inLeft member]
    apply copiedFrame x
    rintro rfl
    exact notRight member
  · rw [adoptedFrame x outLeft outRight, copiedFrame x distinct]

/-- The final copy of `avl_del` renames `label` to `successor`. -/
theorem avlReplace_spec {memory : AvlMemory α} {context : TreeContext α}
    {left right : BinaryTree α} {label successor : α}
    (holds : Represents memory none (context.plug (.node label left right)))
    (nodup : (context.plug (.node label left right)).toList.Nodup)
    (fresh : successor ∉ (context.plug (.node label left right)).toList) :
    ∃ memory',
      avlReplace memory label successor (context.plug (.node label left right)).root =
        (memory', (context.plug (.node successor left right)).root) ∧
      Represents memory' none (context.plug (.node successor left right)) ∧
      ∀ x ∉ successor :: (context.plug (.node label left right)).toList,
        memory' x = memory x := by
  obtain ⟨around, here⟩ := represents_plug holds
  obtain ⟨treeNodup, contextNodup, apart⟩ := TreeContext.nodup_plug nodup
  have links := Represents.exposes here
  rw [TreeContext.mem_plug, not_or] at fresh
  obtain ⟨notContext, notTree⟩ := fresh
  obtain ⟨record, leftTree, rightTree, frame⟩ := avlTakeOver_spec links treeNodup notTree
  have notLabel : label ≠ successor := fun equal => notTree (by simp [equal])
  have labelApart : label ∉ left.toList ∧ label ∉ right.toList := by
    rw [BinaryTree.toList_node, List.nodup_append, List.nodup_cons] at treeNodup
    exact ⟨fun inLeft => treeNodup.2.2 label inLeft label (by simp) rfl, treeNodup.2.1.1⟩
  have contextFrame : ∀ x, x ∈ context.before ∨ x ∈ context.after →
      avlTakeOver memory label successor x = memory x := by
    intro x member
    have outside := apart x member
    rw [BinaryTree.toList_node, List.mem_append, List.mem_cons, not_or, not_or] at outside
    refine frame x ?_ outside.1 outside.2.2
    rintro rfl
    exact notContext member
  have takenAround := around.congr contextFrame
  have link := linkTo_eq_holeLink takenAround
    ⟨fun member => apart label (.inl member) (by simp),
      fun member => apart label (.inr member) (by simp)⟩
  let final := (avlTakeOver memory label successor).write (some successor) (holeLink context)
  have finalFrame : ∀ x, ¬(x ∈ context.before ∨ x ∈ context.after) →
      final x = avlTakeOver memory label successor x :=
    fun x outside => write_holeLink_of_ne (fun top => outside (TreeContext.mem_of_parent top)) _
  have finalTree : Represents final context.parent (.node successor left right) := by
    refine ⟨?_, leftTree.congr fun x member => finalFrame x ?_,
      rightTree.congr fun x member => finalFrame x ?_⟩
    · rw [finalFrame successor notContext, record, here.1]
      rfl
    · exact fun inContext => apart x inContext (by simp [member])
    · exact fun inContext => apart x inContext (by simp [member])
  have finalCached : Cached final (BinaryTree.node successor left right).height
      (BinaryTree.node successor left right).numNodes context := by
    have cached : Cached memory (BinaryTree.node label left right).height
        (BinaryTree.node label left right).numNodes context := cached_of_represents holds
    refine Cached.congr (fun x member => ?_) cached
    rw [← contextFrame x member]
    exact write_cached _ _ _ x
  have finalHolds := @represents_of_surrounds α final context (.node successor left right)
    (takenAround.write contextNodup _) finalCached finalTree
  refine ⟨final, ?_, finalHolds, fun x outside => ?_⟩
  · have labelRecord := frame label notLabel labelApart.1 labelApart.2
    simp only [avlReplace, labelRecord, links.parentLink]
    rcases context with _ | ⟨parent, outer⟩
    · rfl
    · simp only [TreeContext.parent_cons, Option.elim_some] at link ⊢
      rw [link, TreeContext.root_plug_cons parent outer _ (.node successor left right)]
  · rw [List.mem_cons, TreeContext.mem_plug, not_or, not_or] at outside
    obtain ⟨notSuccessor, outContext, outTree⟩ := outside
    rw [BinaryTree.toList_node, List.mem_append, List.mem_cons, not_or, not_or] at outTree
    rw [finalFrame x outContext, frame x notSuccessor outTree.1 outTree.2.2]

omit [DecidableEq α] in
/-- The context rebuilt around the only child of a node is balanced if the tree was. -/
theorem balanced_unlinked {context : TreeContext α} {left right : BinaryTree α} {label : α}
    (empty : left = .nil ∨ right = .nil)
    (balanced : (context.plug (.node label left right)).Balanced) :
    (context.rebuild (BinaryTree.node label left right).onlyChild).Balanced := by
  have here := TreeContext.balanced_of_plug balanced
  simp only [BinaryTree.balanced_node] at here
  refine TreeContext.balanced_rebuild balanced ?_ ?_
  · rcases empty with rfl | rfl <;> simp [here]
  · rcases empty with rfl | rfl <;> simp [TreeContext.Near] at here ⊢ <;> omega

/-- Detaching the successor of `label`, the first node to its right, takes one label out. -/
theorem toList_detachSuccessor {context inner : TreeContext α} {left rest : BinaryTree α}
    {label successor : α} (first : inner.before = []) :
    (TreeContext.rebuild (inner ++ .right left label :: context) rest).toList =
        context.before ++ left.toList ++ label :: (rest.toList ++ inner.after) ++ context.after ∧
      (TreeContext.plug (inner ++ .right left label :: context)
        (.node successor .nil rest)).toList.Perm
        (successor :: (TreeContext.rebuild (inner ++ .right left label :: context) rest).toList) := by
  have rebuilt : (TreeContext.rebuild (inner ++ .right left label :: context) rest).toList =
      context.before ++ left.toList ++ label :: (rest.toList ++ inner.after) ++ context.after := by
    rw [TreeContext.toList_rebuild, TreeContext.before_append, TreeContext.after_append, first]
    simp
  refine ⟨rebuilt, ?_⟩
  rw [TreeContext.toList_plug, TreeContext.before_append, TreeContext.after_append, first, rebuilt,
    List.perm_iff_count]
  intro x
  simp only [TreeContext.before_right, TreeContext.after_right, BinaryTree.toList_node,
    BinaryTree.toList_nil, List.count_append, List.count_cons, List.count_nil]
  omega

/-- `avl_del` at a node with two children: the successor is detached and takes over. -/
theorem avlDel_spec_of_children {memory : AvlMemory α} {context : TreeContext α}
    {left right : BinaryTree α} {label : α}
    (holds : Represents memory none (context.plug (.node label left right)))
    (nodup : (context.plug (.node label left right)).toList.Nodup)
    (leftNonempty : left ≠ .nil) (rightNonempty : right ≠ .nil) :
    ∃ memory' tree', avlDel memory label = some (memory', tree'.root) ∧
      Represents memory' none tree' ∧
      tree'.toList = context.before ++ (left.toList ++ right.toList) ++ context.after ∧
      ((context.plug (.node label left right)).Balanced → tree'.Balanced) ∧
      ∀ x ∉ (context.plug (.node label left right)).toList, memory' x = memory x := by
  have links := Represents.exposes (represents_plug holds).2
  obtain ⟨leftTop, _, _, leftNode⟩ := BinaryTree.exists_node leftNonempty
  obtain ⟨rightTop, below, above, rightNode⟩ := BinaryTree.exists_node rightNonempty
  obtain ⟨inner, successor, rest, rightEq, first⟩ := TreeContext.exists_leftmost rightNonempty
  have rightLabels : right.toList = successor :: (rest.toList ++ inner.after) := by
    rw [rightEq, TreeContext.toList_plug, first]
    simp
  have seek : leftmost memory rightTop = some successor := by
    have found := links.rightTree
    rw [rightNode] at found
    rw [leftmost_spec found, ← rightNode, rightLabels]
    rfl
  -- the whole tree, seen from the successor
  let path : TreeContext α := inner ++ .right left label :: context
  have seen : path.plug (.node successor .nil rest) = context.plug (.node label left right) := by
    rw [TreeContext.plug_append, ← rightEq]
    rfl
  rw [← seen] at nodup holds ⊢
  obtain ⟨detached, detachRun, detachHolds, detachFrame⟩ := avlDelEasy_spec holds nodup (.inl rfl)
  rw [BinaryTree.onlyChild_left_nil] at detachRun detachHolds
  obtain ⟨detachLabels, rearranged⟩ :
      (path.rebuild rest).toList = _ ∧
        (path.plug (.node successor .nil rest)).toList.Perm (successor :: (path.rebuild rest).toList) :=
    toList_detachSuccessor first
  have detachNodup := (rearranged.nodup_iff.mp nodup)
  rw [List.nodup_cons] at detachNodup
  -- the successor takes over the record of the deleted node
  obtain ⟨place, placeLeft, placeRight, placed⟩ :=
    @TreeContext.exists_plug α (path.rebuild rest) label
      (by rw [detachLabels]; simp)
  rw [placed] at detachHolds detachNodup
  obtain ⟨memory', replaceRun, final, replaceFrame⟩ :=
    avlReplace_spec detachHolds detachNodup.2 detachNodup.1
  refine ⟨memory', place.plug (.node successor placeLeft placeRight), ?_, final, ?_,
    fun balanced => ?_, fun x outside => ?_⟩
  · unfold avlDel
    rw [if_neg (by rw [links.leftLink, links.rightLink, leftNode, rightNode]; simp),
      links.rightLink, rightNode]
    simp [seek, detachRun, placed, replaceRun]
  · rw [TreeContext.toList_plug_rename detachNodup.2 successor, ← placed, detachLabels,
      rightLabels, List.append_assoc, List.cons_append]
    rw [← placed, detachLabels, List.append_assoc, List.cons_append] at detachNodup
    rw [TreeContext.map_rename detachNodup.2]
    simp
  · have rebuilt := balanced_unlinked (.inl rfl) balanced
    rw [BinaryTree.onlyChild_left_nil] at rebuilt
    rw [placed] at rebuilt
    exact @TreeContext.balanced_plug_congr α place (.node label placeLeft placeRight) _ rfl
      (fun holds => holds) rebuilt
  · rw [rearranged.mem_iff, placed] at outside
    rw [replaceFrame x outside, detachFrame x]
    rw [rearranged.mem_iff, placed]
    exact outside

/-- `avl_del` removes exactly one label from a represented tree and keeps balance. -/
theorem avlDel_spec {memory : AvlMemory α} {tree : BinaryTree α} {label : α}
    (holds : Represents memory none tree) (nodup : tree.toList.Nodup)
    (member : label ∈ tree.toList) :
    ∃ memory' tree', avlDel memory label = some (memory', tree'.root) ∧
      Represents memory' none tree' ∧ tree'.toList = tree.toList.erase label ∧
      (tree.Balanced → tree'.Balanced) ∧ ∀ x ∉ tree.toList, memory' x = memory x := by
  obtain ⟨context, left, right, rfl⟩ := TreeContext.exists_plug member
  obtain ⟨treeNodup, -, apart⟩ := TreeContext.nodup_plug nodup
  have notBefore : label ∉ context.before := fun inBefore => apart label (.inl inBefore) (by simp)
  have links := Represents.exposes (represents_plug holds).2
  have labelNotLeft : label ∉ left.toList := by
    rw [BinaryTree.toList_node, List.nodup_append] at treeNodup
    exact fun inLeft => treeNodup.2.2 label inLeft label (by simp) rfl
  have erased : (context.plug (.node label left right)).toList.erase label =
      context.before ++ (left.toList ++ right.toList) ++ context.after := by
    rw [TreeContext.toList_plug, List.append_assoc, List.erase_append_right _ notBefore,
      List.erase_append_left _ (by simp), BinaryTree.toList_node,
      List.erase_append_right _ labelNotLeft, List.erase_cons_head]
    simp
  rw [erased]
  by_cases empty : left = .nil ∨ right = .nil
  · obtain ⟨memory', run, fixed, frame⟩ := avlDelEasy_spec holds nodup empty
    refine ⟨memory', _, ?_, fixed, ?_, balanced_unlinked empty, frame⟩
    · unfold avlDel
      rw [if_pos, run]
      rw [links.leftLink, links.rightLink]
      rcases empty with rfl | rfl <;> simp
    · rw [TreeContext.toList_rebuild, BinaryTree.toList_onlyChild empty]
  · rw [not_or] at empty
    exact avlDel_spec_of_children holds nodup empty.1 empty.2

end MiniRedis
