import MiniRedis.Avl.Rebalance

/-!
# `avl_insert`

The descent of the source is `TreeContext.descend`; attaching the new node and
fixing the path rebuilds the context found.
-/

namespace MiniRedis

open AvlMemory (avlFix avlSeek)

variable {α : Type} [DecidableEq α]

omit [DecidableEq α] in
/-- The hole's field, read through the local root when the context is empty. -/
theorem read_holeLink {memory : AvlMemory α} {context : TreeContext α} {tree : BinaryTree α}
    (around : Surrounds memory tree.root context) :
    memory.read (context.plug tree).root (holeLink context) = tree.root := by
  rcases context with _ | ⟨_ | _, outer⟩
  · rfl
  · exact around.2.1
  · exact around.2.2.1

omit [DecidableEq α] in
/-- The loop of `avl_insert` computes `TreeContext.descend`. -/
theorem avlSeek_eq_descend {memory : AvlMemory α} {root : Option α} {cmp : α → α → Int} {node : α}
    {context : TreeContext α} {tree : BinaryTree α}
    (holds : Represents memory none (context.plug tree))
    (top : root = (context.plug tree).root) :
    avlSeek memory root cmp node context.parent (holeLink context) =
      some (match TreeContext.descend (cmp node) context tree with
        | none => .duplicate
        | some found => .vacant found.parent (holeLink found)) := by
  induction tree generalizing context with
  | nil =>
      rw [avlSeek, top, read_holeLink (represents_plug holds).1]
      rfl
  | node label left right leftIh rightIh =>
      rw [avlSeek, top, read_holeLink (represents_plug holds).1]
      simp only [BinaryTree.root_node, TreeContext.descend]
      split
      · rfl
      · split
        · have below := @leftIh (.left label right :: context) holds top
          rw [← top]
          exact below
        · have above := @rightIh (.right left label :: context) holds top
          rw [← top]
          exact above

/-- A fresh initialised node attached at the hole of a represented context. -/
theorem avlAttach_spec {memory : AvlMemory α} {context : TreeContext α} {node : α}
    (holds : Represents memory none (context.plug .nil))
    (nodup : (context.plug .nil).toList.Nodup) (fresh : node ∉ (context.plug .nil).toList)
    (leftLink : (memory node).left = none) (rightLink : (memory node).right = none) :
    Exposes (avlAttach memory node context.parent (holeLink context)) context.parent .nil node .nil ∧
      Surrounds (avlAttach memory node context.parent (holeLink context)) (some node) context ∧
      (context.plug (.node node .nil .nil)).toList.Nodup ∧
      ∀ x ∉ node :: (context.plug .nil).toList,
        avlAttach memory node context.parent (holeLink context) x = memory x := by
  obtain ⟨-, contextNodup, -⟩ := TreeContext.nodup_plug nodup
  rw [TreeContext.mem_plug, not_or] at fresh
  have notParent : context.parent ≠ some node := fun top =>
    fresh.1 (TreeContext.mem_of_parent top)
  refine ⟨⟨by simp [avlAttach], ?_, ?_, trivial, trivial⟩, ?_, ?_, fun x outside => ?_⟩
  · simp [avlAttach, write_holeLink_of_ne notParent, leftLink]
  · simp [avlAttach, write_holeLink_of_ne notParent, rightLink]
  · refine ((represents_plug holds).1.write contextNodup (some node)).congr
      fun x member => AvlMemory.setParent_of_ne _ _ ?_
    rintro rfl
    exact fresh.1 member
  · rw [TreeContext.toList_plug, BinaryTree.toList_node, BinaryTree.toList_nil,
      List.nil_append, List.append_assoc, List.singleton_append]
    refine List.nodup_middle.mpr (List.nodup_cons.mpr ⟨?_, contextNodup⟩)
    rw [List.mem_append]
    exact fresh.1
  · rw [List.mem_cons, TreeContext.mem_plug, not_or, not_or] at outside
    rw [avlAttach, AvlMemory.setParent_of_ne _ _ outside.1,
      write_holeLink_of_ne fun top => outside.2.1 (TreeContext.mem_of_parent top)]

/-- `avl_insert` of a fresh initialised node: unchanged on a duplicate, otherwise
the rebuilt context of the descent. -/
theorem avlInsert_spec {memory : AvlMemory α} {tree : BinaryTree α} {node : α}
    {cmp : α → α → Int} (holds : Represents memory none tree) (nodup : tree.toList.Nodup)
    (fresh : node ∉ tree.toList) (leftLink : (memory node).left = none)
    (rightLink : (memory node).right = none) :
    match TreeContext.descend (cmp node) [] tree with
    | none => avlInsert memory tree.root node cmp = some (memory, tree.root)
    | some context => ∃ memory',
        avlInsert memory tree.root node cmp =
          some (memory', (context.rebuild (.node node .nil .nil)).root) ∧
        Represents memory' none (context.rebuild (.node node .nil .nil)) ∧
        ∀ x ∉ node :: tree.toList, memory' x = memory x := by
  have seek : avlSeek memory tree.root cmp node none .root = _ :=
    @avlSeek_eq_descend α memory tree.root cmp node [] tree holds rfl
  unfold avlInsert
  rw [seek]
  cases reached : TreeContext.descend (cmp node) [] tree with
  | none => rfl
  | some context =>
      have plugged : context.plug .nil = tree := TreeContext.plug_of_descend reached
      rw [← plugged] at holds nodup fresh ⊢
      obtain ⟨links, around, attachedNodup, attachFrame⟩ :=
        avlAttach_spec holds nodup fresh leftLink rightLink
      obtain ⟨memory', top, run, root, fixed, frame⟩ := avlFix_spec links around attachedNodup
      have leaf : (BinaryTree.node node .nil .nil).rebalance = .node node .nil .nil := rfl
      rw [leaf] at root fixed
      refine ⟨memory', by simp [run, root], fixed, fun x outside => ?_⟩
      rw [frame x, attachFrame x outside]
      rw [List.mem_cons, TreeContext.mem_plug, not_or, not_or] at outside
      rw [TreeContext.mem_plug, not_or]
      exact ⟨outside.2.1, by simp [outside.1]⟩

theorem avlInit_of_ne {memory : AvlMemory α} {node x : α} (distinct : x ≠ node) :
    avlInit memory node x = memory x := by
  simp [avlInit, distinct]

omit [DecidableEq α] in
/-- Rebuilding around a new leaf keeps balance. -/
theorem balanced_attach {context : TreeContext α} (node : α)
    (balanced : (context.plug .nil).Balanced) :
    (context.rebuild (.node node .nil .nil)).Balanced :=
  TreeContext.balanced_rebuild balanced (by simp) (by simp [TreeContext.Near])

end MiniRedis
