import MiniRedis.Avl.Reachable
import MiniRedis.Avl.Sorted

/-!
# The in-order sequence

Deletion removes one node from the in-order sequence and insertion adds one at its
sorted place; no other node is lost or duplicated.
-/

namespace MiniRedis

variable {α : Type}

/-- No pointer of a node leads to the given one. -/
def Unlinked (record : AvlNode α) (node : α) : Prop :=
  record.parent ≠ some node ∧ record.left ≠ some node ∧ record.right ≠ some node

/-- The pointers in a represented tree lead to nodes of that tree. -/
theorem Represents.unlinked {memory : AvlMemory α} {tree : BinaryTree α}
    (holds : Represents memory none tree) {node : α} (outside : node ∉ tree.toList) {x : α}
    (member : x ∈ tree.toList) : Unlinked (memory x) node := by
  obtain ⟨context, left, right, rfl⟩ := TreeContext.exists_plug member
  have links := Represents.exposes (represents_plug holds).2
  rw [TreeContext.mem_plug, BinaryTree.toList_node, List.mem_append, List.mem_cons] at outside
  rw [Unlinked, links.parentLink, links.leftLink, links.rightLink]
  refine ⟨fun top => outside (.inl (TreeContext.mem_of_parent top)), fun top => ?_, fun top => ?_⟩
  · exact outside (.inr (.inl (BinaryTree.mem_of_root top)))
  · exact outside (.inr (.inr (.inr (BinaryTree.mem_of_root top))))

variable [DecidableEq α] {κ : Type} [LinearOrder κ]

/-- In a well-formed sorted tree, a deletion takes one node out of the sequence and nothing
refers to it afterwards; an insertion adds a node between the smaller and the larger ones,
or changes nothing when its key is present. -/
theorem avl_sequence {memory : AvlMemory α} {root : Option α} {tree : BinaryTree α}
    (invariant : AvlInvariant memory root tree) {key : α → κ} {cmp : α → α → Int}
    (less : ∀ x y, cmp x y < 0 ↔ key x < key y) (equal : ∀ x y, cmp x y = 0 ↔ key x = key y)
    (sorted : tree.toList.Pairwise fun x y => key x < key y) :
    (∀ node ∈ tree.toList, ∃ memory' root' tree', avlDel memory node = some (memory', root') ∧
      AvlInvariant memory' root' tree' ∧
      (∃ front back, tree.toList = front ++ node :: back ∧ tree'.toList = front ++ back) ∧
      ¬InTree memory' root' node ∧ ∀ x ∈ tree'.toList, Unlinked (memory' x) node) ∧
    ∀ node ∉ tree.toList,
      ((∃ x ∈ tree.toList, key x = key node) →
        avlInsert (avlInit memory node) root node cmp = some (avlInit memory node, root) ∧
          AvlInvariant (avlInit memory node) root tree) ∧
      ((∀ x ∈ tree.toList, key x ≠ key node) → ∃ memory' root' tree' low high,
        avlInsert (avlInit memory node) root node cmp = some (memory', root') ∧
        AvlInvariant memory' root' tree' ∧ tree.toList = low ++ high ∧
        tree'.toList = low ++ node :: high ∧ (∀ x ∈ low, key x < key node) ∧
        ∀ x ∈ high, key node < key x) := by
  constructor
  · intro node member
    obtain ⟨memory', tree', run, holds, labels, keeps, -⟩ :=
      avlDel_spec invariant.represents invariant.nodup member
    have nodup : tree'.toList.Nodup := by
      rw [labels]
      exact invariant.nodup.erase node
    have gone : node ∉ tree'.toList := by
      rw [labels]
      exact invariant.nodup.not_mem_erase
    refine ⟨memory', tree'.root, tree', run, ⟨holds, rfl, nodup, keeps invariant.balanced⟩, ?_, ?_,
      fun x inRest => holds.unlinked gone inRest⟩
    · obtain ⟨front, back, absent, split, erased⟩ := List.exists_erase_eq member
      exact ⟨front, back, split, labels.trans erased⟩
    · rw [holds.inTree_iff]
      exact gone
  · intro node fresh
    have ready := invariant.avlInit fresh
    rw [← invariant.root]
    constructor
    · rintro ⟨x, member, same⟩
      refine ⟨avlInsert_duplicate (less node) (equal node) ready.represents sorted member same, ?_⟩
      rw [invariant.root]
      exact ready
    · intro distinct
      obtain ⟨memory', tree', low, high, run, holds, balanced, labels, labels', lows, highs, -⟩ :=
        avlInsert_between (less node) (equal node) ready.represents ready.nodup ready.balanced sorted
          fresh (by simp [avlInit]) (by simp [avlInit]) distinct
      have nodup : tree'.toList.Nodup := by
        have apart := invariant.nodup
        rw [labels] at fresh apart
        rw [labels']
        exact List.nodup_middle.mpr (List.nodup_cons.mpr ⟨fresh, apart⟩)
      exact ⟨memory', tree'.root, tree', low, high, run, ⟨holds, rfl, nodup, balanced⟩, labels,
        labels', lows, highs⟩

/-- A node with two children is deleted from the sequence, and a node with a key that is left
is not inserted. -/
theorem avl_sequence_rotated : ∃ (memory : AvlMemory Nat) (root : Option Nat) (tree : BinaryTree Nat),
    AvlReachable memory root ∧ tree.toList = [0, 2] ∧ AvlInvariant memory root tree ∧
      ¬InTree memory root 1 ∧
      avlInsert (avlInit memory 5) root 5 (fun x y => ((x % 3 : Nat) : Int) - (y % 3 : Nat)) =
        some (avlInit memory 5, root) := by
  have less : ∀ x y : Nat, ((x % 3 : Nat) : Int) - (y % 3 : Nat) < 0 ↔ x % 3 < y % 3 :=
    fun x y => by omega
  have equal : ∀ x y : Nat, ((x % 3 : Nat) : Int) - (y % 3 : Nat) = 0 ↔ x % 3 = y % 3 :=
    fun x y => by omega
  obtain ⟨memory, reachable, invariant⟩ := AvlReachable.ascending
  obtain ⟨deletes, -⟩ := @avl_sequence Nat _ Nat _ _ _ _ invariant (fun x => x % 3) _ less equal
    (by decide)
  obtain ⟨memory', root', tree', run, invariant', ⟨front, back, labels, labels'⟩, gone, -⟩ :=
    deletes 1 (by decide)
  have rest : tree'.toList = [0, 2] := by
    have split : [0] ++ 1 :: [2] = front ++ 1 :: back := labels
    obtain ⟨rfl, -, rfl⟩ := (List.append_cons_inj_of_notMem (by decide) (by decide)).mp split
    exact labels'
  have sorted : tree'.toList.Pairwise fun x y => x % 3 < y % 3 := by
    rw [rest]
    decide
  obtain ⟨-, inserts⟩ := @avl_sequence Nat _ Nat _ _ _ _ invariant' (fun x => x % 3) _ less equal
    sorted
  have duplicate := (inserts 5 (by simp [rest])).1 ⟨2, by simp [rest], rfl⟩
  exact ⟨memory', root', tree', reachable.delete (invariant.inTree_iff.mpr (by decide)) run, rest,
    invariant', gone, duplicate.1⟩

end MiniRedis
