import MiniRedis.ZSet.Invariant

/-!
# The operations of a sorted set keep its two indexes in step
-/

namespace MiniRedis

open Binary64
open AvlMemory (avlSeek)

variable {α : Type} [DecidableEq α] {memory : ZMemory α} {zset : ZSet α} {tree : BinaryTree α}

/-- A search by name returns the node of that name, and null only if there is none. -/
def FindsName (memory : ZMemory α) (nodes : List α) (name : Bytes) (found : Option α) : Prop :=
  match found with
  | none => ∀ x ∈ nodes, memory.name x ≠ name
  | some node => node ∈ nodes ∧ memory.name node = name

/-- `zset_lookup` finds the node of a name; an empty tree needs no search. -/
theorem zsetLookup_spec (holds : zset.Holds memory tree) (name : Bytes) :
    ∃ found zset', zsetLookup memory zset name = some (found, zset') ∧
      zset'.Holds memory tree ∧ FindsName memory tree.toList name found := by
  cases top : zset.root with
  | none =>
      have empty : tree = .nil := by
        cases tree with
        | nil => rfl
        | node label left right => simp [holds.root] at top
      subst empty
      exact ⟨none, zset, by simp [zsetLookup, top], holds, by simp [FindsName]⟩
  | some node =>
      obtain ⟨found, hmap, run, index, spec⟩ := hmLookup_spec holds.index (holds.respects name)
      refine ⟨found, { zset with hmap := hmap }, by simp [zsetLookup, top, run],
        { holds with index := index }, ?_⟩
      cases found with
      | none =>
          intro x member same
          have matches' := hEq_iff.mpr same
          simp [spec x (List.mem_toFinset.mpr member)] at matches'
      | some node => exact ⟨List.mem_toFinset.mp spec.1, hEq_iff.mp spec.2⟩

/-- Removing a node and giving it a new score leaves every other pair different from its own. -/
theorem ZSet.Holds.distinct_key (holds : zset.Holds memory tree) {node : α}
    (member : node ∈ tree.toList) {memory' : ZMemory α} (names : memory'.name = memory.name) :
    ∀ x ∈ tree.toList.erase node, memory'.key x ≠ memory'.key node := by
  intro x inRest same
  obtain ⟨other, inTree⟩ := (holds.nodup.mem_erase_iff).mp inRest
  rw [ZMemory.key, ZMemory.key, pairKey_eq_iff, names] at same
  exact other (holds.named x inTree node member same.2)

/-- The score a node keeps: C++ equality does not replace `-0.0` by `0.0`. -/
def settledScore (old new : Number) : Number := if old.double.eq new.double then old else new

theorem settledScore_rank (old new : Number) : (settledScore old new).rank = new.rank := by
  unfold settledScore
  split
  next same => exact (Number.eq_iff old new).mp same
  next => rfl

/-- `zset_update` moves the node to its new place and keeps it in both indexes. -/
theorem zsetUpdate_spec (holds : zset.Holds memory tree) {node : α} (member : node ∈ tree.toList)
    (score : Number) :
    ∃ memory' zset' tree', zsetUpdate memory zset node score = some (memory', zset') ∧
      zset'.Holds memory' tree' ∧ tree'.toList.Perm tree.toList ∧
      memory'.score = Function.update memory.score node (settledScore (memory.score node) score) ∧
      memory'.name = memory.name ∧ memory'.live = memory.live ∧
      memory.Agrees memory' (· ∈ tree.toList) := by
  by_cases unchanged : (memory.score node).double.eq score.double
  · refine ⟨memory, zset, tree, by simp [zsetUpdate, unchanged], holds, .refl _, ?_, rfl, rfl,
      .refl _ _⟩
    rw [settledScore, if_pos unchanged, Function.update_eq_self]
  · obtain ⟨links, rest, detached, restHolds, labels, keeps, frame⟩ :=
      avlDel_spec holds.represents holds.nodup member
    have nodup : (node :: rest.toList).Nodup := by
      rw [labels]
      exact (List.perm_cons_erase member).nodup_iff.mp holds.nodup
    obtain ⟨gone, restNodup⟩ := List.nodup_cons.mp nodup
    let mutated : ZMemory α :=
      { memory with
        tree := avlInit links node
        score := Function.update memory.score node score }
    have mutatedKey : ∀ x ≠ node, mutated.key x = memory.key x := fun x other => by
      simp [ZMemory.key, mutated, Function.update_of_ne other]
    have readyHolds : Represents mutated.tree none rest :=
      restHolds.congr fun x inRest => avlInit_of_ne fun same => gone (same ▸ inRest)
    have sorted : rest.toList.Pairwise fun x y => mutated.key x < mutated.key y := by
      rw [labels]
      apply (holds.sorted.sublist List.erase_sublist).imp_of_mem
      intro x y left right less
      rw [← labels] at left right
      rw [mutatedKey x fun same => gone (same ▸ left), mutatedKey y fun same => gone (same ▸ right)]
      exact less
    obtain ⟨final, tree', inserted, finalHolds, balanced, perm, finalSorted, finalFrame⟩ :=
      avlInsert_sorted (avlCmp_less mutated node) (avlCmp_equal mutated node) readyHolds restNodup
        (keeps holds.balanced) sorted gone (by simp [mutated, avlInit]) (by simp [mutated, avlInit])
        (by rw [labels]; exact holds.distinct_key member rfl)
    have samePerm : tree'.toList.Perm tree.toList := by
      rw [labels] at perm
      exact perm.trans (List.perm_cons_erase member).symm
    have sameSet : tree'.toList.toFinset = tree.toList.toFinset :=
      List.toFinset_eq_of_perm _ _ samePerm
    refine ⟨{ mutated with tree := final }, { zset with root := tree'.root }, tree', ?_, ?_,
      samePerm, ?_, rfl, rfl, ?_⟩
    · simp only [zsetUpdate, unchanged, detached, Option.bind_eq_bind, Option.bind_some]
      simp [mutated] at inserted
      simp [inserted, mutated]
    · exact
        { root := rfl
          represents := finalHolds
          nodup := samePerm.nodup_iff.mpr holds.nodup
          balanced := balanced
          sorted := finalSorted
          index := by rw [sameSet]; exact holds.index
          hashed := fun x inTree => holds.hashed x (samePerm.mem_iff.mp inTree)
          named := fun x left y right => holds.named x (samePerm.mem_iff.mp left) y
            (samePerm.mem_iff.mp right)
          live := fun x inTree => holds.live x (samePerm.mem_iff.mp inTree) }
    · rw [settledScore, if_neg unchanged]
    · refine ⟨fun x outside => ?_, fun _ _ => rfl, fun x outside => ?_, fun _ _ => rfl,
        fun _ _ => .rfl⟩
      · have other : x ≠ node := fun same => outside (same ▸ member)
        have notRest : x ∉ rest.toList := by
          rw [labels]
          exact fun inRest => outside (List.mem_of_mem_erase inRest)
        calc final x = mutated.tree x := finalFrame x (by simp [other, notRest])
          _ = links x := avlInit_of_ne other
          _ = memory.tree x := frame x outside
      · have other : x ≠ node := fun same => outside (same ▸ member)
        exact Function.update_of_ne other _ _

/-- A new name is added to both indexes. -/
theorem zsetAdd_spec (holds : zset.Holds memory tree) {node : α} (fresh : node ∉ memory.live)
    {name : Bytes} (score : Number) (absent : ∀ x ∈ tree.toList, memory.name x ≠ name) :
    ∃ hmap links tree',
      hmInsert (znodeNew memory node name score).hcode zset.hmap node = some hmap ∧
      avlInsert (znodeNew memory node name score).tree zset.root node
        (avlCmp (znodeNew memory node name score)) = some (links, tree'.root) ∧
      ZSet.Holds { znodeNew memory node name score with tree := links }
        { root := tree'.root, hmap := hmap } tree' ∧
      tree'.toList.Perm (node :: tree.toList) ∧
      memory.Agrees { znodeNew memory node name score with tree := links }
        (fun x => x = node ∨ x ∈ tree.toList) := by
  have outside : node ∉ tree.toList := fun member => fresh (holds.live node member)
  have made : memory.Agrees (znodeNew memory node name score) (· = node) :=
    ⟨fun x other => avlInit_of_ne other, fun x other => Function.update_of_ne other _ _,
      fun x other => Function.update_of_ne other _ _,
      fun x other => Function.update_of_ne other _ _, fun x other => by simp [znodeNew, other]⟩
  have ready := holds.congr made fun x member same => outside (same ▸ member)
  have nameNode : (znodeNew memory node name score).name node = name := by simp [znodeNew]
  have nameOther : ∀ x ∈ tree.toList, (znodeNew memory node name score).name x ≠ name := by
    intro x member
    rw [made.name x fun same => outside (same ▸ member)]
    exact absent x member
  obtain ⟨links, tree', inserted, finalHolds, balanced, perm, sorted, frame⟩ :=
    avlInsert_sorted (avlCmp_less (znodeNew memory node name score) node)
      (avlCmp_equal (znodeNew memory node name score) node) ready.represents ready.nodup
      ready.balanced ready.sorted outside (by simp [znodeNew, avlInit]) (by simp [znodeNew, avlInit])
      (fun x member same => by
        rw [ZMemory.key, ZMemory.key, pairKey_eq_iff, nameNode] at same
        exact nameOther x member same.2)
  have freshKey : node ∉ tree.toList.toFinset := fun member =>
    outside (List.mem_toFinset.mp member)
  obtain ⟨hmap, indexed, index⟩ := hmInsert_spec ready.index freshKey
  have sameSet : tree'.toList.toFinset = insert node tree.toList.toFinset := by
    rw [List.toFinset_eq_of_perm _ _ perm, List.toFinset_cons]
  refine ⟨hmap, links, tree', indexed, by rw [holds.root]; exact inserted, ?_, perm, ?_⟩
  · have inTree : ∀ x, x ∈ tree'.toList ↔ x = node ∨ x ∈ tree.toList := fun x => by
      rw [perm.mem_iff, List.mem_cons]
    exact
      { root := rfl
        represents := finalHolds
        nodup := perm.nodup_iff.mpr (List.nodup_cons.mpr ⟨outside, holds.nodup⟩)
        balanced := balanced
        sorted := sorted
        index := by rw [sameSet]; exact index
        hashed := fun x member => by
          rcases (inTree x).mp member with rfl | old
          · simp [znodeNew]
          · exact ready.hashed x old
        named := fun x left y right same => by
          rcases (inTree x).mp left with rfl | leftOld <;>
            rcases (inTree y).mp right with rfl | rightOld
          · rfl
          · exact absurd (same.symm.trans nameNode) (nameOther y rightOld)
          · exact absurd (same.trans nameNode) (nameOther x leftOld)
          · exact ready.named x leftOld y rightOld same
        live := fun x member => by
          rcases (inTree x).mp member with rfl | old
          · simp [znodeNew]
          · exact ready.live x old }
  · refine (made.mono fun x same => Or.inl same).relink fun x untouched => frame x ?_
    rw [List.mem_cons]
    exact untouched

/-- `zset_delete` of a member removes it from both indexes and frees it. -/
theorem zsetDelete_spec (holds : zset.Holds memory tree) {node : α} (member : node ∈ tree.toList) :
    ∃ memory' zset' tree', zsetDelete memory zset node = some (memory', zset') ∧
      zset'.Holds memory' tree' ∧ tree'.toList = tree.toList.erase node ∧
      memory'.name = memory.name ∧ memory'.score = memory.score ∧
      memory'.live = memory.live.erase node ∧ memory.Agrees memory' (· ∈ tree.toList) := by
  have respects := holds.respects (memory.name node)
  rw [← holds.hashed node member] at respects
  obtain ⟨found, hmap, removed, spec⟩ := hmDelete_spec holds.index respects
  obtain ⟨links, tree', detached, restHolds, labels, keeps, frame⟩ :=
    avlDel_spec holds.represents holds.nodup member
  -- names are unique, so the hash map removes this very node
  obtain ⟨rfl, index⟩ : found = some node ∧
      hmap.Holds memory.hcode (tree.toList.toFinset.erase node) := by
    cases found with
    | none =>
        have differs := spec.2 node (List.mem_toFinset.mpr member)
        rw [hEq_iff.mpr rfl] at differs
        cases differs
    | some target =>
        obtain ⟨holds', inIndex, matches'⟩ := spec
        have same := holds.named target (List.mem_toFinset.mp inIndex) node member
          (hEq_iff.mp matches')
        subst same
        exact ⟨rfl, holds'⟩
  have sameSet : tree'.toList.toFinset = tree.toList.toFinset.erase node := by
    ext x
    simp [labels, holds.nodup.mem_erase_iff]
  have inTree : ∀ x, x ∈ tree'.toList ↔ x ≠ node ∧ x ∈ tree.toList := fun x => by
    rw [labels, holds.nodup.mem_erase_iff]
  refine ⟨{ memory with tree := links, live := memory.live.erase node },
    { root := tree'.root, hmap := hmap }, tree', ?_, ?_, labels, rfl, rfl, rfl, ?_⟩
  · simp [zsetDelete, removed, detached, znodeDel, holds.live node member]
  · exact
      { root := rfl
        represents := restHolds
        nodup := by rw [labels]; exact holds.nodup.erase node
        balanced := keeps holds.balanced
        sorted := by rw [labels]; exact holds.sorted.sublist List.erase_sublist
        index := by rw [sameSet]; exact index
        hashed := fun x inRest => holds.hashed x ((inTree x).mp inRest).2
        named := fun x left y right => holds.named x ((inTree x).mp left).2 y ((inTree y).mp right).2
        live := fun x inRest => Finset.mem_erase.mpr
          ⟨((inTree x).mp inRest).1, holds.live x ((inTree x).mp inRest).2⟩ }
  · refine ⟨fun x outside => frame x outside, fun _ _ => rfl, fun _ _ => rfl, fun _ _ => rfl,
      fun x outside => ?_⟩
    have other : x ≠ node := fun same => outside (same ▸ member)
    simp [other]

end MiniRedis
