import MiniRedis.ZSet.Operations
import MiniRedis.Library.KeyedList

/-!
# A sorted set as a map from names to scores
-/

namespace MiniRedis

open Binary64

variable {α : Type} [DecidableEq α] {memory : ZMemory α} {zset : ZSet α} {tree : BinaryTree α}

/-- The score of the node with this name. -/
def scoreOf (memory : ZMemory α) (nodes : List α) : Bytes → Option Number :=
  KeyedList.lookup nodes memory.name memory.score

theorem ZSet.Holds.scoreOf_of_mem (holds : zset.Holds memory tree) {x : α}
    (member : x ∈ tree.toList) :
    scoreOf memory tree.toList (memory.name x) = some (memory.score x) :=
  KeyedList.lookup_of_mem holds.named member

omit [DecidableEq α] in
theorem scoreOf_eq_none_iff {nodes : List α} {name : Bytes} :
    scoreOf memory nodes name = none ↔ ∀ x ∈ nodes, memory.name x ≠ name :=
  KeyedList.lookup_eq_none_iff

/-- The score recorded when a name with the given old score is inserted again. -/
def insertedScore (old : Option Number) (score : Number) : Number :=
  old.elim score fun old => settledScore old score

theorem insertedScore_rank (old : Option Number) (score : Number) :
    (insertedScore old score).rank = score.rank := by
  cases old with
  | none => rfl
  | some old => exact settledScore_rank old score

/-- `zset_insert` sets the score of one name and reports whether the name is new. -/
theorem zsetInsert_spec (holds : zset.Holds memory tree) {node : α} (fresh : node ∉ memory.live)
    (name : Bytes) (score : Number) :
    ∃ memory' zset' tree', zsetInsert memory zset node name score =
        some ((scoreOf memory tree.toList name).isNone, memory', zset') ∧
      zset'.Holds memory' tree' ∧
      scoreOf memory' tree'.toList = Function.update (scoreOf memory tree.toList) name
        (some (insertedScore (scoreOf memory tree.toList name) score)) ∧
      (∀ x ∈ tree'.toList, x = node ∨ x ∈ tree.toList) ∧
      memory.Agrees memory' (fun x => x = node ∨ x ∈ tree.toList) := by
  obtain ⟨found, looked, lookup, lookedHolds, spec⟩ := zsetLookup_spec holds name
  cases found with
  | some found =>
      obtain ⟨member, rfl⟩ := spec
      obtain ⟨memory', zset', tree', updated, holds', perm, scores, names, live, agrees⟩ :=
        zsetUpdate_spec lookedHolds member score
      have old := holds.scoreOf_of_mem member
      refine ⟨memory', zset', tree', by simp [zsetInsert, lookup, updated, old], holds', ?_,
        fun x inTree => .inr (perm.mem_iff.mp inTree), ?_⟩
      · refine KeyedList.lookup_ext holds'.named (fun x inTree => ?_) fun name absent => ?_
        · have inOld := perm.mem_iff.mp inTree
          rw [names, scores, old]
          rcases eq_or_ne x found with rfl | other
          · rw [Function.update_self, Function.update_self]
            rfl
          · have differs : memory.name x ≠ memory.name found := fun same =>
              other (holds.named x inOld found member same)
            rw [Function.update_of_ne differs, Function.update_of_ne other]
            exact holds.scoreOf_of_mem inOld
        · rw [names] at absent
          have differs : name ≠ memory.name found := fun same =>
            absent found (perm.mem_iff.mpr member) same.symm
          rw [Function.update_of_ne differs, scoreOf_eq_none_iff]
          exact fun x inOld => absent x (perm.mem_iff.mpr inOld)
      · exact agrees.mono fun x inTree => .inr inTree
  | none =>
      obtain ⟨hmap, links, tree', indexed, inserted, holds', perm, agrees⟩ :=
        zsetAdd_spec lookedHolds fresh score spec
      have old := scoreOf_eq_none_iff.mpr spec
      have outside : node ∉ tree.toList := fun member => fresh (holds.live node member)
      have apart : ∀ x ∈ tree.toList, x ≠ node := fun x member same => outside (same ▸ member)
      refine ⟨_, _, tree', by simp [zsetInsert, lookup, indexed, inserted, old], holds', ?_,
        fun x inTree => by simpa using perm.mem_iff.mp inTree, agrees⟩
      have nameOf : ∀ x ∈ tree.toList, (znodeNew memory node name score).name x = memory.name x :=
        fun x member => Function.update_of_ne (apart x member) _ _
      refine KeyedList.lookup_ext holds'.named (fun x inTree => ?_) fun other absent => ?_
      · simp only [old]
        rcases List.mem_cons.mp (perm.mem_iff.mp inTree) with rfl | member
        · simp [znodeNew, insertedScore]
        · rw [nameOf x member, Function.update_of_ne (spec x member), holds.scoreOf_of_mem member]
          simp [znodeNew, Function.update_of_ne (apart x member)]
      · have newName : (znodeNew memory node name score).name node = name := by simp [znodeNew]
        have differs : other ≠ name := fun same =>
          absent node (perm.mem_iff.mpr List.mem_cons_self) (newName.trans same.symm)
        rw [Function.update_of_ne differs, scoreOf_eq_none_iff]
        intro x member
        rw [← nameOf x member]
        exact absent x (perm.mem_iff.mpr (List.mem_cons_of_mem _ member))

/-- `zset_delete` of a member removes its name. -/
theorem scoreOf_delete (holds : zset.Holds memory tree) {node : α} (member : node ∈ tree.toList)
    {memory' : ZMemory α} {zset' : ZSet α} {tree' : BinaryTree α}
    (holds' : zset'.Holds memory' tree') (labels : tree'.toList = tree.toList.erase node)
    (names : memory'.name = memory.name) (scores : memory'.score = memory.score) :
    scoreOf memory' tree'.toList =
      Function.update (scoreOf memory tree.toList) (memory.name node) none := by
  have inTree : ∀ x, x ∈ tree'.toList ↔ x ≠ node ∧ x ∈ tree.toList := fun x => by
    rw [labels, holds.nodup.mem_erase_iff]
  refine KeyedList.lookup_ext holds'.named (fun x inRest => ?_) fun name absent => ?_
  · obtain ⟨other, inOld⟩ := (inTree x).mp inRest
    have differs : memory.name x ≠ memory.name node := fun same =>
      other (holds.named x inOld node member same)
    rw [names, scores, Function.update_of_ne differs]
    exact holds.scoreOf_of_mem inOld
  · rw [names] at absent
    rcases eq_or_ne name (memory.name node) with rfl | differs
    · exact Function.update_self _ _ _
    · rw [Function.update_of_ne differs, scoreOf_eq_none_iff]
      intro x inOld
      rcases eq_or_ne x node with rfl | other
      · exact differs.symm
      · exact absent x ((inTree x).mpr ⟨other, inOld⟩)

theorem scoreOf_lookup {name : Bytes} {found : Option α} (holds : zset.Holds memory tree)
    (finds : FindsName memory tree.toList name found) :
    scoreOf memory tree.toList name = found.map memory.score := by
  cases found with
  | none => exact scoreOf_eq_none_iff.mpr finds
  | some node =>
      obtain ⟨member, rfl⟩ := finds
      exact holds.scoreOf_of_mem member

/-- A sorted set keeps its scores while others change. -/
theorem ZSet.Holds.scoreOf_congr (holds : zset.Holds memory tree) {memory' : ZMemory α}
    {touched : α → Prop} (agrees : memory.Agrees memory' touched)
    (apart : ∀ x ∈ tree.toList, ¬touched x) :
    scoreOf memory' tree.toList = scoreOf memory tree.toList :=
  KeyedList.lookup_congr holds.named (fun _ => .rfl) (fun x member => agrees.name x (apart x member))
    fun x member => agrees.score x (apart x member)

/-- `tree_dispose` frees each node of the tree once. -/
theorem treeDispose_spec {memory : ZMemory α} {parent : Option α}
    (holds : Represents memory.tree parent tree) (nodup : tree.toList.Nodup)
    (live : ∀ x ∈ tree.toList, x ∈ memory.live) :
    memory.treeDispose tree.root =
      some { memory with live := memory.live \ tree.toList.toFinset } := by
  induction tree generalizing memory parent with
  | nil =>
      rw [ZMemory.treeDispose.eq_def]
      simp
  | node label left right leftIh rightIh =>
      have links := Represents.exposes holds
      rw [BinaryTree.toList_node, List.nodup_append, List.nodup_cons] at nodup
      obtain ⟨leftNodup, ⟨labelRight, rightNodup⟩, across⟩ := nodup
      have labelLeft : label ∉ left.toList := fun inLeft =>
        across label inLeft label List.mem_cons_self rfl
      have rightLive : ∀ x ∈ right.toList, x ∈ memory.live \ left.toList.toFinset := by
        intro x inRight
        rw [Finset.mem_sdiff, List.mem_toFinset]
        exact ⟨live x (by simp [inRight]),
          fun inLeft => across x inLeft x (List.mem_cons_of_mem _ inRight) rfl⟩
      rw [ZMemory.treeDispose.eq_def, BinaryTree.root_node]
      simp only [links.leftLink]
      rw [leftIh links.leftTree leftNodup fun x inLeft => live x (by simp [inLeft])]
      simp only [Option.bind_eq_bind, Option.bind_some, links.rightLink]
      rw [@rightIh { memory with live := memory.live \ left.toList.toFinset } _ links.rightTree
        rightNodup rightLive]
      have labelLive : label ∈ (memory.live \ left.toList.toFinset) \ right.toList.toFinset := by
        simp [live label (by simp), labelLeft, labelRight]
      simp only [Option.bind_some, znodeDel, labelLive, guard_true, Option.bind_eq_bind,
        Option.pure_def, Option.some.injEq, ZMemory.mk.injEq, true_and]
      ext x
      simp only [Finset.mem_erase, Finset.mem_sdiff, List.mem_toFinset, BinaryTree.toList_node,
        List.mem_append, List.mem_cons]
      tauto

end MiniRedis
