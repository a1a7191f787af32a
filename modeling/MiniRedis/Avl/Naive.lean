import MiniRedis.Avl.Offset
import MiniRedis.Avl.Delete

/-!
# `avl_offset` against the naive walk

The comment in front of `avl_offset` gives it as repeated successor or predecessor
steps. Each step moves the in-order index by one, so both walks end at the same node;
and the difference of ranks at any node on the way is that of two indexes of the tree.
-/

namespace MiniRedis

open AvlMemory (avlOffsetFrom)

/-- A link which every node has. -/
abbrev NodeLink (α : Type) := α → Option α

variable {α : Type} [DecidableEq α]

/-- A loop such as `while (node->left) node = node->left`. -/
def NodeLink.followLinks (link : NodeLink α) (node : α) : Option α :=
  match link node with
  | none => some node
  | some next => link |>.followLinks next
partial_fixpoint

/-- The loop which climbs until `node` is the child of its parent on the given side. -/
def NodeLink.climbUntil (parent child : NodeLink α) (node : α) : Option (Option α) :=
  match parent node with
  | none => some none
  | some above =>
    if child above = some node then some (some above)
    else parent |>.climbUntil child above
partial_fixpoint

open NodeLink (followLinks climbUntil)

/-- `successor` and, with the sides exchanged, `predecessor`. -/
def avlNeighbor (parent near far : α → Option α) (node : α) : Option (Option α) :=
  match far node with
  | some below => (followLinks near below).map some
  | none => climbUntil parent near node

def avlSuccessor (memory : AvlMemory α) (node : α) : Option (Option α) :=
  avlNeighbor (fun x => (memory x).parent) (fun x => (memory x).left) (fun x => (memory x).right) node

def avlPredecessor (memory : AvlMemory α) (node : α) : Option (Option α) :=
  avlNeighbor (fun x => (memory x).parent) (fun x => (memory x).right) (fun x => (memory x).left) node

/-- A loop of the naive `avl_offset`, which stops early at `NULL`. -/
def repeatSteps (next : α → Option (Option α)) : Nat → Option α → Option (Option α)
  | 0, node => some node
  | _ + 1, none => some none
  | left + 1, some node => do
    let node ← next node
    repeatSteps next left node

/-- The naive `avl_offset`. -/
def avlOffsetNaive (memory : AvlMemory α) (node : α) (offset : Int) : Option (Option α) := do
  let node ← repeatSteps (avlSuccessor memory) offset.toNat (some node)
  repeatSteps (avlPredecessor memory) (-offset).toNat node

/-! ## Neighbors -/

omit [DecidableEq α] in
theorem followLinks_spec {memory : AvlMemory α} {parent : Option α} {label : α}
    {left right : BinaryTree α} (holds : Represents memory parent (.node label left right)) :
    followLinks (fun x => (memory x).left) label = (BinaryTree.node label left right).toList.head? := by
  induction left generalizing parent label right with
  | nil =>
      have links := Represents.exposes holds
      rw [followLinks, links.leftLink]
      rfl
  | node next below above belowIh _ =>
      have links := Represents.exposes holds
      rw [followLinks, links.leftLink]
      simp only [BinaryTree.root_node]
      rw [belowIh links.leftTree]
      simp [List.head?_append]

/-- The climb ends at the first node behind the subtree. -/
theorem climbUntil_spec {memory : AvlMemory α} {context : TreeContext α} {left right : BinaryTree α}
    {label : α} (holds : Represents memory none (context.plug (.node label left right)))
    (nodup : (context.plug (.node label left right)).toList.Nodup) :
    climbUntil (fun x => (memory x).parent) (fun x => (memory x).left) label =
      some context.after.head? := by
  induction context generalizing left right label with
  | nil =>
      have links := Represents.exposes (@represents_plug α memory [] _ holds).2
      rw [climbUntil, links.parentLink]
      rfl
  | cons frame outer ih =>
      obtain ⟨around, here⟩ := represents_plug holds
      have links := Represents.exposes here
      have apart := (TreeContext.nodup_plug nodup).2.2
      rw [climbUntil, links.parentLink]
      cases frame with
      | left above sibling =>
          have leftLink : (memory above).left = some label := around.2.1
          simp [TreeFrame.label, leftLink]
      | right sibling above =>
          have leftLink : (memory above).left = sibling.root := around.2.1
          have notLeft : sibling.root ≠ some label := fun top =>
            apart label (.inl (by simp [BinaryTree.mem_of_root top])) (by simp)
          simp only [TreeContext.parent_cons, TreeFrame.label, leftLink, if_neg notLeft]
          rw [@ih sibling (.node label left right) above holds nodup]
          simp

/-- `successor` of the node at an index is the node at the next one. -/
theorem avlSuccessor_spec {memory : AvlMemory α} {tree : BinaryTree α} {node : α} {index : Nat}
    (holds : Represents memory none tree) (nodup : tree.toList.Nodup)
    (position : tree.toList[index]? = some node) :
    avlSuccessor memory node = some tree.toList[index + 1]? := by
  obtain ⟨context, left, right, rfl⟩ := TreeContext.exists_plug (List.mem_of_getElem? position)
  have split : (context.plug (.node node left right)).toList =
      (context.before ++ left.toList ++ [node]) ++ (right.toList ++ context.after) := by
    simp [TreeContext.toList_plug]
  have next : (context.plug (.node node left right)).toList[index + 1]? =
      (right.toList ++ context.after).head? := by
    have length : (context.before ++ left.toList ++ [node]).length = index + 1 := by
      rw [index_plug nodup position]
      simp [BinaryTree.length_toList, Nat.add_assoc]
    rw [split, ← length, List.getElem?_append_right le_rfl, Nat.sub_self, List.head?_eq_getElem?]
  have links := Represents.exposes (represents_plug holds).2
  rw [next, avlSuccessor, avlNeighbor, links.rightLink]
  cases right with
  | nil => exact climbUntil_spec holds nodup
  | node top below above =>
      simp only [BinaryTree.root_node]
      rw [followLinks_spec links.rightTree]
      cases first : (BinaryTree.node top below above).toList with
      | nil => simp at first
      | cons head rest => simp

theorem avlPredecessor_eq_mirror (memory : AvlMemory α) (node : α) :
    avlPredecessor memory node = avlSuccessor memory.mirror node := rfl

/-- `predecessor` of the node at an index is the node at the one before. -/
theorem avlPredecessor_spec {memory : AvlMemory α} {tree : BinaryTree α} {node : α} {index : Nat}
    (holds : Represents memory none tree) (nodup : tree.toList.Nodup)
    (position : tree.toList[index]? = some node) :
    avlPredecessor memory node = some (elementAt tree.toList (index - 1)) := by
  obtain ⟨inside, here⟩ := List.getElem?_eq_some_iff.mp position
  have reversed : tree.mirror.toList[tree.toList.length - 1 - index]? = some node := by
    have back : tree.toList.length - 1 - (tree.toList.length - 1 - index) = index := by omega
    rw [BinaryTree.toList_mirror, List.getElem?_reverse (by omega), back, position]
  have successor := avlSuccessor_spec (represents_mirror holds)
    (by rw [BinaryTree.toList_mirror]; exact List.nodup_reverse.mpr nodup) reversed
  rw [avlPredecessor_eq_mirror, successor, BinaryTree.toList_mirror]
  cases index with
  | zero =>
      rw [elementAt_of_outside (by omega), List.getElem?_eq_none]
      rw [List.length_reverse]
      omega
  | succ index =>
      rw [List.getElem?_reverse (by omega), elementAt, if_pos (by omega)]
      congr 2
      omega

/-! ## The naive walk -/

omit [DecidableEq α] in
/-- Steps by one index in some direction add up; `ahead` holds of the indexes on the way,
and beyond the end of the list on that side there is nothing. -/
theorem repeatSteps_spec {list : List α} {next : α → Option (Option α)} {direction : Int}
    {ahead : Int → Prop}
    (step : ∀ (i : Nat) x, list[i]? = some x → next x = some (elementAt list (i + direction)))
    (moves : ∀ i, ahead i → ahead (i + direction))
    (beyond : ∀ i, ahead i → ∀ n : Nat, elementAt list i = none →
      elementAt list (i + direction * n) = none)
    (n : Nat) {i : Int} (start : ahead i) :
    repeatSteps next n (elementAt list i) = some (elementAt list (i + direction * n)) := by
  induction n generalizing i with
  | zero => simp [repeatSteps]
  | succ n ih =>
      cases here : elementAt list i with
      | none => rw [repeatSteps, beyond i start _ here]
      | some x =>
          have positive : 0 ≤ i := by
            by_contra negative
            rw [elementAt, if_neg negative] at here
            cases here
          have position : list[i.toNat]? = some x := by
            rwa [elementAt, if_pos positive] at here
          have index : (i.toNat : Int) = i := Int.toNat_of_nonneg positive
          have total : i + direction + direction * (n : Int) = i + direction * ((n + 1 : Nat) : Int) := by
            push_cast
            ring
          rw [repeatSteps, step i.toNat x position, index, Option.bind_eq_bind, Option.bind_some,
            ih (moves i start), total]

/-- The naive walk ends at the node as many places away as asked, if there is one. -/
theorem avlOffsetNaive_spec {memory : AvlMemory α} {tree : BinaryTree α} {node : α} {index : Nat}
    (holds : Represents memory none tree) (nodup : tree.toList.Nodup)
    (position : tree.toList[index]? = some node) (offset : Int) :
    avlOffsetNaive memory node offset = some (elementAt tree.toList (index + offset)) := by
  have inside : index < tree.toList.length := (List.getElem?_eq_some_iff.mp position).1
  have here : some node = elementAt tree.toList index := by
    rw [elementAt, if_pos (by omega), Int.toNat_natCast, position]
  have absent : ∀ i : Int, elementAt tree.toList i = none → i < 0 ∨ (tree.toList.length : Int) ≤ i := by
    intro i missing
    rw [elementAt] at missing
    split at missing
    next => rw [List.getElem?_eq_none_iff] at missing; omega
    next negative => omega
  have forward := fun n : Nat => @repeatSteps_spec _ tree.toList (avlSuccessor memory) 1 (0 ≤ ·)
    (fun i x at_ => by
      rw [avlSuccessor_spec holds nodup at_, elementAt, if_pos (by omega)]
      rfl)
    (fun i ahead => by omega)
    (fun i ahead n missing => elementAt_of_outside (by have far := absent i missing; omega))
    n index (by omega)
  have backward := fun n : Nat => @repeatSteps_spec _ tree.toList (avlPredecessor memory) (-1)
    (· < tree.toList.length)
    (fun i x at_ => by rw [avlPredecessor_spec holds nodup at_, Int.sub_eq_add_neg])
    (fun i ahead => by omega)
    (fun i ahead n missing => elementAt_of_outside (by have far := absent i missing; omega))
    n index (by omega)
  rw [avlOffsetNaive, here, Option.bind_eq_bind]
  by_cases direction : 0 ≤ offset
  · have none_back : (-offset).toNat = 0 := by omega
    rw [forward, Option.bind_some, none_back, repeatSteps]
    congr 2
    omega
  · have none_forth : offset.toNat = 0 := by omega
    rw [none_forth, repeatSteps, Option.bind_some, backward]
    congr 2
    omega

/-! ## Rank differences -/

/-- One turn of the loop in `avl_offset`: the next node and rank difference. -/
def avlOffsetTurn (memory : AvlMemory α) (offset : Int) (node : α) (rankDiff : Int) :
    Option (α × Int) :=
  if rankDiff = offset then none
  else if rankDiff < offset ∧ rankDiff + avlCnt memory (memory node).right ≥ offset then
    (memory node).right.map fun right => (right, rankDiff + (avlCnt memory (memory right).left + 1))
  else if rankDiff > offset ∧ rankDiff - avlCnt memory (memory node).left ≤ offset then
    (memory node).left.map fun left => (left, rankDiff - (avlCnt memory (memory left).right + 1))
  else
    (memory node).parent.map fun parent =>
      if (memory parent).right = some node then
        (parent, rankDiff - (avlCnt memory (memory node).left + 1))
      else (parent, rankDiff + (avlCnt memory (memory node).right + 1))

theorem avlOffsetFrom_turn {memory : AvlMemory α} {offset : Int} {node next : α}
    {rankDiff rankDiff' : Int}
    (turn : avlOffsetTurn memory offset node rankDiff = some (next, rankDiff')) :
    avlOffsetFrom memory offset node rankDiff = avlOffsetFrom memory offset next rankDiff' := by
  rw [avlOffsetTurn] at turn
  rw [avlOffsetFrom]
  split at turn
  · cases turn
  next notHere =>
    rw [if_neg notHere]
    split at turn
    next right =>
      rw [if_pos right]
      cases link : (memory node).right with
      | none => simp [link] at turn
      | some right =>
          rw [link, Option.map_some, Option.some.injEq, Prod.mk.injEq] at turn
          obtain ⟨rfl, rfl⟩ := turn
          rfl
    next notRight =>
      rw [if_neg notRight]
      split at turn
      next left =>
        rw [if_pos left]
        cases link : (memory node).left with
        | none => simp [link] at turn
        | some left =>
            rw [link, Option.map_some, Option.some.injEq, Prod.mk.injEq] at turn
            obtain ⟨rfl, rfl⟩ := turn
            rfl
      next notLeft =>
        rw [if_neg notLeft]
        cases link : (memory node).parent with
        | none => simp [link] at turn
        | some parent =>
            rw [link, Option.map_some, Option.some.injEq] at turn
            simp only
            split at turn
            next side =>
              obtain ⟨rfl, rfl⟩ := Prod.mk.inj turn
              rw [if_pos side]
            next side =>
              obtain ⟨rfl, rfl⟩ := Prod.mk.inj turn
              rw [if_neg side]

/-- The nodes and rank differences at the head of the loop. -/
inductive OffsetVisits (memory : AvlMemory α) (offset : Int) (start : α) : α → Int → Prop where
  | start : OffsetVisits memory offset start start 0
  | turn {node next : α} {rankDiff rankDiff' : Int}
      (before : OffsetVisits memory offset start node rankDiff)
      (turn : avlOffsetTurn memory offset node rankDiff = some (next, rankDiff')) :
      OffsetVisits memory offset start next rankDiff'

/-- A turn moves the rank difference with the in-order index. -/
theorem avlOffsetTurn_index {memory : AvlMemory α} {tree : BinaryTree α} {offset : Int}
    {node next : α} {index : Nat} {rankDiff rankDiff' : Int} (holds : Represents memory none tree)
    (nodup : tree.toList.Nodup) (position : tree.toList[index]? = some node)
    (turn : avlOffsetTurn memory offset node rankDiff = some (next, rankDiff')) :
    ∃ index' : Nat, tree.toList[index']? = some next ∧
      (index' : Int) - rankDiff' = index - rankDiff := by
  obtain ⟨context, left, right, rfl⟩ := TreeContext.exists_plug (List.mem_of_getElem? position)
  have index_eq := index_plug nodup position
  obtain ⟨around, here⟩ := represents_plug holds
  have links := Represents.exposes here
  rw [avlOffsetTurn, links.leftLink, links.rightLink, links.parentLink] at turn
  split at turn
  · cases turn
  · split at turn
    · -- down to the right
      cases right with
      | nil => simp at turn
      | node top first second =>
          have below := links.rightTree.exposes
          simp only [BinaryTree.root_node, Option.map_some, Option.some.injEq, Prod.mk.injEq,
            below.leftLink, below.leftTree.avlCnt] at turn
          obtain ⟨rfl, rfl⟩ := turn
          refine ⟨_, TreeContext.getElem?_plug (.right left node :: context) first second top, ?_⟩
          simp only [TreeContext.before_right, List.length_append, List.length_singleton,
            BinaryTree.length_toList]
          omega
    · split at turn
      · -- down to the left
        cases left with
        | nil => simp at turn
        | node top first second =>
            have below := links.leftTree.exposes
            simp only [BinaryTree.root_node, Option.map_some, Option.some.injEq, Prod.mk.injEq,
              below.rightLink, below.rightTree.avlCnt] at turn
            obtain ⟨rfl, rfl⟩ := turn
            refine ⟨_, TreeContext.getElem?_plug (.left node right :: context) first second top, ?_⟩
            simp only [TreeContext.before_left, BinaryTree.numNodes] at index_eq ⊢
            omega
      · -- up to the parent
        cases context with
        | nil => simp at turn
        | cons frame outer =>
            have apart := (TreeContext.nodup_plug nodup).2.2
            simp only [TreeContext.parent_cons, Option.map_some, Option.some.injEq] at turn
            cases frame with
            | left above sibling =>
                have rightLink : (memory above).right = sibling.root := around.2.2.1
                have notRight : sibling.root ≠ some node := fun top =>
                  apart node (.inr (by simp [BinaryTree.mem_of_root top])) (by simp)
                rw [TreeFrame.label, rightLink, if_neg notRight, Prod.mk.injEq,
                  links.rightTree.avlCnt] at turn
                obtain ⟨rfl, rfl⟩ := turn
                refine ⟨_, TreeContext.getElem?_plug outer (.node node left right) sibling above, ?_⟩
                simp only [TreeContext.before_left, BinaryTree.numNodes] at index_eq ⊢
                omega
            | right sibling above =>
                have rightLink : (memory above).right = some node := around.2.2.1
                rw [TreeFrame.label, rightLink, if_pos rfl, Prod.mk.injEq,
                  links.leftTree.avlCnt] at turn
                obtain ⟨rfl, rfl⟩ := turn
                refine ⟨_, TreeContext.getElem?_plug outer sibling (.node node left right) above, ?_⟩
                simp only [TreeContext.before_right, List.length_append, List.length_singleton,
                  BinaryTree.length_toList] at index_eq ⊢
                omega

theorem OffsetVisits.index {memory : AvlMemory α} {tree : BinaryTree α} {offset : Int}
    {start node : α} {index : Nat} {rankDiff : Int} (holds : Represents memory none tree)
    (nodup : tree.toList.Nodup) (position : tree.toList[index]? = some start)
    (visits : OffsetVisits memory offset start node rankDiff) :
    ∃ index' : Nat, tree.toList[index']? = some node ∧ (index' : Int) = index + rankDiff := by
  induction visits with
  | start => exact ⟨index, position, by omega⟩
  | turn before turn ih =>
      obtain ⟨middle, there, sum⟩ := ih
      obtain ⟨index', next, kept⟩ := avlOffsetTurn_index holds nodup there turn
      exact ⟨index', next, by omega⟩

/-- From each visited node on, the loop continues as from the start. -/
theorem OffsetVisits.result {memory : AvlMemory α} {offset : Int} {start node : α} {rankDiff : Int}
    (visits : OffsetVisits memory offset start node rankDiff) :
    avlOffset memory start offset = avlOffsetFrom memory offset node rankDiff := by
  induction visits with
  | start => rfl
  | turn before turn ih => rw [ih, avlOffsetFrom_turn turn]

omit [DecidableEq α] in
/-- A subtree has no more nodes than the tree. -/
theorem avlCnt_le {memory : AvlMemory α} {tree : BinaryTree α} {node : α}
    (holds : Represents memory none tree) (member : node ∈ tree.toList) :
    avlCnt memory (memory node).left + avlCnt memory (memory node).right + 1 ≤ tree.numNodes := by
  obtain ⟨context, left, right, rfl⟩ := TreeContext.exists_plug member
  have links := Represents.exposes (represents_plug holds).2
  have total := congrArg List.length (@TreeContext.toList_plug _ context (.node node left right))
  simp only [List.length_append, BinaryTree.length_toList, BinaryTree.numNodes] at total
  rw [links.leftLink, links.rightLink, links.leftTree.avlCnt, links.rightTree.avlCnt, total]
  omega

/-- The value fits in an `int64_t`. -/
def FitsInt64 (value : Int) : Prop := -2 ^ 63 ≤ value ∧ value < 2 ^ 63

/-- On a well-formed tree `avl_offset` terminates and agrees with the naive walk: both return
the node at the index moved by `offset`. With counts in 32 bits neither a rank difference
nor a sum that is compared with `offset` overflows. -/
theorem avl_offset_naive {memory : AvlMemory α} {tree : BinaryTree α} {node : α} {index : Nat}
    (holds : Represents memory none tree) (nodup : tree.toList.Nodup)
    (position : tree.toList[index]? = some node) (offset : Int) :
    avlOffset memory node offset = avlOffsetNaive memory node offset ∧
      avlOffset memory node offset = some (elementAt tree.toList (index + offset)) ∧
      (avlOffset memory node offset = some none ↔
        index + offset < 0 ∨ (tree.toList.length : Int) ≤ index + offset) ∧
      (tree.numNodes < 2 ^ 32 → ∀ x rankDiff, OffsetVisits memory offset node x rankDiff →
        avlOffset memory node offset = avlOffsetFrom memory offset x rankDiff ∧
          FitsInt64 rankDiff ∧ FitsInt64 (rankDiff + avlCnt memory (memory x).right) ∧
          FitsInt64 (rankDiff - avlCnt memory (memory x).left) ∧
          avlCnt memory (memory x).left + 1 < 2 ^ 32 ∧ avlCnt memory (memory x).right + 1 < 2 ^ 32) := by
  have target := avlOffset_spec holds nodup position offset
  refine ⟨by rw [target, avlOffsetNaive_spec holds nodup position], target, ?_, ?_⟩
  · rw [target, Option.some.injEq]
    constructor
    · intro missing
      rw [elementAt] at missing
      split at missing
      next => rw [List.getElem?_eq_none_iff] at missing; omega
      next negative => omega
    · exact elementAt_of_outside
  · intro small x rankDiff visits
    obtain ⟨index', here, sum⟩ := visits.index holds nodup position
    have counts := avlCnt_le holds (List.mem_of_getElem? here)
    have inside := (List.getElem?_eq_some_iff.mp position).1
    have inside' := (List.getElem?_eq_some_iff.mp here).1
    rw [BinaryTree.length_toList] at inside inside'
    refine ⟨visits.result, ?_⟩
    simp only [FitsInt64]
    norm_num at small ⊢
    omega

/-- From the root of a tree of two nodes, the largest offset leads outside. -/
theorem avl_offset_naive_pair : ∃ memory : AvlMemory Nat,
    avlOffset memory 1 1 = some (some 2) ∧ avlOffset memory 1 (2 ^ 63 - 1) = some none := by
  let memory : AvlMemory Nat := fun x =>
    if x = 1 then { right := some 2, height := 2, cnt := 2 } else { parent := some 1, height := 1, cnt := 1 }
  have holds : Represents memory none (.node 1 .nil (.node 2 .nil .nil)) := ⟨rfl, trivial, rfl, trivial, trivial⟩
  have nodup : (BinaryTree.node 1 .nil (.node 2 .nil .nil)).toList.Nodup := by decide
  have position : (BinaryTree.node 1 .nil (.node 2 .nil .nil)).toList[0]? = some 1 := rfl
  refine ⟨memory, ?_, ?_⟩
  · exact (avl_offset_naive holds nodup position 1).2.1
  · rw [(avl_offset_naive holds nodup position (2 ^ 63 - 1)).2.2.1]
    right
    decide

end MiniRedis
