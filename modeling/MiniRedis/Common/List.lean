import MiniRedis.Library.Ring

/-!
# The doubly linked list of `list.cpp`

The pointers of all nodes are two functions; a failed result is a read through `NULL`.
-/

namespace MiniRedis

open Ring

variable {ν : Type} [DecidableEq ν]

/-- The links of the `DList` nodes in memory. -/
structure DList (ν : Type) where
  prev : ν → Option ν := fun _ => none
  next : ν → Option ν := fun _ => none

/-- `dlist_init`: the node is a list of its own. -/
def dlistInit (list : DList ν) (node : ν) : DList ν where
  prev := Function.update list.prev node (some node)
  next := Function.update list.next node (some node)

/-- `dlist_empty`. -/
def dlistEmpty (list : DList ν) (node : ν) : Bool := list.next node = some node

/-- `dlist_detach`: the neighbours of the node are linked to each other. -/
def dlistDetach (list : DList ν) (node : ν) : Option (DList ν) := do
  let prev ← list.prev node
  let next ← list.next node
  return {
    next := Function.update list.next prev (some next)
    prev := Function.update list.prev next (some prev) }

/-- `dlist_insert_before`; at the head it appends. -/
def dlistInsertBefore (list : DList ν) (target rookie : ν) : Option (DList ν) := do
  let prev ← list.prev target
  return {
    next := Function.update (Function.update list.next prev (some rookie)) rookie (some target)
    prev := Function.update (Function.update list.prev rookie (some prev)) target (some rookie) }

/-- A well-linked list with the given members behind its dummy head. -/
def DList.Ring (list : DList ν) (head : ν) (members : List ν) : Prop :=
  Linked list.next list.prev head members

variable {list : DList ν} {head : ν}

/-- A fresh head is an empty ring. -/
theorem dlistInit_spec (list : DList ν) (head : ν) : (dlistInit list head).Ring head [] :=
  .empty (by simp [dlistInit]) (by simp [dlistInit])

/-- The test sees whether the ring has members. -/
theorem dlistEmpty_spec {members : List ν} (ring : list.Ring head members) :
    dlistEmpty list head = members.isEmpty := by
  rw [dlistEmpty, ring.first]
  cases members with
  | nil => simp
  | cons node rest =>
      have distinct : node ≠ head := fun same =>
        (List.nodup_cons.mp ring.distinct).1 (by simp [same])
      simp [distinct]

/-- Any member can be taken out, and the others keep their order. -/
theorem dlistDetach_spec {front back : List ν} {node : ν}
    (ring : list.Ring head (front ++ node :: back)) :
    ∃ list', dlistDetach list node = some list' ∧ list'.Ring head (front ++ back) := by
  obtain ⟨before, after, prev, next, ring'⟩ := Linked.detach ring
  refine ⟨⟨Function.update list.prev after (some before), Function.update list.next before (some after)⟩,
    ?_, ring'⟩
  simp [dlistDetach, prev, next]

/-- In front of the head, a node which is not in the ring becomes its last member. -/
theorem dlistInsertBefore_spec {members : List ν} {rookie : ν} (ring : list.Ring head members)
    (fresh : rookie ∉ head :: members) :
    ∃ list', dlistInsertBefore list head rookie = some list' ∧
      list'.Ring head (members ++ [rookie]) := by
  obtain ⟨last, prev, ring'⟩ := Linked.insertBefore ring fresh
  refine ⟨⟨Function.update (Function.update list.prev rookie (some last)) head (some rookie),
    Function.update (Function.update list.next last (some rookie)) rookie (some head)⟩, ?_, ring'⟩
  simp [dlistInsertBefore, prev]

end MiniRedis
