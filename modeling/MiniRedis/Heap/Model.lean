import Mathlib

/-!
# The indexed binary heap of `heap.cpp`

An item refers to the `heap_idx` field of one owner, so the model keeps these fields
next to the array: `heapIdx` maps an owner to its index, `none` being `(size_t)-1`.
-/

namespace MiniRedis

/-- `HeapItem`; `ref` names the owner of the `heap_idx` field pointed at. -/
structure HeapItem (α : Type) where
  val : Nat
  ref : α
  deriving DecidableEq

/-- The array and the `heap_idx` fields which point back into it. -/
structure TtlHeap (α : Type) where
  arr : List (HeapItem α) := []
  heapIdx : α → Option Nat

variable {α : Type} [DecidableEq α]

/-- Positions of the parent and of the two children, as in `heap.cpp`. -/
def idxParent (i : Nat) : Nat := (i - 1) / 2

def idxLeft (i : Nat) : Nat := i * 2 + 1

def idxRight (i : Nat) : Nat := i * 2 + 2

/-- `arr[pos] = item; *arr[pos].ref = pos`. -/
def TtlHeap.put (heap : TtlHeap α) (pos : Nat) (item : HeapItem α) : TtlHeap α where
  arr := heap.arr.set pos item
  heapIdx := Function.update heap.heapIdx item.ref (some pos)

/-- The loop of `sift_up`, which carries `item` from the hole at `pos`. -/
def siftUpFrom (heap : TtlHeap α) (item : HeapItem α) (pos : Nat) : Option (TtlHeap α) :=
  if pos > 0 then
    match heap.arr[idxParent pos]? with
    | none => none
    | some above =>
      if above.val > item.val then siftUpFrom (heap.put pos above) item (idxParent pos)
      else some (heap.put pos item)
  else some (heap.put pos item)
termination_by pos
decreasing_by simp only [idxParent]; omega

/-- `sift_up`: the item is taken out, the hole moves up, and the item is stored. -/
def siftUp (heap : TtlHeap α) (pos : Nat) : Option (TtlHeap α) := do
  let item ← heap.arr[pos]?
  siftUpFrom heap item pos

/-- One of the two comparisons of `sift_down`: a kid in range takes over if it is smaller. -/
def smallerKid (arr : List (HeapItem α)) (len kid : Nat) (best : Nat × Nat) : Option (Nat × Nat) :=
  if kid < len then
    match arr[kid]? with
    | none => none
    | some item => if item.val < best.2 then some (kid, item.val) else some best
  else some best

/-- `min_pos` and `min_val` among the hole and its kids. -/
def minAround (arr : List (HeapItem α)) (item : HeapItem α) (pos len : Nat) :
    Option (Nat × Nat) := do
  let best ← smallerKid arr len (idxLeft pos) (pos, item.val)
  smallerKid arr len (idxRight pos) best

omit [DecidableEq α] in
/-- The choice is the one made so far, or this child. -/
theorem smallerKid_cases {arr : List (HeapItem α)} {len kid : Nat} {best result : Nat × Nat}
    (run : smallerKid arr len kid best = some result) :
    result = best ∨ result.1 = kid ∧ kid < len := by
  unfold smallerKid at run
  split at run
  · split at run
    · simp at run
    · split at run <;> simp at run <;> subst run <;> simp [*]
  · simp at run
    exact .inl run.symm

omit [DecidableEq α] in
/-- The hole moves down, and stays in the heap. -/
theorem lt_of_minAround {arr : List (HeapItem α)} {item : HeapItem α} {pos len : Nat}
    {result : Nat × Nat} (run : minAround arr item pos len = some result)
    (moves : result.1 ≠ pos) : pos < result.1 ∧ result.1 < len := by
  obtain ⟨best, first, second⟩ := Option.bind_eq_some_iff.mp run
  simp only [idxLeft, idxRight] at first second
  rcases smallerKid_cases second with rfl | ⟨right, inside⟩
  · rcases smallerKid_cases first with rfl | ⟨left, inside⟩
    · exact absurd rfl moves
    · omega
  · omega

set_option linter.unusedVariables false in
/-- The loop of `sift_down`. -/
def siftDownFrom (heap : TtlHeap α) (item : HeapItem α) (pos len : Nat) : Option (TtlHeap α) :=
  match least : minAround heap.arr item pos len with
  | none => none
  | some (minPos, _) =>
    if stays : minPos = pos then some (heap.put pos item)
    else
      match heap.arr[minPos]? with
      | none => none
      | some kid => siftDownFrom (heap.put pos kid) item minPos len
termination_by len - pos
decreasing_by
  have bounds := lt_of_minAround least stays
  simp only at bounds
  omega

/-- `sift_down`: the hole moves to the smaller child as long as that is smaller than the item. -/
def siftDown (heap : TtlHeap α) (pos len : Nat) : Option (TtlHeap α) := do
  let item ← heap.arr[pos]?
  siftDownFrom heap item pos len

/-- `sift`: up if the parent is larger, else down. -/
def sift (heap : TtlHeap α) (pos len : Nat) : Option (TtlHeap α) :=
  if pos > 0 then do
    let above ← heap.arr[idxParent pos]?
    let item ← heap.arr[pos]?
    if above.val > item.val then siftUp heap pos else siftDown heap pos len
  else siftDown heap pos len

/-- `heap_delete`: the last item fills the place, and is sifted from there. -/
def heapDelete (heap : TtlHeap α) (pos : Nat) : Option (TtlHeap α) := do
  guard (pos < heap.arr.length)
  let last ← heap.arr.getLast?
  let heap := { heap with arr := (heap.arr.set pos last).dropLast }
  if pos = heap.arr.length then return heap
  else sift heap pos heap.arr.length

/-- `pos` is `none` for the index `(size_t)-1` of an owner without an item. -/
def heapUpsert (heap : TtlHeap α) (pos : Option Nat) (item : HeapItem α) : Option (TtlHeap α) :=
  match pos with
  | some pos =>
    if pos < heap.arr.length then
      let heap := { heap with arr := heap.arr.set pos item }
      sift heap pos heap.arr.length
    else none
  | none =>
    let pos := heap.arr.length
    let heap := { heap with arr := heap.arr ++ [item] }
    sift heap pos heap.arr.length

end MiniRedis
