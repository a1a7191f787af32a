import MiniRedis.Heap.Model
import MiniRedis.Library.HeapOrder

/-!
# Sifting keeps order, content and back-pointers

Both loops carry one item over a hole. Writing the carried item into the hole would
give the array its final content, so a move only has to exchange two positions of
that array.
-/

namespace MiniRedis

open HeapOrder

variable {α : Type}

/-- The key at an index; the default outside the array is never compared. -/
def keyAt (arr : List (HeapItem α)) (i : Nat) : Nat := arr[i]?.elim 0 HeapItem.val

theorem keyAt_of_getElem? {arr : List (HeapItem α)} {i : Nat} {item : HeapItem α}
    (slot : arr[i]? = some item) : keyAt arr i = item.val := by
  rw [keyAt, slot]
  rfl

theorem keyAt_set {arr : List (HeapItem α)} {pos : Nat} (inside : pos < arr.length)
    (item : HeapItem α) : keyAt (arr.set pos item) = Function.update (keyAt arr) pos item.val := by
  funext i
  rcases eq_or_ne i pos with rfl | apart
  · rw [Function.update_self, keyAt_of_getElem? (List.getElem?_set_self inside)]
  · rw [Function.update_of_ne apart, keyAt, keyAt, List.getElem?_set_ne apart.symm]

/-- Filling two positions one after the other, in either order, exchanges their items. -/
theorem set_set_perm {arr : List (HeapItem α)} {pos other : Nat} {item kid : HeapItem α}
    (inside : pos < arr.length) (apart : other ≠ pos) (slot : arr[other]? = some kid) :
    ((arr.set pos kid).set other item).Perm (arr.set pos item) := by
  obtain ⟨bound, value⟩ := List.getElem?_eq_some_iff.mp slot
  have exchange := @List.set_set_perm _ (arr.set pos item) pos other (by simpa using inside)
    (by simpa using bound)
  rw [List.getElem_set_self, List.getElem_set_ne apart.symm, value, List.set_set] at exchange
  exact exchange

namespace TtlHeap

/-- Order, and `*heap[i].ref = i`. -/
structure Valid (heap : TtlHeap α) : Prop where
  back : ∀ (i : Nat) (item : HeapItem α), heap.arr[i]? = some item →
    heap.heapIdx item.ref = some i
  ordered : Ordered (keyAt heap.arr) heap.arr.length

/-- The back-pointers of a heap with a hole at `pos`, over which `item` is carried. -/
structure Carrying (heap : TtlHeap α) (item : HeapItem α) (pos : Nat) : Prop where
  inside : pos < heap.arr.length
  back : ∀ (i : Nat) (other : HeapItem α), i ≠ pos → heap.arr[i]? = some other →
    heap.heapIdx other.ref = some i ∧ other.ref ≠ item.ref

/-- What a sift makes of the heap in which `item` fills the hole. -/
structure Settles (heap : TtlHeap α) (item : HeapItem α) (pos : Nat) (heap' : TtlHeap α) :
    Prop where
  valid : heap'.Valid
  content : heap'.arr.Perm (heap.arr.set pos item)
  frame : ∀ x ∉ (heap.arr.set pos item).map HeapItem.ref, heap'.heapIdx x = heap.heapIdx x

variable [DecidableEq α] {heap : TtlHeap α} {item : HeapItem α} {pos : Nat}

@[simp] theorem put_arr : (heap.put pos item).arr = heap.arr.set pos item := rfl

theorem put_heapIdx_of_ne {x : α} (other : x ≠ item.ref) :
    (heap.put pos item).heapIdx x = heap.heapIdx x :=
  Function.update_of_ne other _ _

/-- Moving an item into the hole leaves a hole where it was. -/
theorem Carrying.move (carrying : heap.Carrying item pos) {other : Nat} {kid : HeapItem α}
    (apart : other ≠ pos) (slot : heap.arr[other]? = some kid) :
    (heap.put pos kid).Carrying item other where
  inside := by
    rw [put, List.length_set]
    exact (List.getElem?_eq_some_iff.mp slot).1
  back i x notHole slot' := by
    obtain ⟨kidIdx, kidRef⟩ := carrying.back other kid apart slot
    simp only [put] at slot' ⊢
    rcases eq_or_ne i pos with rfl | elsewhere
    · rw [List.getElem?_set_self carrying.inside, Option.some.injEq] at slot'
      subst slot'
      exact ⟨Function.update_self _ _ _, kidRef⟩
    · rw [List.getElem?_set_ne elsewhere.symm] at slot'
      obtain ⟨idx, ref⟩ := carrying.back i x elsewhere slot'
      refine ⟨?_, ref⟩
      rw [Function.update_of_ne, idx]
      intro same
      rw [same, kidIdx] at idx
      exact notHole (Option.some.inj idx).symm

/-- Filling the hole ends a sift once the order allows it. -/
theorem Carrying.settle (carrying : heap.Carrying item pos)
    (ordered : Ordered (Function.update (keyAt heap.arr) pos item.val) heap.arr.length) :
    heap.Settles item pos (heap.put pos item) where
  valid := by
    refine ⟨fun i x slot => ?_, ?_⟩
    · simp only [put] at slot ⊢
      rcases eq_or_ne i pos with rfl | elsewhere
      · rw [List.getElem?_set_self carrying.inside, Option.some.injEq] at slot
        subst slot
        exact Function.update_self _ _ _
      · rw [List.getElem?_set_ne elsewhere.symm] at slot
        obtain ⟨idx, ref⟩ := carrying.back i x elsewhere slot
        rw [Function.update_of_ne ref, idx]
    · rw [put, keyAt_set carrying.inside, List.length_set]
      exact ordered
  content := .refl _
  frame x outside := by
    apply put_heapIdx_of_ne
    rintro rfl
    exact outside (List.mem_map_of_mem (List.mem_set carrying.inside item))

theorem Settles.of_move {other : Nat} {kid : HeapItem α} {heap' : TtlHeap α}
    (carrying : heap.Carrying item pos) (apart : other ≠ pos) (slot : heap.arr[other]? = some kid)
    (settles : (heap.put pos kid).Settles item other heap') : heap.Settles item pos heap' := by
  have exchange : ((heap.arr.set pos kid).set other item).Perm (heap.arr.set pos item) :=
    set_set_perm carrying.inside apart slot
  refine ⟨settles.valid, settles.content.trans exchange, fun x outside => ?_⟩
  have outside' : x ∉ ((heap.put pos kid).arr.set other item).map HeapItem.ref := by
    rw [put_arr, (exchange.map _).mem_iff]
    exact outside
  have kept : (heap.arr.set pos item)[other]? = some kid := by
    rw [List.getElem?_set_ne apart.symm, slot]
  rw [settles.frame x outside']
  apply put_heapIdx_of_ne
  rintro rfl
  exact outside (List.mem_map_of_mem (List.mem_of_getElem? kept))

end TtlHeap

variable [DecidableEq α] {heap : TtlHeap α} {item : HeapItem α} {pos : Nat}

/-- `sift_up` settles an item which is no larger than what is below the hole. -/
theorem siftUpFrom_spec (carrying : heap.Carrying item pos)
    (climbing : Climbing (keyAt heap.arr) heap.arr.length pos item.val) :
    ∃ heap', siftUpFrom heap item pos = some heap' ∧ heap.Settles item pos heap' := by
  induction pos using Nat.strong_induction_on generalizing heap with
  | _ pos ih =>
      rw [siftUpFrom]
      split
      next positive =>
        have link : IsChild pos (idxParent pos) := ⟨positive, rfl⟩
        have behind := link.lt
        have inside := carrying.inside
        obtain ⟨above, slot⟩ : ∃ above, heap.arr[idxParent pos]? = some above :=
          ⟨_, List.getElem?_eq_getElem (lt_trans behind inside)⟩
        have key := keyAt_of_getElem? slot
        rw [slot]
        simp only
        split
        next larger =>
          have moved := carrying.move behind.ne slot
          have order := climbing.move link inside (by rw [key]; exact larger)
          rw [key, ← keyAt_set inside, ← List.length_set] at order
          obtain ⟨heap', run, settles⟩ := ih _ behind moved order
          exact ⟨heap', run, settles.of_move carrying behind.ne slot⟩
        next fits =>
          refine ⟨_, rfl, carrying.settle (climbing.fill (fun parent link' => ?_) climbing.below)⟩
          rw [link'.unique link, key]
          exact Nat.le_of_not_lt fits
      next root =>
        refine ⟨_, rfl, carrying.settle (climbing.fill (fun parent link' => ?_) climbing.below)⟩
        exact absurd link'.1 root

omit [DecidableEq α] in
/-- The comparisons of `sift_down` keep the smallest key seen so far. -/
theorem smallerKid_spec {arr : List (HeapItem α)} {len kid : Nat} {best : Nat × Nat}
    (bound : len = arr.length) : ∃ result, smallerKid arr len kid best = some result ∧
      (result = best ∨ result = (kid, keyAt arr kid) ∧ kid < len) ∧ result.2 ≤ best.2 ∧
      (kid < len → result.2 ≤ keyAt arr kid) ∧ (result ≠ best → result.2 < best.2) := by
  unfold smallerKid
  split
  next inside =>
    obtain ⟨item, slot⟩ : ∃ item, arr[kid]? = some item :=
      ⟨_, List.getElem?_eq_getElem (bound ▸ inside)⟩
    have key := keyAt_of_getElem? slot
    rw [slot]
    simp only
    split
    next smaller =>
      refine ⟨_, rfl, .inr ⟨by rw [key], inside⟩, smaller.le, fun _ => by rw [key], fun _ => smaller⟩
    next larger =>
      refine ⟨_, rfl, .inl rfl, le_rfl, fun _ => ?_, fun differs => absurd rfl differs⟩
      rw [key]
      exact Nat.le_of_not_lt larger
  next outside =>
    exact ⟨_, rfl, .inl rfl, le_rfl, fun inside => absurd inside outside,
      fun differs => absurd rfl differs⟩

omit [DecidableEq α] in
/-- Either the carried key is the smallest, or the smallest child is found. -/
theorem minAround_spec {arr : List (HeapItem α)} {len : Nat} (item : HeapItem α) (pos : Nat)
    (bound : len = arr.length) :
    ∃ minPos minVal, minAround arr item pos len = some (minPos, minVal) ∧
      (∀ child, IsChild child pos → child < len → minVal ≤ keyAt arr child) ∧
      (minPos = pos ∧ minVal = item.val ∨
        IsChild minPos pos ∧ minPos < len ∧ minVal = keyAt arr minPos ∧ minVal < item.val) := by
  obtain ⟨best, first, firstCases, firstLe, firstKid, firstLt⟩ :=
    @smallerKid_spec _ arr len (idxLeft pos) (pos, item.val) bound
  obtain ⟨⟨minPos, minVal⟩, second, secondCases, secondLe, secondKid, secondLt⟩ :=
    @smallerKid_spec _ arr len (idxRight pos) best bound
  have left : IsChild (idxLeft pos) pos := isChild_iff.mpr (.inl (by rw [idxLeft]; omega))
  have right : IsChild (idxRight pos) pos := isChild_iff.mpr (.inr (by rw [idxRight]; omega))
  refine ⟨minPos, minVal, by simp [minAround, first, second], fun child link inside => ?_, ?_⟩
  · rcases isChild_iff.mp link with rfl | rfl
    · have same : idxLeft pos = 2 * pos + 1 := by rw [idxLeft]; omega
      rw [same] at firstKid
      exact secondLe.trans (firstKid inside)
    · have same : idxRight pos = 2 * pos + 2 := by rw [idxRight]; omega
      rw [same] at secondKid
      exact secondKid inside
  · rcases secondCases with same | ⟨taken, inside⟩
    · rcases firstCases with same' | ⟨taken', inside'⟩
      · rw [same', Prod.mk.injEq] at same
        exact .inl same
      · have smaller := firstLt (by rw [taken']; simp [idxLeft]; omega)
        rw [taken', Prod.mk.injEq] at same
        rw [taken'] at smaller
        obtain ⟨rfl, rfl⟩ := same
        exact .inr ⟨left, inside', rfl, smaller⟩
    · rw [Prod.mk.injEq] at taken
      obtain ⟨rfl, rfl⟩ := taken
      have smaller := secondLt (by
        rcases firstCases with same' | ⟨taken', -⟩
        · rw [same']; simp [idxRight]; omega
        · rw [taken']; simp [idxRight, idxLeft])
      exact .inr ⟨right, inside, rfl, lt_of_lt_of_le smaller firstLe⟩

/-- `sift_down` settles an item which is no smaller than what is above the hole. -/
theorem siftDownFrom_spec {len : Nat} (carrying : heap.Carrying item pos)
    (bound : len = heap.arr.length)
    (sinking : Sinking (keyAt heap.arr) len pos item.val) :
    ∃ heap', siftDownFrom heap item pos len = some heap' ∧ heap.Settles item pos heap' := by
  induction remaining : len - pos using Nat.strong_induction_on generalizing heap pos with
  | _ remaining ih =>
      obtain ⟨minPos, minVal, least, below, found⟩ := minAround_spec item pos bound
      rw [siftDownFrom]
      split
      next missing => simp [least] at missing
      next minPos' _ least' =>
        rw [least, Option.some.injEq, Prod.mk.injEq] at least'
        obtain ⟨rfl, -⟩ := least'
        rcases found with ⟨rfl, rfl⟩ | ⟨link, inside, value, smaller⟩
        · rw [dif_pos rfl]
          refine ⟨_, rfl, carrying.settle ?_⟩
          rw [← bound]
          exact sinking.fill sinking.above below
        · have behind := link.lt
          obtain ⟨kid, slot⟩ : ∃ kid, heap.arr[minPos]? = some kid :=
            ⟨_, List.getElem?_eq_getElem (bound ▸ inside)⟩
          have key := keyAt_of_getElem? slot
          have moved := carrying.move behind.ne' slot
          have order := sinking.move link inside (value ▸ smaller) (value ▸ below)
          rw [key, ← keyAt_set carrying.inside] at order
          obtain ⟨heap', run, settles⟩ :=
            ih (len - minPos) (by omega) moved (by simp [bound]) order rfl
          rw [dif_neg behind.ne', slot]
          exact ⟨heap', run, settles.of_move carrying behind.ne' slot⟩

/-- `sift` picks the direction in which the item can only have to move. -/
theorem sift_spec {len : Nat} (carrying : heap.Carrying item pos) (bound : len = heap.arr.length)
    (slot : heap.arr[pos]? = some item) (around : Around (keyAt heap.arr) len pos) :
    ∃ heap', sift heap pos len = some heap' ∧ heap'.Valid ∧ heap'.arr.Perm heap.arr ∧
      ∀ x ∉ heap.arr.map HeapItem.ref, heap'.heapIdx x = heap.heapIdx x := by
  have same : heap.arr.set pos item = heap.arr := by
    obtain ⟨inside, value⟩ := List.getElem?_eq_some_iff.mp slot
    rw [← value, List.set_getElem_self]
  suffices settled : ∃ heap', sift heap pos len = some heap' ∧ heap.Settles item pos heap' by
    obtain ⟨heap', run, settles⟩ := settled
    exact ⟨heap', run, settles.valid, same ▸ settles.content, same ▸ settles.frame⟩
  have down : (∀ parent, IsChild pos parent → keyAt heap.arr parent ≤ item.val) →
      ∃ heap', siftDown heap pos len = some heap' ∧ heap.Settles item pos heap' := by
    intro above
    simp only [siftDown, slot]
    exact siftDownFrom_spec carrying bound (around.sinking above)
  rw [sift]
  split
  next positive =>
    have link : IsChild pos (idxParent pos) := ⟨positive, rfl⟩
    obtain ⟨above, parentSlot⟩ : ∃ above, heap.arr[idxParent pos]? = some above :=
      ⟨_, List.getElem?_eq_getElem (lt_trans link.lt carrying.inside)⟩
    have key := keyAt_of_getElem? parentSlot
    simp only [parentSlot, slot, Option.bind_eq_bind, Option.bind_some]
    split
    next larger =>
      simp only [siftUp, slot]
      apply siftUpFrom_spec carrying
      rw [← bound]
      exact around.climbing link (by rw [key]; exact larger)
    next fits =>
      apply down
      intro parent link'
      rw [link'.unique link, key]
      exact Nat.le_of_not_lt fits
  next root => exact down fun parent link' => absurd link'.1 root

end MiniRedis
