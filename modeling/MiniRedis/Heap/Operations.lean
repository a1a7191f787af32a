import MiniRedis.Heap.Sift

/-!
# `heap_delete` and `heap_upsert`
-/

namespace MiniRedis

open HeapOrder

variable {α : Type}

theorem cons_set_perm {arr : List (HeapItem α)} {pos : Nat} {item : HeapItem α}
    (slot : arr[pos]? = some item) (other : HeapItem α) :
    (item :: arr.set pos other).Perm (other :: arr) := by
  obtain ⟨inside, value⟩ := List.getElem?_eq_some_iff.mp slot
  have taken := List.getElem_cons_eraseIdx_perm inside
  rw [value] at taken
  calc (item :: arr.set pos other).Perm (item :: other :: arr.eraseIdx pos) :=
        (List.set_perm_cons_eraseIdx inside other).cons item
    _ |>.Perm (other :: item :: arr.eraseIdx pos) := .swap _ _ _
    _ |>.Perm (other :: arr) := taken.cons other

namespace TtlHeap

theorem Valid.unique {heap : TtlHeap α} (valid : heap.Valid) {i j : Nat} {x y : HeapItem α}
    (left : heap.arr[i]? = some x) (right : heap.arr[j]? = some y) (same : x.ref = y.ref) :
    i = j := by
  have back := valid.back i x left
  rw [same, valid.back j y right] at back
  exact (Option.some.inj back).symm

end TtlHeap

variable [DecidableEq α] {heap : TtlHeap α} {item : HeapItem α} {pos : Nat}

/-- `heap_delete` removes the item at an index in range and no other. -/
theorem heapDelete_spec (valid : heap.Valid) (slot : heap.arr[pos]? = some item) :
    ∃ heap', heapDelete heap pos = some heap' ∧ heap'.Valid ∧ heap.arr.Perm (item :: heap'.arr) ∧
      ∀ x ∉ heap'.arr.map HeapItem.ref, heap'.heapIdx x = heap.heapIdx x := by
  have inside := (List.getElem?_eq_some_iff.mp slot).1
  obtain ⟨arr, heapIdx⟩ := heap
  obtain ⟨front, last, rfl⟩ : ∃ front last, arr = front ++ [last] := by
    rcases List.eq_nil_or_concat arr with rfl | ⟨front, last, rfl⟩
    · simp at inside
    · exact ⟨front, last, List.concat_eq_append⟩
  simp only [List.length_append, List.length_singleton] at inside slot
  have lastSlot : (front ++ [last])[front.length]? = some last := by simp
  have keep : ∀ (i : Nat) (x : HeapItem α), front[i]? = some x → (front ++ [last])[i]? = some x :=
    fun i x here => by
      rw [List.getElem?_append_left (List.getElem?_eq_some_iff.mp here).1, here]
  rcases Nat.lt_succ_iff_lt_or_eq.mp inside with before | rfl
  · have slot' : front[pos]? = some item := by rwa [List.getElem?_append_left before] at slot
    have replaced : ((front ++ [last]).set pos last).dropLast = front.set pos last := by
      rw [List.set_append_left _ _ before, List.dropLast_concat]
    have carrying : TtlHeap.Carrying ⟨front.set pos last, heapIdx⟩ last pos := by
      refine ⟨by simpa using before, fun i other elsewhere here => ?_⟩
      rw [List.getElem?_set_ne elsewhere.symm] at here
      refine ⟨valid.back i other (keep i other here), fun shared => ?_⟩
      have same := valid.unique (keep i other here) lastSlot shared
      have bound := (List.getElem?_eq_some_iff.mp here).1
      omega
    have around : Around (keyAt (front.set pos last)) front.length pos := by
      have shorter : Around (keyAt (front ++ [last])) front.length pos :=
        (valid.ordered.around (by simpa using inside)).mono (by simp)
      apply shorter.congr
      intro i bound elsewhere
      rw [keyAt_set before, Function.update_of_ne elsewhere, keyAt, keyAt,
        List.getElem?_append_left bound]
    obtain ⟨heap', run, valid', perm, frame⟩ :=
      sift_spec carrying (by simp) (List.getElem?_set_self before) around
    refine ⟨heap', ?_, valid', ?_, fun x outside => ?_⟩
    · simp only [heapDelete, List.getLast?_concat, replaced, List.length_append,
        List.length_singleton, List.length_set, guard_true, inside, Option.bind_eq_bind,
        Option.pure_def, Option.bind_some, before.ne, if_false]
      exact run
    · calc (front ++ [last]).Perm (last :: front) := List.perm_append_singleton _ _
        _ |>.Perm (item :: front.set pos last) := (cons_set_perm slot' last).symm
        _ |>.Perm (item :: heap'.arr) := perm.symm.cons item
    · apply frame x
      rw [← (perm.map _).mem_iff]
      exact outside
  · rw [lastSlot, Option.some.injEq] at slot
    subst slot
    refine ⟨⟨front, heapIdx⟩, ?_, ⟨fun i x here => valid.back i x (keep i x here), ?_⟩,
      List.perm_append_singleton _ _, fun _ _ => rfl⟩
    · simp [heapDelete]
    · intro child parent link bound
      have behind := link.lt
      simp only at bound
      have order := valid.ordered child parent link (by simp; omega)
      simp only [keyAt] at order ⊢
      rwa [List.getElem?_append_left bound, List.getElem?_append_left (by omega)] at order

/-- `heap_upsert` of an owner with an item replaces that item. -/
theorem heapUpsert_spec_of_some (valid : heap.Valid) {old : HeapItem α}
    (slot : heap.arr[pos]? = some old) (same : item.ref = old.ref) :
    ∃ heap', heapUpsert heap (some pos) item = some heap' ∧ heap'.Valid ∧
      (old :: heap'.arr).Perm (item :: heap.arr) ∧
      ∀ x ∉ heap'.arr.map HeapItem.ref, heap'.heapIdx x = heap.heapIdx x := by
  have inside := (List.getElem?_eq_some_iff.mp slot).1
  have carrying : TtlHeap.Carrying { heap with arr := heap.arr.set pos item } item pos := by
    refine ⟨by simpa using inside, fun i other elsewhere slot' => ?_⟩
    rw [List.getElem?_set_ne elsewhere.symm] at slot'
    refine ⟨valid.back i other slot', fun shared => elsewhere ?_⟩
    exact valid.unique slot' slot (shared.trans same)
  have around : Around (keyAt (heap.arr.set pos item)) heap.arr.length pos := by
    apply (valid.ordered.around inside).congr
    intro i _ elsewhere
    rw [keyAt_set inside, Function.update_of_ne elsewhere]
  obtain ⟨heap', run, valid', perm, frame⟩ :=
    sift_spec carrying (by simp) (List.getElem?_set_self inside) around
  refine ⟨heap', ?_, valid', (perm.cons old).trans (cons_set_perm slot item), fun x outside => ?_⟩
  · rw [heapUpsert, if_pos inside]
    simpa using run
  · apply frame x
    rw [← (perm.map _).mem_iff]
    exact outside

/-- `heap_upsert` of an owner without an item adds one. -/
theorem heapUpsert_spec_of_none (valid : heap.Valid)
    (fresh : item.ref ∉ heap.arr.map HeapItem.ref) :
    ∃ heap', heapUpsert heap none item = some heap' ∧ heap'.Valid ∧
      heap'.arr.Perm (item :: heap.arr) ∧
      ∀ x ∉ heap'.arr.map HeapItem.ref, heap'.heapIdx x = heap.heapIdx x := by
  have last : (heap.arr ++ [item])[heap.arr.length]? = some item := by simp
  have earlier : ∀ (i : Nat) (other : HeapItem α), i ≠ heap.arr.length →
      (heap.arr ++ [item])[i]? = some other → heap.arr[i]? = some other := by
    intro i other elsewhere slot
    have bound := (List.getElem?_eq_some_iff.mp slot).1
    rw [List.length_append, List.length_singleton] at bound
    rwa [List.getElem?_append_left (by omega)] at slot
  have carrying : TtlHeap.Carrying { heap with arr := heap.arr ++ [item] } item
      heap.arr.length := by
    refine ⟨by simp, fun i other elsewhere slot => ?_⟩
    have slot' := earlier i other elsewhere slot
    refine ⟨valid.back i other slot', fun shared => fresh ?_⟩
    rw [← shared]
    exact List.mem_map_of_mem (List.mem_of_getElem? slot')
  have around : Around (keyAt (heap.arr ++ [item])) (heap.arr.length + 1) heap.arr.length := by
    apply valid.ordered.around_last.congr
    intro i bound elsewhere
    rw [keyAt, keyAt, List.getElem?_append_left (by omega)]
  obtain ⟨heap', run, valid', perm, frame⟩ := sift_spec carrying (by simp) last around
  refine ⟨heap', ?_, valid', perm.trans (List.perm_append_singleton _ _), fun x outside => ?_⟩
  · rw [heapUpsert]
    simpa using run
  · apply frame x
    rw [← (perm.map _).mem_iff]
    exact outside

/-- What a valid heap becomes when `removed` items leave it and `added` ones enter: order and
back-pointers hold again, and owners without an item keep their index. -/
structure TtlHeap.Exchanges (heap : TtlHeap α) (removed added : Multiset (HeapItem α))
    (heap' : TtlHeap α) : Prop where
  valid : heap'.Valid
  distinct : (heap'.arr.map HeapItem.ref).Nodup
  content : removed + heap'.arr = added + heap.arr
  frame : ∀ x ∉ heap'.arr.map HeapItem.ref, heap'.heapIdx x = heap.heapIdx x

omit [DecidableEq α] in
/-- The back-pointers of a valid heap keep its owners apart. -/
theorem TtlHeap.Valid.distinct (valid : heap.Valid) : (heap.arr.map HeapItem.ref).Nodup := by
  rw [List.nodup_iff_getElem?_ne_getElem?]
  intro i j before bound same
  rw [List.length_map] at bound
  simp only [List.getElem?_map, List.getElem?_eq_getElem bound,
    List.getElem?_eq_getElem (before.trans bound), Option.map_some, Option.some.injEq] at same
  have index := valid.unique (List.getElem?_eq_getElem (before.trans bound))
    (List.getElem?_eq_getElem bound) same
  omega

/-- On a valid heap every deletion in range, every replacement of an owner's item and every
insertion for a new owner succeeds and makes exactly that exchange. -/
theorem heap_operations (valid : heap.Valid) :
    (∀ (pos : Nat) (old : HeapItem α), heap.arr[pos]? = some old →
      ∃ heap', heapDelete heap pos = some heap' ∧ heap.Exchanges {old} 0 heap') ∧
    (∀ (pos : Nat) (old item : HeapItem α), heap.arr[pos]? = some old → item.ref = old.ref →
      ∃ heap', heapUpsert heap (some pos) item = some heap' ∧ heap.Exchanges {old} {item} heap') ∧
    ∀ item : HeapItem α, item.ref ∉ heap.arr.map HeapItem.ref →
      ∃ heap', heapUpsert heap none item = some heap' ∧ heap.Exchanges 0 {item} heap' := by
  constructor
  · intro pos old slot
    obtain ⟨heap', run, valid', perm, frame⟩ := heapDelete_spec valid slot
    have content : ({old} + heap'.arr : Multiset (HeapItem α)) = 0 + heap.arr := by
      rw [zero_add, Multiset.singleton_add, Multiset.cons_coe, Multiset.coe_eq_coe]
      exact perm.symm
    exact ⟨heap', run, valid', valid'.distinct, content, frame⟩
  constructor
  · intro pos old item slot same
    obtain ⟨heap', run, valid', perm, frame⟩ := heapUpsert_spec_of_some valid slot same
    have content : ({old} + heap'.arr : Multiset (HeapItem α)) = {item} + heap.arr := by
      rw [Multiset.singleton_add, Multiset.singleton_add, Multiset.cons_coe, Multiset.cons_coe,
        Multiset.coe_eq_coe]
      exact perm
    exact ⟨heap', run, valid', valid'.distinct, content, frame⟩
  · intro item fresh
    obtain ⟨heap', run, valid', perm, frame⟩ := heapUpsert_spec_of_none valid fresh
    have content : (0 + heap'.arr : Multiset (HeapItem α)) = {item} + heap.arr := by
      rw [zero_add, Multiset.singleton_add, Multiset.cons_coe, Multiset.coe_eq_coe]
      exact perm
    exact ⟨heap', run, valid', valid'.distinct, content, frame⟩

/-- The deletion of the root of a heap of two items. -/
theorem heap_operations_two : ∃ heap' : TtlHeap Nat,
    heapDelete ⟨[⟨3, 0⟩, ⟨5, 1⟩], some⟩ 0 = some heap' ∧ heap'.arr = [⟨5, 1⟩] := by
  have valid : TtlHeap.Valid (⟨[⟨3, 0⟩, ⟨5, 1⟩], some⟩ : TtlHeap Nat) := by
    constructor
    · intro i item slot
      match i, slot with
      | 0, rfl => rfl
      | 1, rfl => rfl
    · intro child parent link bound
      have below := link.lt
      obtain ⟨rfl, rfl⟩ : child = 1 ∧ parent = 0 := by
        simp only [List.length_cons, List.length_nil] at bound
        omega
      decide
  obtain ⟨heap', run, exchanges⟩ := (heap_operations valid).1 0 ⟨3, 0⟩ rfl
  have content := exchanges.content
  rw [zero_add, ← Multiset.cons_coe, Multiset.singleton_add, Multiset.cons_inj_right,
    Multiset.coe_eq_coe, List.perm_singleton] at content
  exact ⟨heap', run, content⟩

/-! ## The heap as a map from owners to deadlines -/

namespace TtlHeap

/-- A valid heap with one item for each owner that has a deadline. -/
structure Holds (heap : TtlHeap α) (deadline : α → Option Nat) : Prop where
  valid : heap.Valid
  items : ∀ item : HeapItem α, item ∈ heap.arr ↔ deadline item.ref = some item.val

omit [DecidableEq α] in
theorem Valid.nodup (valid : heap.Valid) : heap.arr.Nodup := by
  rw [List.nodup_iff_getElem?_ne_getElem?]
  intro i j before bound same
  have here := List.getElem?_eq_getElem bound
  have index := valid.unique (same.trans here) here rfl
  omega

variable {deadline : α → Option Nat} {x : α}

omit [DecidableEq α] in
theorem Holds.empty (heapIdx : α → Option Nat) : Holds ⟨[], heapIdx⟩ (fun _ : α => none) where
  valid := ⟨by simp, fun child parent link bound => by simp at bound⟩
  items := by simp

omit [DecidableEq α] in
/-- The back-pointer of an owner with a deadline leads to its item. -/
theorem Holds.exists_slot (holds : heap.Holds deadline) {val : Nat}
    (due : deadline x = some val) :
    ∃ i, heap.heapIdx x = some i ∧ heap.arr[i]? = some ⟨val, x⟩ := by
  obtain ⟨i, slot⟩ := List.mem_iff_getElem?.mp ((holds.items ⟨val, x⟩).mpr due)
  exact ⟨i, holds.valid.back i _ slot, slot⟩

omit [DecidableEq α] in
theorem Holds.not_mem_refs (holds : heap.Holds deadline) (free : deadline x = none) :
    x ∉ heap.arr.map HeapItem.ref := by
  rintro member
  obtain ⟨item, inArr, rfl⟩ := List.mem_map.mp member
  rw [(holds.items item).mp inArr] at free
  cases free

/-- The index of an owner without an item may be cleared. -/
theorem Holds.clear_index (holds : heap.Holds deadline) (free : deadline x = none) :
    TtlHeap.Holds { heap with heapIdx := Function.update heap.heapIdx x none } deadline := by
  refine ⟨⟨fun i item slot => ?_, holds.valid.ordered⟩, holds.items⟩
  have other : item.ref ≠ x := fun same =>
    holds.not_mem_refs free (List.mem_map.mpr ⟨item, List.mem_of_getElem? slot, same⟩)
  simp only [Function.update_of_ne other]
  exact holds.valid.back i item slot

/-- Deleting an owner's item clears its deadline. -/
theorem Holds.delete (holds : heap.Holds deadline) {i : Nat} (index : heap.heapIdx x = some i)
    {val : Nat} (due : deadline x = some val) :
    ∃ heap', heapDelete heap i = some heap' ∧
      heap'.Holds (Function.update deadline x none) ∧
      ∀ y, y = x ∨ deadline y = none → heap'.heapIdx y = heap.heapIdx y := by
  obtain ⟨j, index', slot⟩ := holds.exists_slot due
  rw [index, Option.some.injEq] at index'
  subst index'
  obtain ⟨heap', run, valid', perm, frame⟩ := heapDelete_spec holds.valid slot
  have removed : ∀ item, item ∈ heap'.arr ↔ item ∈ heap.arr ∧ item ≠ ⟨val, x⟩ := by
    intro item
    have nodup := perm.nodup_iff.mp holds.valid.nodup
    rw [perm.mem_iff, List.mem_cons]
    constructor
    · intro member
      refine ⟨.inr member, ?_⟩
      rintro rfl
      exact (List.nodup_cons.mp nodup).1 member
    · rintro ⟨rfl | member, other⟩
      · exact absurd rfl other
      · exact member
  have holds' : heap'.Holds (Function.update deadline x none) := by
    refine ⟨valid', fun item => ?_⟩
    rw [removed, holds.items]
    rcases eq_or_ne item.ref x with rfl | other
    · rw [Function.update_self, due, Option.some.injEq]
      constructor
      · rintro ⟨same, differs⟩
        exact absurd (by rw [same]) differs
      · rintro ⟨⟩
    · rw [Function.update_of_ne other]
      refine ⟨fun both => both.1, fun due' => ⟨due', ?_⟩⟩
      rintro rfl
      exact other rfl
  refine ⟨heap', run, holds', fun y free => frame y (holds'.not_mem_refs ?_)⟩
  rcases eq_or_ne y x with rfl | other
  · exact Function.update_self _ _ _
  · rw [Function.update_of_ne other]
    exact free.resolve_left other

/-- Upserting at an owner's index sets its deadline, whether or not it had one. -/
theorem Holds.upsert (holds : heap.Holds deadline) (x : α) (val : Nat)
    (unindexed : deadline x = none → heap.heapIdx x = none) :
    ∃ heap', heapUpsert heap (heap.heapIdx x) ⟨val, x⟩ = some heap' ∧
      heap'.Holds (Function.update deadline x (some val)) ∧
      ∀ y ≠ x, deadline y = none → heap'.heapIdx y = heap.heapIdx y := by
  suffices upserted : ∃ heap', heapUpsert heap (heap.heapIdx x) ⟨val, x⟩ = some heap' ∧
      heap'.Valid ∧ (∀ item, item ∈ heap'.arr ↔
        item = ⟨val, x⟩ ∨ item ∈ heap.arr ∧ item.ref ≠ x) ∧
      ∀ y ∉ heap'.arr.map HeapItem.ref, heap'.heapIdx y = heap.heapIdx y by
    obtain ⟨heap', run, valid', items, frame⟩ := upserted
    have holds' : heap'.Holds (Function.update deadline x (some val)) := by
      refine ⟨valid', fun item => ?_⟩
      rw [items, holds.items]
      rcases eq_or_ne item.ref x with rfl | other
      · rw [Function.update_self, Option.some.injEq]
        refine ⟨?_, fun same => .inl (by rw [same])⟩
        rintro (same | ⟨-, other⟩)
        · rw [same]
        · exact absurd rfl other
      · rw [Function.update_of_ne other]
        refine ⟨?_, fun due => .inr ⟨due, other⟩⟩
        rintro (rfl | ⟨due, -⟩)
        · exact absurd rfl other
        · exact due
    refine ⟨heap', run, holds', fun y other free => frame y (holds'.not_mem_refs ?_)⟩
    rwa [Function.update_of_ne other]
  cases due : deadline x with
  | none =>
      have fresh := holds.not_mem_refs due
      obtain ⟨heap', run, valid', perm, frame⟩ :=
        @heapUpsert_spec_of_none _ _ heap ⟨val, x⟩ holds.valid fresh
      refine ⟨heap', by rw [unindexed due, run], valid', fun item => ?_, frame⟩
      rw [perm.mem_iff, List.mem_cons]
      refine or_congr_right ⟨fun member => ⟨member, ?_⟩, fun both => both.1⟩
      rintro rfl
      exact fresh (List.mem_map_of_mem member)
  | some before =>
      obtain ⟨i, index, slot⟩ := holds.exists_slot due
      obtain ⟨heap', run, valid', perm, frame⟩ :=
        @heapUpsert_spec_of_some _ _ heap ⟨val, x⟩ i holds.valid _ slot rfl
      refine ⟨heap', by rw [index, run], valid', fun item => ?_, frame⟩
      have nodup := holds.valid.nodup
      have owner : ∀ item ∈ heap.arr, item.ref = x → item = ⟨before, x⟩ := by
        rintro ⟨val', ref'⟩ member rfl
        have due' := (holds.items _).mp member
        rw [due, Option.some.injEq] at due'
        rw [due']
      have count : item ∈ heap'.arr ↔ item = ⟨val, x⟩ ∨ item ∈ heap.arr ∧ item ≠ ⟨before, x⟩ := by
        have taken := List.perm_cons_erase (List.mem_of_getElem? slot)
        have rest : heap'.arr.Perm (⟨val, x⟩ :: heap.arr.erase ⟨before, x⟩) :=
          (perm.trans ((taken.cons _).trans (.swap _ _ _))).cons_inv
        rw [rest.mem_iff, List.mem_cons, nodup.mem_erase_iff, and_comm]
      rw [count]
      refine or_congr_right (and_congr_right fun member => not_congr ⟨?_, owner item member⟩)
      rintro rfl
      rfl

omit [DecidableEq α] in
/-- The root of the heap is the earliest deadline. -/
theorem Holds.root_le (holds : heap.Holds deadline) {root : HeapItem α}
    (top : heap.arr[0]? = some root) {val : Nat} (due : deadline x = some val) :
    root.val ≤ val := by
  obtain ⟨i, -, slot⟩ := holds.exists_slot due
  have least := holds.valid.ordered.root_le (List.getElem?_eq_some_iff.mp slot).1
  rwa [keyAt_of_getElem? top, keyAt_of_getElem? slot] at least

end TtlHeap

end MiniRedis
