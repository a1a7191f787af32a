import MiniRedis.Server.Entries
import MiniRedis.ZSet.Query

/-!
# The range query

The output loop walks the tree node by node; the items it writes are those of a
segment of the sorted members, and the count is filled in behind it.
-/

namespace MiniRedis

open Binary64

/-- The reply items of some pairs, two for each. -/
def pairItems (pairs : List (Bytes × Number)) : List WireValue :=
  pairs.flatMap fun pair => [.str pair.1, .dbl pair.2.double]

theorem length_pairItems (pairs : List (Bytes × Number)) :
    (pairItems pairs).length = 2 * pairs.length := by
  induction pairs with
  | nil => rfl
  | cons pair rest ih =>
      simp only [pairItems, List.flatMap_cons, List.length_append, List.length_cons] at ih ⊢
      simp only [List.length_nil]
      omega

variable {memory : ZMemory Addr} {zset : ZSet Addr} {tree : BinaryTree Addr}

/-- The loop from the node at index `i` on, which has counted `n` items so far. -/
theorem zqueryFrom_spec (holds : zset.Holds memory tree) (limit n : Int) (i : Nat) (out : Bytes) :
    ∃ pairs, pairs = ((tree.toList.map memory.pair).drop i).take ((limit - n + 1) / 2).toNat ∧
      memory.zqueryFrom limit tree.toList[i]? n out =
        some (out ++ WireValue.encodeItems (pairItems pairs), n + 2 * pairs.length) := by
  induction rest : tree.toList.length - i generalizing i n out with
  | zero =>
      have outside : tree.toList[i]? = none := List.getElem?_eq_none (by omega)
      have none_left : (tree.toList.map memory.pair).drop i = [] :=
        List.drop_of_length_le (by rw [List.length_map]; omega)
      refine ⟨[], by rw [none_left, List.take_nil], ?_⟩
      rw [outside, ZMemory.zqueryFrom.eq_def]
      simp [pairItems, WireValue.encodeItems]
  | succ rest ih =>
      have bound : i < tree.toList.length := by omega
      have position : tree.toList[i]? = some tree.toList[i] := List.getElem?_eq_getElem bound
      have segment : (tree.toList.map memory.pair).drop i =
          memory.pair tree.toList[i] :: (tree.toList.map memory.pair).drop (i + 1) := by
        rw [List.drop_eq_getElem_cons (by rwa [List.length_map]), List.getElem_map]
      rw [position, ZMemory.zqueryFrom.eq_def]
      by_cases more : n < limit
      · have next : znodeOffset memory (some tree.toList[i]) 1 = some tree.toList[i + 1]? := by
          rw [znodeOffset_spec holds position 1, elementAt, if_pos (by omega)]
          rfl
        obtain ⟨pairs, chosen, run⟩ := ih (n + 2) (i + 1)
          (outDbl (outStr out (memory.name tree.toList[i])) (memory.score tree.toList[i]).double)
          (by omega)
        have count : ((limit - n + 1) / 2).toNat = ((limit - (n + 2) + 1) / 2).toNat + 1 := by omega
        refine ⟨memory.pair tree.toList[i] :: pairs, ?_, ?_⟩
        · rw [segment, count, List.take_succ_cons, chosen]
        · simp only [more, if_true, next, Option.bind_eq_bind, Option.bind_some, run]
          rw [outDbl_eq, outStr_eq]
          simp [pairItems, WireValue.encodeItems, ZMemory.pair]
          omega
      · have count : ((limit - n + 1) / 2).toNat = 0 := by omega
        refine ⟨[], by rw [count, List.take_zero], ?_⟩
        simp [more, pairItems, WireValue.encodeItems]

/-- The loop from an index which may lie outside. -/
theorem zqueryFrom_elementAt (holds : zset.Holds memory tree) (limit index : Int) (out : Bytes) :
    ∃ pairs, pairs = (if 0 ≤ index ∧ index < tree.toList.length then
        ((tree.toList.map memory.pair).drop index.toNat).take ((limit + 1) / 2).toNat else []) ∧
      memory.zqueryFrom limit (elementAt tree.toList index) 0 out =
        some (out ++ WireValue.encodeItems (pairItems pairs), 2 * (pairs.length : Int)) := by
  by_cases inside : 0 ≤ index ∧ index < tree.toList.length
  · obtain ⟨pairs, chosen, run⟩ := zqueryFrom_spec holds limit 0 index.toNat out
    rw [Int.sub_zero] at chosen
    rw [Int.zero_add] at run
    have element : elementAt tree.toList index = tree.toList[index.toNat]? := if_pos inside.1
    exact ⟨pairs, by rw [if_pos inside, chosen], by rw [element, run]⟩
  · have outside : elementAt tree.toList index = none := elementAt_of_outside (by omega)
    refine ⟨[], by rw [if_neg inside], ?_⟩
    rw [outside, ZMemory.zqueryFrom.eq_def]
    simp [pairItems, WireValue.encodeItems]

/-- The rest of `exec_zquery` appends one array: the items of the queried range. -/
theorem zqueryRange_spec (holds : zset.Holds memory tree) (score : Number) (name : Bytes)
    (offset limit : Int) (out : Bytes) :
    zqueryRange memory zset score name offset limit out = some (out ++ (WireValue.arr (pairItems
      (zqueryPairs (tree.toList.map memory.pair) score name offset limit))).encode) := by
  have firstIndex : (tree.toList.map memory.pair).findIdx?
      (fun pair => decide (pairKey score name ≤ pairKey pair.2 pair.1)) =
        tree.toList.findIdx? (memory.atLeast score name) := List.findIdx?_map
  by_cases empty : limit ≤ 0
  · have none_chosen : zqueryPairs (tree.toList.map memory.pair) score name offset limit = [] := by
      rw [zqueryPairs]
      split
      · rfl
      · rw [if_neg (by omega)]
    have nothing := outArr_eq out []
    simp only [WireValue.encodeItems, List.append_nil, List.length_nil] at nothing
    rw [zqueryRange, if_pos empty, nothing, none_chosen]
    rfl
  · -- the node to start from, and the pairs from there on
    obtain ⟨start, pairs, seek, chosen, run⟩ : ∃ start pairs,
        ((zsetSeekGe memory zset score name).bind fun znode => znodeOffset memory znode offset) =
          some start ∧
        pairs = zqueryPairs (tree.toList.map memory.pair) score name offset limit ∧
        memory.zqueryFrom limit start 0 (outBeginArr out).1 =
          some ((outBeginArr out).1 ++ WireValue.encodeItems (pairItems pairs),
            2 * (pairs.length : Int)) := by
      rw [zqueryPairs, firstIndex, zsetSeekGe_spec holds, List.find?_eq_bind_findIdx?_getElem?]
      cases first : tree.toList.findIdx? (memory.atLeast score name) with
      | none =>
          refine ⟨none, [], rfl, rfl, ?_⟩
          rw [ZMemory.zqueryFrom.eq_def]
          simp [pairItems, WireValue.encodeItems]
      | some i =>
          obtain ⟨bound, -⟩ := List.findIdx?_eq_some_iff_getElem.mp first
          have position : tree.toList[i]? = some tree.toList[i] := List.getElem?_eq_getElem bound
          obtain ⟨pairs, chosen, run⟩ :=
            zqueryFrom_elementAt holds limit (i + offset) (outBeginArr out).1
          have positive : 0 < limit := by omega
          refine ⟨_, pairs, ?_, ?_, run⟩
          · simp [position, znodeOffset_spec holds position]
          · rw [chosen]
            simp [positive]
    have count : (2 * (pairs.length : Int)).toNat = (pairItems pairs).length := by
      rw [length_pairItems]
      omega
    obtain ⟨found, sought, moved⟩ := Option.bind_eq_some_iff.mp seek
    rw [← chosen, ← outEndArr_eq, ← count, zqueryRange, if_neg empty]
    simp [sought, moved, run]

end MiniRedis
