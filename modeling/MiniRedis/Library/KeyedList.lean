import Mathlib

/-!
# A list of nodes read as a map

Each node has a key and a value; where keys are unique the list is a finite map from
keys to values, and its order does not matter.
-/

namespace KeyedList

variable {α κ β : Type*} [DecidableEq κ]

/-- The value of the first node with the given key. -/
def lookup (nodes : List α) (key : α → κ) (value : α → β) (k : κ) : Option β :=
  (nodes.find? fun x => key x == k).map value

/-- No two nodes have the same key. -/
def Unique (nodes : List α) (key : α → κ) : Prop :=
  ∀ x ∈ nodes, ∀ y ∈ nodes, key x = key y → x = y

variable {nodes : List α} {key : α → κ} {value : α → β}

theorem lookup_eq_none_iff {k : κ} : lookup nodes key value k = none ↔ ∀ x ∈ nodes, key x ≠ k := by
  simp [lookup]

theorem lookup_of_mem (unique : Unique nodes key) {x : α} (member : x ∈ nodes) :
    lookup nodes key value (key x) = some (value x) := by
  cases search : nodes.find? fun y => key y == key x with
  | none =>
      rw [List.find?_eq_none] at search
      simpa using search x member
  | some y =>
      have same := unique y (List.mem_of_find?_eq_some search) x member
        (by simpa using List.find?_some search)
      rw [lookup, search, same]
      rfl

theorem exists_of_lookup {k : κ} {v : β} (found : lookup nodes key value k = some v) :
    ∃ x ∈ nodes, key x = k ∧ value x = v := by
  obtain ⟨x, search, rfl⟩ := Option.map_eq_some_iff.mp found
  exact ⟨x, List.mem_of_find?_eq_some search, by simpa using List.find?_some search, rfl⟩

/-- A map which agrees on every node and has no other keys is the lookup. -/
theorem lookup_ext (unique : Unique nodes key) {map : κ → Option β}
    (assigned : ∀ x ∈ nodes, map (key x) = some (value x))
    (absent : ∀ k, (∀ x ∈ nodes, key x ≠ k) → map k = none) : lookup nodes key value = map := by
  funext k
  by_cases found : ∃ x ∈ nodes, key x = k
  · obtain ⟨x, member, rfl⟩ := found
    rw [lookup_of_mem unique member, assigned x member]
  · push Not at found
    rw [lookup_eq_none_iff.mpr found, absent k found]

/-- Lists with the same nodes, keys and values are the same map. -/
theorem lookup_congr (unique : Unique nodes key) {nodes' : List α} {key' : α → κ} {value' : α → β}
    (members : ∀ x, x ∈ nodes' ↔ x ∈ nodes) (keys : ∀ x ∈ nodes, key' x = key x)
    (values : ∀ x ∈ nodes, value' x = value x) :
    lookup nodes' key' value' = lookup nodes key value := by
  refine lookup_ext (fun x left y right same => ?_) (fun x member => ?_) fun k absent => ?_
  · rw [members] at left right
    rw [keys x left, keys y right] at same
    exact unique x left y right same
  · rw [members] at member
    rw [keys x member, values x member]
    exact lookup_of_mem unique member
  · apply lookup_eq_none_iff.mpr
    intro x member
    rw [← keys x member]
    exact absent x ((members x).mpr member)

/-- The map has as many keys as there are nodes. -/
theorem ncard_keys (unique : Unique nodes key) (nodup : nodes.Nodup) :
    {k | lookup nodes key value k ≠ none}.Finite ∧
      {k | lookup nodes key value k ≠ none}.ncard = nodes.length := by
  have keys : {k | lookup nodes key value k ≠ none} = ((nodes.map key).toFinset : Set κ) := by
    ext k
    rw [Set.mem_ofPred_eq, Finset.mem_coe, List.mem_toFinset, List.mem_map, ne_eq,
      lookup_eq_none_iff]
    push Not
    rfl
  have distinct : (nodes.map key).Nodup :=
    nodup.map_on fun x left y right same => unique x left y right same
  rw [keys]
  constructor
  · exact Finset.finite_toSet _
  · rw [Set.ncard_coe_finset, List.toFinset_card_of_nodup distinct, List.length_map]

/-! ## Lists sorted by the key -/

omit [DecidableEq κ] in
/-- In a strictly sorted list an element's index is the number of smaller elements. -/
theorem ncard_below [LinearOrder κ] {nodes : List α} {key : α → κ}
    (sorted : nodes.Pairwise fun x y => key x < key y) {i : Nat} {node : α}
    (position : nodes[i]? = some node) : {x | x ∈ nodes ∧ key x < key node}.ncard = i := by
  classical
  obtain ⟨inside, here⟩ := List.getElem?_eq_some_iff.mp position
  have split : nodes = nodes.take i ++ node :: nodes.drop (i + 1) := by
    rw [← here, List.getElem_cons_drop, List.take_append_drop]
  have nodup : (nodes.take i).Nodup := by
    apply (sorted.sublist (List.take_sublist i nodes)).imp
    intro x y less same
    exact less.ne (congrArg key same)
  rw [split, List.pairwise_append, List.pairwise_cons] at sorted
  obtain ⟨-, ⟨behind, -⟩, across⟩ := sorted
  have below : {x | x ∈ nodes ∧ key x < key node} = ((nodes.take i).toFinset : Set α) := by
    ext x
    rw [Set.mem_ofPred_eq, Finset.mem_coe, List.mem_toFinset]
    constructor
    · rintro ⟨member, less⟩
      rw [split, List.mem_append, List.mem_cons] at member
      obtain inFront | rfl | inBack := member
      · exact inFront
      · exact absurd less (lt_irrefl _)
      · exact absurd less (behind x inBack).asymm
    · intro inFront
      exact ⟨List.mem_of_mem_take inFront, across x inFront node List.mem_cons_self⟩
  rw [below, Set.ncard_coe_finset, List.toFinset_card_of_nodup nodup,
    List.length_take_of_le inside.le]

end KeyedList
