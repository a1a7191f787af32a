import MiniRedis.ZSet.Model
import MiniRedis.Avl.Sorted
import MiniRedis.Avl.Delete
import MiniRedis.Hashtable.Operations

/-!
# Two indexes of the same nodes

The comparator is the lexicographic order of rank and name. A sorted set is
well-formed when its tree is sorted by that order, its hash map holds the nodes of
the tree, and names are unique.
-/

namespace MiniRedis

open Binary64

/-- Pairs of a score and a name in the order of the tree. -/
abbrev PairKey := ℤ ×ₗ List ℕ

def pairKey (score : Number) (name : Bytes) : PairKey := toLex (score.rank, codes name)

/-- The pair which a node carries. -/
def ZMemory.key {α : Type} (memory : ZMemory α) (node : α) : PairKey :=
  pairKey (memory.score node) (memory.name node)

theorem pairKey_lt_iff {score score' : Number} {name name' : Bytes} :
    pairKey score name < pairKey score' name' ↔
      score.rank < score'.rank ∨ score.rank = score'.rank ∧ codes name < codes name' :=
  Prod.Lex.toLex_lt_toLex

theorem pairKey_eq_iff {score score' : Number} {name name' : Bytes} :
    pairKey score name = pairKey score' name' ↔ score.rank = score'.rank ∧ name = name' := by
  rw [pairKey, pairKey, toLex_inj, Prod.mk.injEq, codes_inj]

variable {α : Type} {memory : ZMemory α}

/-- `avl_cmp` is a strict total order on all pairs of a number and a byte string. -/
theorem avlCmpKey_spec (memory : ZMemory α) (node : α) (score : Number) (name : Bytes) :
    (avlCmpKey memory node score name < 0 ↔ memory.key node < pairKey score name) ∧
      (avlCmpKey memory node score name = 0 ↔ memory.key node = pairKey score name) := by
  obtain ⟨less, equal⟩ := memcmp_spec (memory.name node) name
  rw [ZMemory.key, pairKey_lt_iff, pairKey_eq_iff, ← less, ← equal]
  simp only [avlCmpKey, Number.lt_iff]
  generalize memcmp (memory.name node) name (min (memory.name node).length name.length) = rv
  generalize (memory.name node).length = l, name.length = r
  split
  next lower => constructor <;> simp <;> omega
  next notLower =>
    split
    next upper => constructor <;> simp <;> omega
    next notUpper =>
      split
      next => constructor <;> simp <;> omega
      next =>
        split
        next => constructor <;> simp <;> omega
        next =>
          split
          next => constructor <;> simp <;> omega
          next => split <;> constructor <;> simp <;> omega

theorem avlCmp_less (memory : ZMemory α) (node x : α) :
    avlCmp memory node x < 0 ↔ memory.key node < memory.key x :=
  (avlCmpKey_spec memory node _ _).1

theorem avlCmp_equal (memory : ZMemory α) (node x : α) :
    avlCmp memory node x = 0 ↔ memory.key node = memory.key x :=
  (avlCmpKey_spec memory node _ _).2

/-- `h_eq` compares names. -/
theorem hEq_iff {name : Bytes} {node : α} : hEq memory name node = true ↔ memory.name node = name := by
  obtain ⟨-, equal⟩ := memcmp_spec (memory.name node) name
  simp only [hEq, Bool.and_eq_true, beq_iff_eq]
  rw [← equal, and_comm]
  apply and_congr_left
  intro same
  rw [← same, min_self]

/-- Outside a set of nodes two memories agree. -/
structure ZMemory.Agrees (memory memory' : ZMemory α) (touched : α → Prop) : Prop where
  tree : ∀ x, ¬touched x → memory'.tree x = memory.tree x
  hcode : ∀ x, ¬touched x → memory'.hcode x = memory.hcode x
  score : ∀ x, ¬touched x → memory'.score x = memory.score x
  name : ∀ x, ¬touched x → memory'.name x = memory.name x
  live : ∀ x, ¬touched x → (x ∈ memory'.live ↔ x ∈ memory.live)

theorem ZMemory.Agrees.refl (memory : ZMemory α) (touched : α → Prop) :
    memory.Agrees memory touched :=
  ⟨fun _ _ => rfl, fun _ _ => rfl, fun _ _ => rfl, fun _ _ => rfl, fun _ _ => .rfl⟩

theorem ZMemory.Agrees.key {memory' : ZMemory α} {touched : α → Prop}
    (agrees : memory.Agrees memory' touched) {x : α} (untouched : ¬touched x) :
    memory'.key x = memory.key x := by
  rw [ZMemory.key, ZMemory.key, agrees.score x untouched, agrees.name x untouched]

/-- What a change leaves alone, a change said to touch more leaves alone. -/
theorem ZMemory.Agrees.mono {memory' : ZMemory α} {touched wider : α → Prop}
    (agrees : memory.Agrees memory' touched) (within : ∀ x, touched x → wider x) :
    memory.Agrees memory' wider where
  tree x outside := agrees.tree x (mt (within x) outside)
  hcode x outside := agrees.hcode x (mt (within x) outside)
  score x outside := agrees.score x (mt (within x) outside)
  name x outside := agrees.name x (mt (within x) outside)
  live x outside := agrees.live x (mt (within x) outside)

/-- New links for the touched nodes only. -/
theorem ZMemory.Agrees.relink {memory' : ZMemory α} {touched : α → Prop}
    (agrees : memory.Agrees memory' touched) {links : AvlMemory α}
    (frame : ∀ x, ¬touched x → links x = memory'.tree x) :
    memory.Agrees { memory' with tree := links } touched :=
  { agrees with tree := fun x outside => (frame x outside).trans (agrees.tree x outside) }

variable [DecidableEq α]

/-- Tree and hash map index the same allocated nodes, sorted by pair and with one node a name. -/
structure ZSet.Holds (memory : ZMemory α) (zset : ZSet α) (tree : BinaryTree α) : Prop where
  root : zset.root = tree.root
  represents : Represents memory.tree none tree
  nodup : tree.toList.Nodup
  balanced : tree.Balanced
  sorted : tree.toList.Pairwise fun x y => memory.key x < memory.key y
  index : zset.hmap.Holds memory.hcode tree.toList.toFinset
  hashed : ∀ x ∈ tree.toList, memory.hcode x = strHash (memory.name x)
  named : ∀ x ∈ tree.toList, ∀ y ∈ tree.toList, memory.name x = memory.name y → x = y
  live : ∀ x ∈ tree.toList, x ∈ memory.live

/-- Below `2 ^ 32` nodes the cached values of all of them fit into their `uint32_t`. -/
theorem ZSet.Holds.cached_lt {zset : ZSet α} {tree : BinaryTree α} (holds : zset.Holds memory tree)
    (few : zset.hmap.nodes.length < 2 ^ 32) {node : α} (member : node ∈ zset.hmap.nodes) :
    (memory.tree node).cnt < 2 ^ 32 ∧ (memory.tree node).height < 2 ^ 32 := by
  rw [holds.index.mem_iff, List.mem_toFinset] at member
  have total : zset.hmap.nodes.length = tree.numNodes := by
    rw [← Multiset.coe_card, holds.index.nodes, Finset.card_val,
      List.toFinset_card_of_nodup holds.nodup, BinaryTree.length_toList]
  have within := holds.represents.cached_le member
  omega

/-- A sorted set does not notice what happens to the nodes of others. -/
theorem ZSet.Holds.congr {zset : ZSet α} {tree : BinaryTree α} (holds : zset.Holds memory tree)
    {memory' : ZMemory α} {touched : α → Prop} (agrees : memory.Agrees memory' touched)
    (apart : ∀ x ∈ tree.toList, ¬touched x) : zset.Holds memory' tree where
  root := holds.root
  represents := holds.represents.congr fun x member => agrees.tree x (apart x member)
  nodup := holds.nodup
  balanced := holds.balanced
  sorted := by
    apply holds.sorted.imp_of_mem
    intro x y left right less
    rw [agrees.key (apart x left), agrees.key (apart y right)]
    exact less
  index := holds.index.congr fun x member =>
    agrees.hcode x (apart x (List.mem_toFinset.mp member))
  hashed x member := by
    rw [agrees.hcode x (apart x member), agrees.name x (apart x member)]
    exact holds.hashed x member
  named x left y right same := by
    rw [agrees.name x (apart x left), agrees.name y (apart y right)] at same
    exact holds.named x left y right same
  live x member := (agrees.live x (apart x member)).mpr (holds.live x member)

theorem ZSet.Holds.empty (memory : ZMemory α) : ZSet.Holds memory {} .nil where
  root := rfl
  represents := trivial
  nodup := List.nodup_nil
  balanced := trivial
  sorted := .nil
  index := HMap.Holds.empty
  hashed := by simp
  named := by simp
  live := by simp

/-- Matching names imply equal hash codes, as the hash map requires. -/
theorem ZSet.Holds.respects {zset : ZSet α} {tree : BinaryTree α} (holds : zset.Holds memory tree)
    (name : Bytes) : ∀ node ∈ tree.toList.toFinset, hEq memory name node →
      memory.hcode node = strHash name := by
  intro node member matches'
  rw [holds.hashed node (List.mem_toFinset.mp member), hEq_iff.mp matches']

end MiniRedis
