import Mathlib

/-!
# The order of an implicit binary heap with one hole

The keys are a function of the index; the children of `i` are `2 * i + 1` and
`2 * i + 2`. A sift carries one key from hole to hole. While it does, every pair
which avoids the hole is in order, and so is the pair that would meet if the hole
were skipped.
-/

namespace HeapOrder

variable {κ : Type} [LinearOrder κ]

/-- `child` is a child of `parent`; the root is nobody's child. -/
def IsChild (child parent : Nat) : Prop := 0 < child ∧ (child - 1) / 2 = parent

theorem isChild_iff {child parent : Nat} :
    IsChild child parent ↔ child = 2 * parent + 1 ∨ child = 2 * parent + 2 := by
  unfold IsChild
  omega

theorem IsChild.lt {child parent : Nat} (link : IsChild child parent) : parent < child := by
  rw [isChild_iff] at link
  omega

theorem IsChild.unique {child parent other : Nat} (link : IsChild child parent)
    (link' : IsChild child other) : parent = other :=
  link.2.symm.trans link'.2

/-- No child is smaller than its parent, among the first `n` keys. -/
def Ordered (key : Nat → κ) (n : Nat) : Prop :=
  ∀ child parent, IsChild child parent → child < n → key parent ≤ key child

/-- The pairs which avoid the hole, and the pair which skips it, are in order. -/
structure Around (key : Nat → κ) (n hole : Nat) : Prop where
  off : ∀ child parent, IsChild child parent → child < n → child ≠ hole → parent ≠ hole →
    key parent ≤ key child
  skip : ∀ child parent, IsChild child hole → IsChild hole parent → child < n →
    key parent ≤ key child

/-- The carried key may still have to move up: it is no larger than the hole's children. -/
structure Climbing (key : Nat → κ) (n hole : Nat) (carried : κ) : Prop extends
    Around key n hole where
  below : ∀ child, IsChild child hole → child < n → carried ≤ key child

/-- The carried key may still have to move down: it is no smaller than the hole's parent. -/
structure Sinking (key : Nat → κ) (n hole : Nat) (carried : κ) : Prop extends
    Around key n hole where
  above : ∀ parent, IsChild hole parent → key parent ≤ carried

variable {key : Nat → κ} {n hole : Nat} {carried : κ}

theorem Ordered.around (ordered : Ordered key n) (inside : hole < n) : Around key n hole where
  off child parent link bound _ _ := ordered child parent link bound
  skip child parent link link' bound :=
    (ordered hole parent link' inside).trans (ordered child hole link bound)

/-- Beyond the last key there is a hole without children. -/
theorem Ordered.around_last (ordered : Ordered key n) : Around key (n + 1) n where
  off child parent link bound notHole _ := ordered child parent link (by omega)
  skip child parent link _ bound := by
    have below := link.lt
    omega

/-- Dropping the last key keeps what avoids the hole. -/
theorem Around.mono {m : Nat} (around : Around key n hole) (fewer : m ≤ n) :
    Around key m hole where
  off child parent link bound := around.off child parent link (by omega)
  skip child parent link link' bound := around.skip child parent link link' (by omega)

/-- Only the keys off the hole matter. -/
theorem Around.congr {key' : Nat → κ} (around : Around key n hole)
    (same : ∀ i < n, i ≠ hole → key' i = key i) : Around key' n hole where
  off child parent link bound notHole notParent := by
    have behind := link.lt
    rw [same child bound notHole, same parent (by omega) notParent]
    exact around.off child parent link bound notHole notParent
  skip child parent link link' bound := by
    have behind := link.lt
    have behind' := link'.lt
    rw [same child bound (by omega), same parent (by omega) (by omega)]
    exact around.skip child parent link link' bound

/-- A carried key below the parent's can only have to move up. -/
theorem Around.climbing {parent : Nat} (around : Around key n hole) (link : IsChild hole parent)
    (smaller : carried < key parent) : Climbing key n hole carried where
  toAround := around
  below child link' bound := smaller.le.trans (around.skip child parent link' link bound)

theorem Around.sinking (around : Around key n hole)
    (above : ∀ parent, IsChild hole parent → key parent ≤ carried) :
    Sinking key n hole carried where
  toAround := around
  above := above

/-- One step up: the parent's key fills the hole. -/
theorem Climbing.move {parent : Nat} (climbing : Climbing key n hole carried)
    (link : IsChild hole parent) (inside : hole < n) (smaller : carried < key parent) :
    Climbing (Function.update key hole (key parent)) n parent carried := by
  have behind := link.lt
  refine ⟨⟨fun child other link' bound notHole notOther => ?_, fun child other link' above bound => ?_⟩,
    fun child link' bound => ?_⟩
  · rcases eq_or_ne child hole with rfl | apart
    · exact absurd (link'.unique link) notOther
    · rw [Function.update_of_ne apart]
      rcases eq_or_ne other hole with rfl | apart'
      · rw [Function.update_self]
        exact climbing.skip child parent link' link bound
      · rw [Function.update_of_ne apart']
        exact climbing.off child other link' bound apart apart'
  · have behind' := above.lt
    have apart' : other ≠ hole := by omega
    rw [Function.update_of_ne apart']
    have grand := climbing.off parent other above (by omega) (by omega) (by omega)
    rcases eq_or_ne child hole with rfl | apart
    · rw [Function.update_self]
      exact grand
    · rw [Function.update_of_ne apart]
      exact grand.trans (climbing.off child parent link' bound apart (by omega))
  · rcases eq_or_ne child hole with rfl | apart
    · rw [Function.update_self]
      exact smaller.le
    · rw [Function.update_of_ne apart]
      exact smaller.le.trans (climbing.off child parent link' bound apart (by omega))

/-- One step down: the key of the smallest child fills the hole. -/
theorem Sinking.move {child : Nat} (sinking : Sinking key n hole carried)
    (link : IsChild child hole) (inside : child < n) (smaller : key child < carried)
    (least : ∀ sibling, IsChild sibling hole → sibling < n → key child ≤ key sibling) :
    Sinking (Function.update key hole (key child)) n child carried := by
  have behind := link.lt
  refine ⟨⟨fun x y link' bound notChild notParent => ?_, fun x y link' above bound => ?_⟩,
    fun y above => ?_⟩
  · rcases eq_or_ne x hole with rfl | apart
    · have lower := link'.lt
      have apart' : y ≠ x := by omega
      rw [Function.update_self, Function.update_of_ne apart']
      exact sinking.skip child y link link' inside
    · rw [Function.update_of_ne apart]
      rcases eq_or_ne y hole with rfl | apart'
      · rw [Function.update_self]
        exact least x link' bound
      · rw [Function.update_of_ne apart']
        exact sinking.off x y link' bound apart apart'
  · have same := above.unique link
    subst same
    have lower := link'.lt
    have apart : x ≠ y := by omega
    rw [Function.update_self, Function.update_of_ne apart]
    exact sinking.off x child link' bound (by omega) (by omega)
  · have same := above.unique link
    subst same
    rw [Function.update_self]
    exact smaller.le

/-- A hole whose carried key fits on both sides can be filled. -/
theorem Around.fill (around : Around key n hole)
    (above : ∀ parent, IsChild hole parent → key parent ≤ carried)
    (below : ∀ child, IsChild child hole → child < n → carried ≤ key child) :
    Ordered (Function.update key hole carried) n := by
  intro child parent link bound
  have behind := link.lt
  rcases eq_or_ne child hole with rfl | apart
  · have apart : parent ≠ child := by omega
    rw [Function.update_self, Function.update_of_ne apart]
    exact above parent link
  · rw [Function.update_of_ne apart]
    rcases eq_or_ne parent hole with rfl | apart'
    · rw [Function.update_self]
      exact below child link bound
    · rw [Function.update_of_ne apart']
      exact around.off child parent link bound apart apart'

/-- The root of an ordered heap has the smallest key. -/
theorem Ordered.root_le (ordered : Ordered key n) {i : Nat} (inside : i < n) : key 0 ≤ key i := by
  induction i using Nat.strong_induction_on with
  | _ i ih =>
      rcases Nat.eq_zero_or_pos i with rfl | positive
      · exact le_rfl
      · have link : IsChild i ((i - 1) / 2) := ⟨positive, rfl⟩
        have behind := link.lt
        exact (ih _ behind (by omega)).trans (ordered i _ link inside)

end HeapOrder
