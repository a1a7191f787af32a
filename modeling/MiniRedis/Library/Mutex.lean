import Mathlib

/-!
# Mutual exclusion

A lock names its holder, and a predicate says which threads are in their critical
section. Both agree as long as a thread enters only when the lock is free or its own.
-/

namespace Mutex

variable {α : Type} {owner owner' : Option α} {inside inside' : α → Prop} {thread : α}

/-- Exactly the holder of the lock is in its critical section. -/
def Exclusive (owner : Option α) (inside : α → Prop) : Prop :=
  ∀ thread, inside thread ↔ owner = some thread

/-- The lock is free or held by the thread. -/
def Entitled (owner : Option α) (thread : α) : Prop := owner = none ∨ owner = some thread

namespace Exclusive

theorem free (outside : ∀ thread, ¬inside thread) : Exclusive none inside := fun thread => by
  simp [outside thread]

/-- Beside an entitled thread nobody is in a critical section. -/
theorem outside (exclusive : Exclusive owner inside) (entitled : Entitled owner thread)
    {other : α} (distinct : other ≠ thread) : ¬inside other := by
  rw [exclusive other]
  rcases entitled with rfl | rfl
  · simp
  · simpa using distinct.symm

theorem entitled (exclusive : Exclusive owner inside) (member : inside thread) :
    Entitled owner thread := .inr ((exclusive thread).mp member)

/-- An entitled thread takes, keeps or gives back the lock as it moves. -/
theorem move (exclusive : Exclusive owner inside) (entitled : Entitled owner thread)
    (others : ∀ other ≠ thread, inside' other ↔ inside other)
    (moved : inside' thread ∧ owner' = some thread ∨ ¬inside' thread ∧ owner' = none) :
    Exclusive owner' inside' := by
  intro other
  by_cases same : other = thread
  · subst same
    rcases moved with ⟨member, rfl⟩ | ⟨left, rfl⟩
    · simp [member]
    · simp [left]
  · have empty := exclusive.outside entitled same
    rw [← others other same] at empty
    rcases moved with ⟨-, rfl⟩ | ⟨-, rfl⟩
    · simp [empty, Ne.symm same]
    · simp [empty]

theorem congr (exclusive : Exclusive owner inside) (same : ∀ thread, inside' thread ↔ inside thread) :
    Exclusive owner inside' := fun thread => (same thread).trans (exclusive thread)

end Exclusive

end Mutex
