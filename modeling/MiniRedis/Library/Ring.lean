import Mathlib

/-!
# Circular doubly linked lists

A ring is a cycle of nodes through a head which is no member. Its pointers agree along
the path from the head through the members back to the head.
-/

namespace Ring

variable {α : Type} {next prev : α → Option α} {head : α}

/-- The pointers of two neighbours name each other. -/
def Joined (next prev : α → Option α) (a b : α) : Prop := next a = some b ∧ prev b = some a

/-- The pointers run through the head and the members, in this order. -/
structure Linked (next prev : α → Option α) (head : α) (members : List α) : Prop where
  distinct : (head :: members).Nodup
  cycle : (head :: members ++ [head]).IsChain (Joined next prev)

/-- Pointers off a path may change. -/
theorem isChain_congr {R S : α → α → Prop} {path : List α} (chain : path.IsChain R)
    (same : ∀ a ∈ path.dropLast, ∀ b ∈ path.tail, R a b → S a b) : path.IsChain S := by
  induction path with
  | nil => exact .nil
  | cons a rest ih =>
      cases rest with
      | nil => exact .singleton a
      | cons b rest =>
          rw [List.isChain_cons_cons] at chain ⊢
          constructor
          · exact same a (by simp) b (by simp) chain.1
          · apply ih chain.2
            intro c inFront d inTail
            exact same c (by simp [inFront]) d (by simp [List.mem_of_mem_tail inTail])

/-- New pointers at nodes which a path does not follow them from. -/
theorem isChain_update [DecidableEq α] {path : List α} (chain : path.IsChain (Joined next prev))
    {before after : α} (offNext : before ∉ path.dropLast) (offPrev : after ∉ path.tail)
    (forward back : Option α) :
    path.IsChain (Joined (Function.update next before forward) (Function.update prev after back)) := by
  apply isChain_congr chain
  intro a inFront b inTail link
  have notBefore : a ≠ before := fun same => offNext (same ▸ inFront)
  have notAfter : b ≠ after := fun same => offPrev (same ▸ inTail)
  rwa [Joined, Function.update_of_ne notBefore, Function.update_of_ne notAfter]

/-- The end of a path does not occur before it. -/
theorem notMem_of_nodup_concat {start : List α} {last : α} (distinct : (start ++ [last]).Nodup) :
    last ∉ start := fun inStart =>
  (List.nodup_append.mp distinct).2.2 last inStart last (List.mem_singleton_self last) rfl

namespace Linked

theorem empty (forward : next head = some head) (back : prev head = some head) :
    Linked next prev head [] :=
  ⟨List.nodup_singleton head, .cons_cons ⟨forward, back⟩ (.singleton head)⟩

/-- The head points at the first member, or at itself. -/
theorem first {members : List α} (ring : Linked next prev head members) :
    next head = some (members.head?.getD head) := by
  have cycle := ring.cycle
  cases members with
  | nil => exact (List.isChain_cons_cons.mp cycle).1.1
  | cons node rest => exact (List.isChain_cons_cons.mp cycle).1.1

variable [DecidableEq α]

/-- Joining the neighbours of a member takes it out. -/
theorem detach {front back : List α} {node : α}
    (ring : Linked next prev head (front ++ node :: back)) :
    ∃ before after, prev node = some before ∧ next node = some after ∧
      Linked (Function.update next before (some after)) (Function.update prev after (some before))
        head (front ++ back) := by
  obtain ⟨start, before, left⟩ : ∃ start before, head :: front = start ++ [before] :=
    ⟨_, _, (List.dropLast_append_getLast (List.cons_ne_nil head front)).symm⟩
  obtain ⟨after, last, right⟩ : ∃ after last, back ++ [head] = after :: last :=
    List.exists_cons_of_ne_nil (by simp)
  have path : head :: (front ++ node :: back) ++ [head] = start ++ [before] ++ node :: after :: last := by
    rw [← left, ← right]
    simp
  have cycle := ring.cycle
  rw [path, List.isChain_append, List.isChain_cons_cons] at cycle
  obtain ⟨leftChain, ⟨toAfter, rightChain⟩, toNode⟩ := cycle
  have beforeNode := toNode before (by simp) node (by simp)
  -- the neighbours occur once on either side
  have distinct := ring.distinct
  have others : (head :: front).Nodup ∧ (back ++ [head]).Nodup ∧ (∀ a ∈ front, a ∉ back ++ [head]) ∧
      ∀ a ∈ back, a ∉ head :: front := by
    simp [List.nodup_append, List.nodup_cons] at distinct ⊢
    grind
  obtain ⟨leftDistinct, rightDistinct, apart, apart'⟩ := others
  refine ⟨before, after, beforeNode.2, toAfter.1, ?_, ?_⟩
  · exact distinct.sublist (by simp)
  · have joined : head :: (front ++ back) ++ [head] = start ++ [before] ++ after :: last := by
      rw [← left, ← right]
      simp
    rw [joined, List.isChain_append]
    rw [left] at leftDistinct apart'
    rw [right] at rightDistinct apart
    refine ⟨isChain_update leftChain ?_ ?_ _ _, isChain_update rightChain ?_ ?_ _ _, ?_⟩
    · rw [List.dropLast_concat]
      exact notMem_of_nodup_concat leftDistinct
    · rw [← left, List.tail_cons]
      exact fun inFront => apart after inFront List.mem_cons_self
    · rw [← right, List.dropLast_concat]
      exact fun inBack => apart' before inBack (by simp)
    · exact (List.nodup_cons.mp rightDistinct).1
    · intro a last b first
      obtain rfl : before = a := by simpa using last
      obtain rfl : after = b := by simpa using first
      exact ⟨Function.update_self .., Function.update_self ..⟩

/-- A new node goes between the last member and the head. -/
theorem insertBefore {members : List α} {rookie : α} (ring : Linked next prev head members)
    (fresh : rookie ∉ head :: members) :
    ∃ last, prev head = some last ∧
      Linked (Function.update (Function.update next last (some rookie)) rookie (some head))
        (Function.update (Function.update prev rookie (some last)) head (some rookie))
        head (members ++ [rookie]) := by
  obtain ⟨start, last, split⟩ : ∃ start last, head :: members = start ++ [last] :=
    ⟨_, _, (List.dropLast_append_getLast (List.cons_ne_nil head members)).symm⟩
  have cycle := ring.cycle
  have distinct := ring.distinct
  rw [split, List.isChain_append] at cycle
  obtain ⟨chain, -, toHead⟩ := cycle
  have lastHead := toHead last (by simp) head (by simp)
  have freshHead : head ≠ rookie := fun same => fresh (by simp [same])
  have freshLast : last ≠ rookie := by
    rintro rfl
    exact fresh (by simp [split])
  refine ⟨last, lastHead.2, ?_, ?_⟩
  · rw [← List.cons_append, List.nodup_append]
    refine ⟨distinct, List.nodup_singleton _, ?_⟩
    rintro a inRing b inNew rfl
    rw [List.mem_singleton] at inNew
    exact fresh (inNew ▸ inRing)
  · have path : head :: (members ++ [rookie]) ++ [head] = start ++ [last] ++ [rookie, head] := by
      rw [← split]
      simp
    rw [path, List.isChain_append]
    have unlinked : last ∉ (start ++ [last]).dropLast := by
      rw [List.dropLast_concat]
      exact notMem_of_nodup_concat (split ▸ distinct)
    have tail : (start ++ [last]).tail = members := by rw [← split, List.tail_cons]
    have inner := isChain_update chain unlinked
      (tail ▸ fun member => fresh (List.mem_cons_of_mem _ member)) (some rookie) (some last)
    refine ⟨isChain_update inner ?_ ?_ _ _, ?_, ?_⟩
    · exact fun member => fresh (split ▸ List.dropLast_subset _ member)
    · rw [tail]
      exact (List.nodup_cons.mp distinct).1
    · apply List.IsChain.cons_cons _ (.singleton head)
      exact ⟨Function.update_self .., Function.update_self ..⟩
    · intro a inStart b first
      obtain rfl : last = a := by simpa using inStart
      obtain rfl : rookie = b := by simpa using first
      constructor
      · rw [Function.update_of_ne freshLast, Function.update_self]
      · rw [Function.update_of_ne freshHead.symm, Function.update_self]

end Linked

end Ring
