import Mathlib

/-!
# Reading a changing set page by page

A page lists the first elements behind a cursor which the set has at that moment, and moves
the cursor to the last of them. Whatever the set does between the pages, nothing is listed
twice, and what is there at every page is not missed.
-/

namespace Paged

variable {α : Type*} [LinearOrder α]

/-- The first elements behind a cursor; what is left out lies behind the last of them. -/
structure IsPage (elements : Set α) (cursor : α) (page : List α) : Prop where
  sorted : page.Pairwise (· < ·)
  behind : ∀ x ∈ page, cursor < x
  listed : ∀ x ∈ page, x ∈ elements
  whole : ∀ x ∈ elements, cursor < x → x ∈ page ∨ ∃ last ∈ page.getLast?, last < x

/-- Pages read one after another, each with the elements of its moment. -/
inductive Pages : α → List (Set α × List α) → Prop where
  | nil (cursor : α) : Pages cursor []
  | cons {cursor : α} {elements : Set α} {page : List α} {rest : List (Set α × List α)}
      (first : IsPage elements cursor page) (later : Pages (page.getLastD cursor) rest) :
      Pages cursor ((elements, page) :: rest)

variable {elements : Set α} {cursor : α} {page : List α} {moments : List (Set α × List α)}

theorem IsPage.empty (none : ∀ x ∈ elements, x ≤ cursor) : IsPage elements cursor [] where
  sorted := .nil
  behind := by simp
  listed := by simp
  whole x member behind := absurd behind (none x member).not_gt

/-- A segment of a sorted list, from the first element behind the cursor on. -/
theorem IsPage.of_sorted {nodes : List α} (sorted : nodes.Pairwise (· < ·)) {i n : Nat}
    (front : ∀ x ∈ nodes.take i, x ≤ cursor) (back : ∀ x ∈ nodes.drop i, cursor < x)
    (positive : 0 < n) : IsPage {x | x ∈ nodes} cursor ((nodes.drop i).take n) where
  sorted := (sorted.sublist (List.drop_sublist i nodes)).sublist (List.take_sublist n _)
  behind x member := back x (List.mem_of_mem_take member)
  listed x member := List.mem_of_mem_drop (List.mem_of_mem_take member)
  whole x member behind := by
    have inBack : x ∈ nodes.drop i := by
      rw [Set.mem_ofPred_eq, ← List.take_append_drop i nodes, List.mem_append] at member
      exact member.resolve_left fun inFront => (front x inFront).not_gt behind
    have ordered := sorted.sublist (List.drop_sublist i nodes)
    rw [← List.take_append_drop n (nodes.drop i), List.pairwise_append] at ordered
    rw [← List.take_append_drop n (nodes.drop i), List.mem_append] at inBack
    refine inBack.imp_right fun left => ?_
    have nonempty : (nodes.drop i).take n ≠ [] := by
      rw [ne_eq, List.take_eq_nil_iff, not_or]
      exact ⟨by omega, fun empty => by simp [empty] at left⟩
    exact ⟨_, List.getLast?_eq_some_getLast nonempty,
      ordered.2.2 _ (List.getLast_mem nonempty) x left⟩

/-- A page moves the cursor forward. -/
theorem IsPage.le_last (first : IsPage elements cursor page) : cursor ≤ page.getLastD cursor := by
  cases last : page.getLast? with
  | none => rw [List.getLastD_eq_getLast?, last, Option.getD_none]
  | some x =>
      rw [List.getLastD_eq_getLast?, last, Option.getD_some]
      exact (first.behind x (List.mem_of_getLast? last)).le

/-- Nothing on a page lies behind its end. -/
theorem IsPage.mem_le_last (first : IsPage elements cursor page) {x : α} (member : x ∈ page) :
    x ≤ page.getLastD cursor := by
  have nonempty : page ≠ [] := List.ne_nil_of_mem member
  rw [List.getLastD_eq_getLast?, List.getLast?_eq_some_getLast nonempty, Option.getD_some]
  have split := List.dropLast_append_getLast nonempty
  have sorted := first.sorted
  rw [← split, List.pairwise_append] at sorted
  rw [← split, List.mem_append, List.mem_singleton] at member
  obtain earlier | last := member
  · exact (sorted.2.2 x earlier _ (List.mem_singleton_self _)).le
  · exact last.le

theorem Pages.behind (read : Pages cursor moments) :
    ∀ x ∈ moments.flatMap Prod.snd, cursor < x := by
  induction read with
  | nil => simp
  | cons first later ih =>
      intro x member
      rw [List.flatMap_cons, List.mem_append] at member
      obtain here | there := member
      · exact first.behind x here
      · exact first.le_last.trans_lt (ih x there)

/-- What is listed was there at its page. -/
theorem Pages.listed (read : Pages cursor moments) :
    ∀ x ∈ moments.flatMap Prod.snd, ∃ moment ∈ moments, x ∈ moment.1 := by
  induction read with
  | nil => simp
  | cons first later ih =>
      intro x member
      rw [List.flatMap_cons, List.mem_append] at member
      obtain here | there := member
      · exact ⟨_, List.mem_cons_self, first.listed x here⟩
      · obtain ⟨moment, inside, present⟩ := ih x there
        exact ⟨moment, List.mem_cons_of_mem _ inside, present⟩

/-- The pages one after another are strictly increasing. -/
theorem Pages.sorted (read : Pages cursor moments) :
    (moments.flatMap Prod.snd).Pairwise (· < ·) := by
  induction read with
  | nil => exact .nil
  | cons first later ih =>
      rw [List.flatMap_cons, List.pairwise_append]
      refine ⟨first.sorted, ih, fun x here y there => ?_⟩
      exact (first.mem_le_last here).trans_lt (later.behind y there)

/-- When a page comes back empty, all that was there at every page has been listed. -/
theorem Pages.complete (read : Pages cursor moments)
    (ended : [] ∈ moments.map Prod.snd) {x : α} (behind : cursor < x)
    (present : ∀ moment ∈ moments, x ∈ moment.1) : x ∈ moments.flatMap Prod.snd := by
  induction read with
  | nil => simp at ended
  | @cons cursor elements page rest first later ih =>
      rw [List.flatMap_cons, List.mem_append]
      obtain here | ⟨last, isLast, left⟩ := first.whole x (present _ List.mem_cons_self) behind
      · exact .inl here
      · have nonempty : page ≠ [] := fun empty => by simp [empty] at isLast
        have ended' : [] ∈ rest.map Prod.snd := by simpa [nonempty.symm] using ended
        refine .inr (ih ended' ?_ fun moment member =>
          present moment (List.mem_cons_of_mem _ member))
        rwa [List.getLastD_eq_getLast?, Option.mem_def.mp isLast, Option.getD_some]

end Paged
