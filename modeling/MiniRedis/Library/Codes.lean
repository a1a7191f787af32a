import Mathlib.Data.List.Basic

/-!
# Codes which end themselves

A code word says where it ends, so a concatenation of words falls apart in one way.
-/

namespace Codes

variable {α β : Type}

/-- Behind a code word nothing of the word is left over, whatever follows. -/
structure SelfDelimiting (encode : α → List β) (valid : α → Prop) : Prop where
  nonempty : ∀ item, valid item → encode item ≠ []
  cut : ∀ {item item' : α} {rest rest' : List β}, valid item → valid item' →
    encode item ++ rest = encode item' ++ rest' → item = item' ∧ rest = rest'

variable {encode : α → List β} {valid : α → Prop} {front whole : List α}

/-- A beginning of the words is a beginning of the items. -/
theorem SelfDelimiting.of_prefix (code : SelfDelimiting encode valid)
    (frontValid : ∀ item ∈ front, valid item) (wholeValid : ∀ item ∈ whole, valid item)
    (before : front.flatMap encode <+: whole.flatMap encode) : front <+: whole := by
  induction front generalizing whole with
  | nil => exact List.nil_prefix
  | cons item front ih =>
      obtain ⟨first, frontRest⟩ := List.forall_mem_cons.mp frontValid
      obtain ⟨more, split⟩ := before
      rw [List.flatMap_cons, List.append_assoc] at split
      cases whole with
      | nil =>
          rw [List.flatMap_nil] at split
          exact absurd (List.append_eq_nil_iff.mp split).1 (code.nonempty item first)
      | cons item' whole =>
          obtain ⟨first', wholeRest⟩ := List.forall_mem_cons.mp wholeValid
          rw [List.flatMap_cons] at split
          obtain ⟨rfl, rest⟩ := code.cut first first' split
          exact List.cons_prefix_cons.mpr ⟨rfl, ih frontRest wholeRest ⟨more, rest⟩⟩

end Codes
