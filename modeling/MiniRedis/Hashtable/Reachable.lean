import MiniRedis.Hashtable.Operations

/-!
# The hash map over whole runs

`held` is the bookkeeping of the caller: the nodes inserted and not yet deleted.
-/

namespace MiniRedis

variable {ρ : Type}

/-- A key and a callback fit when a match implies equal hash codes. -/
def Respects (hcode : ρ → UInt64) (held : Finset ρ) (key : UInt64) (eq : ρ → Bool) : Prop :=
  ∀ node ∈ held, eq node → hcode node = key

/-- A search returns a match among the held nodes, and null only if there is none. -/
def Finds (held : Finset ρ) (eq : ρ → Bool) (found : Option ρ) : Prop :=
  (∀ node, found = some node → node ∈ held ∧ eq node) ∧
    (found = none ↔ ∀ node ∈ held, eq node = false)

variable [DecidableEq ρ]

/-- The maps which `hm_insert`, `hm_lookup` and `hm_delete` make of an empty one. A
node gets its hash code when it is inserted. -/
inductive HmReachable : (ρ → UInt64) → HMap ρ → Finset ρ → Prop where
  | empty (hcode : ρ → UInt64) : HmReachable hcode {} ∅
  | insert {hcode : ρ → UInt64} {hmap hmap' : HMap ρ} {held : Finset ρ} {node : ρ}
      (before : HmReachable hcode hmap held) (fresh : node ∉ held) (code : UInt64)
      (run : hmInsert (Function.update hcode node code) hmap node = some hmap') :
      HmReachable (Function.update hcode node code) hmap' (insert node held)
  | lookup {hcode : ρ → UInt64} {hmap hmap' : HMap ρ} {held : Finset ρ} {found : Option ρ}
      (before : HmReachable hcode hmap held) (key : UInt64) (eq : ρ → Bool)
      (respects : Respects hcode held key eq)
      (run : hmLookup hcode hmap key eq = some (found, hmap')) :
      HmReachable hcode hmap' held
  | delete {hcode : ρ → UInt64} {hmap hmap' : HMap ρ} {held : Finset ρ} {found : Option ρ}
      (before : HmReachable hcode hmap held) (key : UInt64) (eq : ρ → Bool)
      (respects : Respects hcode held key eq)
      (run : hmDelete hcode hmap key eq = some (found, hmap')) :
      HmReachable hcode hmap' (found.elim held held.erase)

namespace HMap.Holds

variable {hcode : ρ → UInt64} {hmap : HMap ρ} {held : Finset ρ}

theorem insert (holds : hmap.Holds hcode held) {node : ρ} (fresh : node ∉ held) (code : UInt64) :
    ∃ hmap', hmInsert (Function.update hcode node code) hmap node = some hmap' ∧
      hmap'.Holds (Function.update hcode node code) (Insert.insert node held) := by
  refine hmInsert_spec (holds.congr fun x member => ?_) fresh
  rw [Function.update_of_ne]
  rintro rfl
  exact fresh member

omit [DecidableEq ρ] in
theorem lookup (holds : hmap.Holds hcode held) {key : UInt64} {eq : ρ → Bool}
    (respects : Respects hcode held key eq) :
    ∃ found hmap', hmLookup hcode hmap key eq = some (found, hmap') ∧
      hmap'.Holds hcode held ∧ Finds held eq found := by
  obtain ⟨found, hmap', run, holds', spec⟩ := hmLookup_spec holds respects
  refine ⟨found, hmap', run, holds', ?_⟩
  cases found with
  | none => exact ⟨by simp, by simpa using spec⟩
  | some node => exact ⟨by simpa using spec, by simpa using ⟨node, spec⟩⟩

theorem delete (holds : hmap.Holds hcode held) {key : UInt64} {eq : ρ → Bool}
    (respects : Respects hcode held key eq) :
    ∃ found hmap', hmDelete hcode hmap key eq = some (found, hmap') ∧
      hmap'.Holds hcode (found.elim held held.erase) ∧ Finds held eq found := by
  obtain ⟨found, hmap', run, spec⟩ := hmDelete_spec holds respects
  refine ⟨found, hmap', run, ?_⟩
  cases found with
  | none => exact ⟨spec.1, by simp, by simpa using spec.2⟩
  | some node => exact ⟨spec.1, by simpa using spec.2, by simpa using ⟨node, spec.2⟩⟩

end HMap.Holds

/-- Each operation keeps the map in step with the bookkeeping. -/
theorem HmReachable.holds {hcode : ρ → UInt64} {hmap : HMap ρ} {held : Finset ρ}
    (reachable : HmReachable hcode hmap held) : hmap.Holds hcode held := by
  induction reachable with
  | empty hcode => exact HMap.Holds.empty
  | insert before fresh code run ih =>
      obtain ⟨_, run', holds⟩ := ih.insert fresh code
      rw [run] at run'
      cases run'
      exact holds
  | lookup before key eq respects run ih =>
      obtain ⟨_, _, run', holds, -⟩ := ih.lookup respects
      rw [run] at run'
      cases run'
      exact holds
  | delete before key eq respects run ih =>
      obtain ⟨_, _, run', holds, -⟩ := ih.delete respects
      rw [run] at run'
      cases run'
      exact holds

end MiniRedis
