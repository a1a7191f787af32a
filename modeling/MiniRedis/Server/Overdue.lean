import MiniRedis.Server.Sweep

/-!
# How many keys a timer pass removes

A pass deletes as many keys as are overdue, up to `kMaxWorks`, and the earliest ones if it
leaves some for the next pass.
-/

namespace MiniRedis

/-- The keys in the map. -/
def Contents.keys (map : Contents) : Set Bytes := {key | map key ≠ none}

/-- The keys whose deadline lies before `nowMs`. -/
def Contents.overdue (map : Contents) (nowMs : Nat) : Set Bytes :=
  {key | ∃ record val, map key = some record ∧ record.deadline = some val ∧ val < nowMs}

variable {state : Server} {clock nowMs : Nat} {env : Env} {map map' : Contents}

/-- The table has one node for each key. -/
theorem Server.Consistent.ncard_keys (consistent : state.Consistent clock) :
    state.contents.keys.Finite ∧ state.contents.keys.ncard = hmSize state.db := by
  obtain ⟨entries, deadline, tree, invariant⟩ := consistent
  have index := invariant.keyed.index
  have unique : KeyedList.Unique state.db.nodes state.key := by
    intro x left y right same
    exact invariant.keyed.unique x (index.mem_iff.mp left) y (index.mem_iff.mp right) same
  obtain ⟨finite, count⟩ := @KeyedList.ncard_keys _ _ _ _ _ _ state.record unique index.nodup
  rw [index.shaped.size]
  exact ⟨finite, count⟩

theorem Contents.overdue_subset_keys : map.overdue nowMs ⊆ map.keys := by
  rintro key ⟨record, val, found, -⟩ gone
  rw [found] at gone
  cases gone

/-- What disappears was there, and was overdue. -/
theorem ExpiresOnly.removed_subset (expires : ExpiresOnly nowMs map map') :
    map.keys \ map'.keys ⊆ map.overdue nowMs := by
  rintro key ⟨present, absent⟩
  cases expires key with
  | inl same => exact absurd (by rwa [Contents.keys, Set.mem_ofPred_eq, same]) absent
  | inr removed => exact removed.2

theorem ExpiresOnly.keys_subset (expires : ExpiresOnly nowMs map map') : map'.keys ⊆ map.keys := by
  intro key present gone
  cases expires key with
  | inl same => exact present (same.trans gone)
  | inr removed => exact present removed.1

/-- If nothing overdue is left, all that was overdue has disappeared. -/
theorem ExpiresOnly.removed_eq (expires : ExpiresOnly nowMs map map') (none : NoneDue nowMs map') :
    map.keys \ map'.keys = map.overdue nowMs := by
  apply expires.removed_subset.antisymm
  intro key overdue
  refine ⟨Contents.overdue_subset_keys overdue, fun kept => ?_⟩
  obtain ⟨record, val, found, due, past⟩ := overdue
  cases expires key with
  | inl same => exact absurd (none key record val (same.trans found) due) (Nat.not_le.mpr past)
  | inr removed => exact kept removed.1

/-- A pass removes what is overdue, up to `kMaxWorks` keys. -/
theorem processTimers_overdue (consistent : state.Consistent clock) (later : clock ≤ env.now) :
    ∃ state', processTimers env state = some state' ∧
      (state.contents.overdue env.now).Finite ∧
      (state.contents.keys \ state'.contents.keys).ncard =
        min kMaxWorks (state.contents.overdue env.now).ncard ∧
      ExpiresOnly env.now state.contents state'.contents ∧
      ExpiresEarliest state.contents state'.contents ∧
      ((state.contents.keys \ state'.contents.keys).ncard < kMaxWorks →
        state'.contents = state.contents.unexpired env.now) := by
  obtain ⟨state', run, bounded, only, earliest, finished⟩ := processTimers_swept consistent later
  obtain ⟨_, _, _, run', consistent', -⟩ := processTimers_spec consistent env later
  rw [run] at run'
  cases run'
  obtain ⟨finite, count⟩ := consistent.ncard_keys
  obtain ⟨finite', count'⟩ := consistent'.ncard_keys
  have overdue : (state.contents.overdue env.now).Finite := finite.subset Contents.overdue_subset_keys
  have removed := Set.ncard_sdiff only.keys_subset finite'
  rw [count, count'] at removed
  refine ⟨state', run, overdue, ?_, only, earliest, fun few => (finished (by omega)).1⟩
  by_cases early : hmSize state.db < hmSize state'.db + kMaxWorks
  · have all := only.removed_eq (finished early).2
    rw [← all, removed]
    omega
  · have fewer := Set.ncard_le_ncard only.removed_subset overdue
    rw [removed] at fewer ⊢
    omega

/-- In every reachable state a timer pass ends without a failed assertion and removes
`min kMaxWorks d` of the `d` overdue keys, the earliest ones; the others stay as they are. -/
theorem overdue_reachable (reachable : ServerReachable state clock) (later : clock ≤ env.now) :
    ∃ state', processTimers env state = some state' ∧
      (state.contents.overdue env.now).Finite ∧
      (state.contents.keys \ state'.contents.keys).ncard =
        min kMaxWorks (state.contents.overdue env.now).ncard ∧
      state.contents.keys \ state'.contents.keys ⊆ state.contents.overdue env.now ∧
      ExpiresEarliest state.contents state'.contents ∧
      state'.contents.keys ⊆ state.contents.keys ∧
      ∀ key ∈ state'.contents.keys, state'.contents key = state.contents key := by
  obtain ⟨state', run, finite, count, only, earliest, -⟩ :=
    processTimers_overdue reachable.consistent later
  refine ⟨state', run, finite, count, only.removed_subset, earliest, only.keys_subset, ?_⟩
  intro key kept
  cases only key with
  | inl same => exact same
  | inr removed => exact absurd removed.1 kept

/-- At eleven the one key whose deadline was ten is removed. -/
theorem overdue_reachable_late : ∃ state state' : Server,
    state.contents [122] = some ⟨.zset singleScore, some 10⟩ ∧
      processTimers Env.late state = some state' ∧
      (state.contents.keys \ state'.contents.keys).ncard =
        min kMaxWorks (state.contents.overdue Env.late.now).ncard := by
  obtain ⟨state, reachable, stored⟩ := reachable_pexpire
  obtain ⟨state', run, -, removed, -⟩ :=
    @overdue_reachable _ _ Env.late reachable (Nat.zero_le _)
  exact ⟨state, state', stored, run, removed⟩

end MiniRedis
