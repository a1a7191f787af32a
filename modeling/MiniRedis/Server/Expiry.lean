import MiniRedis.Server.Handover

/-!
# The expiry loop

A pass deletes entries whose deadline has passed, always the earliest one, and stops at
the first which is not due or when its budget is used up.
-/

namespace MiniRedis

/-- A key disappears from the map only if its deadline lies before `nowMs`. -/
def ExpiresOnly (nowMs : Nat) (before after : Contents) : Prop :=
  ∀ k, after k = before k ∨
    after k = none ∧ ∃ record val, before k = some record ∧ record.deadline = some val ∧ val < nowMs

/-- No key which disappears had a later deadline than one which stays. -/
def ExpiresEarliest (before after : Contents) : Prop :=
  ∀ k record val, before k = some record → record.deadline = some val → after k = none →
    ∀ k' record' val', after k' = some record' → record'.deadline = some val' → val ≤ val'

/-- No deadline in the map lies before `nowMs`. -/
def NoneDue (nowMs : Nat) (map : Contents) : Prop :=
  ∀ k record val, map k = some record → record.deadline = some val → nowMs ≤ val

variable {state : Server} {clock : Nat} {entries : Finset Addr} {deadline : Addr → Option Nat}
  {tree : Addr → BinaryTree Addr}

/-- The deadlines in the map are those of the entries. -/
theorem Server.Invariant.deadline_of_contents
    (invariant : state.Invariant clock entries deadline tree) {k : Bytes} {record : Record}
    (found : state.contents k = some record) :
    ∃ ent ∈ entries, deadline ent = record.deadline := by
  obtain ⟨ent, inNodes, -, same⟩ := KeyedList.exists_of_lookup found
  have member := invariant.keyed.index.mem_iff.mp inNodes
  refine ⟨ent, member, ?_⟩
  rw [← same, invariant.record_eq member]
  rfl

/-- The root of the heap is due first. -/
theorem Server.Invariant.noneDue (invariant : state.Invariant clock entries deadline tree) {nowMs : Nat}
    (early : ∀ top ∈ state.ttlHeap.arr[0]?, nowMs ≤ top.val) : NoneDue nowMs state.contents := by
  intro k record val found due
  obtain ⟨ent, -, same⟩ := invariant.deadline_of_contents found
  rw [due] at same
  obtain ⟨pos, -, slot⟩ := invariant.timed.holds.exists_slot same
  have inside : 0 < state.ttlHeap.arr.length :=
    (Nat.zero_le pos).trans_lt (List.getElem?_eq_some_iff.mp slot).1
  have root := List.getElem?_eq_getElem inside
  exact (early _ root).trans (invariant.timed.holds.root_le root same)

/-- One deletion of the loop: the entry at the root of the heap is in the table. -/
theorem expire_step (invariant : state.Invariant clock entries deadline tree) {top : HeapItem Addr}
    (root : state.ttlHeap.arr[0]? = some top) :
    ∃ db state' destroyed queued, hmDelete state.hcode state.db (state.hcode top.ref) (· == top.ref) =
        some (some top.ref, db) ∧ entryDel { state with db := db } top.ref = some state' ∧
      destroyed ++ queued = [top.ref] ∧ state.HandsOver destroyed queued state' ∧
      state'.Consistent clock ∧
      (∃ record, state.contents (state.key top.ref) = some record ∧ record.deadline = some top.val) ∧
      state'.contents = Function.update state.contents (state.key top.ref) none := by
  have deadlineTop := (invariant.timed.holds.items top).mp (List.mem_of_getElem? root)
  have member := (invariant.timed.due top.ref top.val deadlineTop).1
  obtain ⟨db, removed, keyed⟩ := invariant.keyed.deleteSame member
  obtain ⟨state', destroyed, queued, run, single, handsOver, consistent, moved⟩ :=
    invariant.entryDel member keyed
  exact ⟨db, state', destroyed, queued, removed, run, single, handsOver, consistent,
    ⟨_, invariant.contents_of_mem member, deadlineTop⟩, moved⟩

theorem ExpiresOnly.trans {nowMs : Nat} {first second third : Contents}
    (before : ExpiresOnly nowMs first second) (after : ExpiresOnly nowMs second third) :
    ExpiresOnly nowMs first third := by
  intro k
  rcases after k with same | ⟨gone, record, val, found, due, past⟩
  · rw [same]
    exact before k
  · rcases before k with same | ⟨gone', old⟩
    · exact .inr ⟨gone, record, val, same ▸ found, due, past⟩
    · exact .inr ⟨gone, old⟩

theorem ExpiresOnly.refl {nowMs : Nat} (map : Contents) : ExpiresOnly nowMs map map := fun _ => .inl rfl

/-- What stays is as before. -/
theorem ExpiresOnly.kept {nowMs : Nat} {before after : Contents} (expires : ExpiresOnly nowMs before after)
    {k : Bytes} {record : Record} (found : after k = some record) : before k = some record := by
  rcases expires k with same | ⟨gone, -⟩
  · rw [← same, found]
  · rw [gone] at found
    cases found

/-- The deletion of one key which is due. -/
theorem ExpiresOnly.update {nowMs : Nat} {map : Contents} {key : Bytes} {record : Record} {val : Nat}
    (found : map key = some record) (due : record.deadline = some val) (past : val < nowMs) :
    ExpiresOnly nowMs map (Function.update map key none) := by
  intro k
  rcases eq_or_ne k key with rfl | other
  · exact .inr ⟨Function.update_self _ _ _, record, val, found, due, past⟩
  · exact .inl (Function.update_of_ne other _ _)

/-- Deleting the earliest key first. -/
theorem ExpiresEarliest.cons {nowMs : Nat} {map after : Contents} {key : Bytes} {record : Record}
    {val : Nat} (found : map key = some record) (due : record.deadline = some val)
    (least : NoneDue val map) (expires : ExpiresOnly nowMs (Function.update map key none) after)
    (rest : ExpiresEarliest (Function.update map key none) after) : ExpiresEarliest map after := by
  intro k record' val' found' due' gone k' other val'' kept dueLater
  rcases eq_or_ne k key with rfl | differs
  · rw [found, Option.some.injEq] at found'
    subst found'
    rw [due, Option.some.injEq] at due'
    subst due'
    have stayed := expires.kept kept
    rcases eq_or_ne k' k with rfl | differs
    · rw [Function.update_self] at stayed
      cases stayed
    · rw [Function.update_of_ne differs] at stayed
      exact least k' other val'' stayed dueLater
  · refine rest k record' val' ?_ due' gone k' other val'' kept dueLater
    rw [Function.update_of_ne differs, found']

/-- What a pass does which has a budget of `budget` deletions. -/
structure Server.Expires (state : Server) (nowMs budget : Nat) (destroyed queued : List Addr)
    (state' : Server) : Prop where
  handsOver : state.HandsOver destroyed queued state'
  only : ExpiresOnly nowMs state.contents state'.contents
  earliest : ExpiresEarliest state.contents state'.contents
  bounded : (destroyed ++ queued).length ≤ budget
  finished : (destroyed ++ queued).length < budget → NoneDue nowMs state'.contents

/-- A pass which finds nothing to do, or has no budget. -/
theorem Server.Expires.nothing {nowMs budget : Nat}
    (finished : 0 < budget → NoneDue nowMs state.contents) :
    state.Expires nowMs budget [] [] state := by
  refine ⟨.refl state, .refl _, fun k record val found due gone => ?_, Nat.zero_le _, finished⟩
  rw [found] at gone
  cases gone

/-- The loop never meets an entry outside the table, and keeps the invariant. It hands over
one entry a round and stops early only when no key is due. -/
theorem expireFrom_spec (consistent : state.Consistent clock) (nowMs left : Nat) :
    ∃ state' destroyed queued, expireFrom nowMs state left = some state' ∧
      state'.Consistent clock ∧ state.Expires nowMs left destroyed queued state' := by
  induction left generalizing state with
  | zero => exact ⟨state, [], [], rfl, consistent, .nothing fun budget => absurd budget (Nat.lt_irrefl 0)⟩
  | succ left ih =>
      obtain ⟨entries, deadline, tree, invariant⟩ := consistent
      cases root : state.ttlHeap.arr[0]? with
      | none =>
          refine ⟨state, [], [], by simp [expireFrom, root], invariant.consistent, .nothing fun _ => ?_⟩
          exact invariant.noneDue (by simp [root])
      | some top =>
          by_cases due : top.val < nowMs
          · obtain ⟨db, next, destroyed, queued, removed, deleted, single, handsOver, consistent,
              ⟨record, found, dueTop⟩, moved⟩ := expire_step invariant root
            obtain ⟨state', destroyed', queued', run, consistent', rest⟩ := ih consistent
            have count : (destroyed ++ destroyed' ++ (queued ++ queued')).length =
                (destroyed' ++ queued').length + 1 := by
              have one := congrArg List.length single
              simp only [List.length_append, List.length_singleton] at one ⊢
              omega
            have only := rest.only
            have earliest := rest.earliest
            rw [moved] at only earliest
            refine ⟨state', destroyed ++ destroyed', queued ++ queued',
              by simp [expireFrom, root, due, removed, deleted, run], consistent', ?_⟩
            constructor
            · exact handsOver.trans rest.handsOver
            · exact (ExpiresOnly.update found dueTop due).trans only
            · exact .cons found dueTop (invariant.noneDue (by simp [root])) only earliest
            · rw [count]
              exact Nat.succ_le_succ rest.bounded
            · rw [count]
              exact fun early => rest.finished (Nat.lt_of_succ_lt_succ early)
          · refine ⟨state, [], [], by simp [expireFrom, root, due], invariant.consistent,
              .nothing fun _ => ?_⟩
            exact invariant.noneDue (by simpa [root] using due)

/-- A timer pass keeps the invariant, at the clock reading it starts with. -/
theorem processTimers_spec (consistent : state.Consistent clock) (env : Env) (later : clock ≤ env.now) :
    ∃ state' destroyed queued, processTimers env state = some state' ∧ state'.Consistent env.now ∧
      state.Expires env.now kMaxWorks destroyed queued state' :=
  expireFrom_spec (consistent.later later) env.now kMaxWorks

/-- The empty server is consistent. -/
theorem Server.Initial.consistent (initial : state.Initial) (clock : Nat) :
    state.Consistent clock := by
  refine ⟨∅, fun _ => none, fun _ => .nil, ?_, ?_, ?_, ?_⟩
  · rw [initial.db]
    exact ⟨HMap.Holds.empty, by simp, by simp, by simp⟩
  · have holds := TtlHeap.Holds.empty state.ttlHeap.heapIdx
    rw [← initial.arr] at holds
    exact ⟨holds, by simp, by simp⟩
  · rw [initial.tasks]
    exact ⟨by simp, by simp⟩
  · rw [initial.tasks]
    exact ⟨.nil, by simp, by simp⟩

end MiniRedis
