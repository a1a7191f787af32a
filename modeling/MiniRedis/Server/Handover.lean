import MiniRedis.Server.Entries

/-!
# Handing removed entries to their destroyers

An entry which leaves the table is destroyed at once or queued for a worker. Destroying
it frees the nodes of its sorted set.
-/

namespace MiniRedis

/-- Some entries leave the table: `destroyed` are freed with their nodes, `queued` become
tasks. Everything else keeps its owner. -/
structure Server.HandsOver (state : Server) (destroyed queued : List Addr) (state' : Server) :
    Prop where
  once : (destroyed ++ queued).Nodup
  linked : ∀ ent ∈ destroyed ++ queued, ent ∈ state.db.nodes
  nodes : ∀ ent, ent ∈ state'.db.nodes ↔ ent ∈ state.db.nodes ∧ ent ∉ destroyed ++ queued
  tasks : state'.tasks = state.tasks ++ queued
  live : state'.live = state.live \ destroyed.toFinset
  disposed : (destroyed.flatMap state.members).Nodup
  owned : ∀ node ∈ destroyed.flatMap state.members, node ∈ state.zmemory.live
  freed : state'.zmemory.live = state.zmemory.live \ (destroyed.flatMap state.members).toFinset
  kept : ∀ ent ∉ destroyed, state'.members ent = state.members ent

/-- No entry leaves the table, and `created` are allocated and enter it. -/
structure Server.Keeps (state : Server) (created : Finset Addr) (state' : Server) : Prop where
  fresh : ∀ ent ∈ created, ent ∉ state.live
  nodes : ∀ ent, ent ∈ state'.db.nodes ↔ ent ∈ created ∨ ent ∈ state.db.nodes
  tasks : state'.tasks = state.tasks
  live : state'.live = created ∪ state.live

variable {state state' state'' : Server}

namespace Server.HandsOver

theorem refl (state : Server) : state.HandsOver [] [] state := by
  constructor <;> simp

theorem trans {destroyed destroyed' queued queued' : List Addr}
    (first : state.HandsOver destroyed queued state')
    (second : state'.HandsOver destroyed' queued' state'') :
    state.HandsOver (destroyed ++ destroyed') (queued ++ queued') state'' := by
  have later : ∀ ent ∈ destroyed' ++ queued', ent ∈ state.db.nodes ∧ ent ∉ destroyed ++ queued :=
    fun ent member => (first.nodes ent).mp (second.linked ent member)
  have undestroyed : ∀ ent ∈ destroyed', ent ∉ destroyed := fun ent member gone =>
    (later ent (List.mem_append_left _ member)).2 (List.mem_append_left _ gone)
  have shuffle : ((destroyed ++ destroyed') ++ (queued ++ queued')).Perm
      ((destroyed ++ queued) ++ (destroyed' ++ queued')) := by
    simp only [List.append_assoc, List.perm_append_left_iff]
    exact List.perm_append_comm_assoc _ _ _
  have members : destroyed'.flatMap state'.members = destroyed'.flatMap state.members :=
    List.flatMap_congr fun ent member => first.kept ent (undestroyed ent member)
  have owned : ∀ node ∈ destroyed'.flatMap state.members, node ∈ state.zmemory.live ∧
      node ∉ destroyed.flatMap state.members := by
    intro node member
    have left := second.owned node (members ▸ member)
    rw [first.freed, Finset.mem_sdiff, List.mem_toFinset] at left
    exact left
  have total : (destroyed ++ destroyed').flatMap state.members =
      destroyed.flatMap state.members ++ destroyed'.flatMap state.members := List.flatMap_append
  constructor
  · rw [shuffle.nodup_iff, List.nodup_append]
    refine ⟨first.once, second.once, fun ent before other after same => ?_⟩
    exact (later other after).2 (same ▸ before)
  · intro ent member
    rcases List.mem_append.mp (shuffle.mem_iff.mp member) with before | after
    · exact first.linked ent before
    · exact (later ent after).1
  · intro ent
    have gone : ent ∈ (destroyed ++ destroyed') ++ (queued ++ queued') ↔
        ent ∈ destroyed ++ queued ∨ ent ∈ destroyed' ++ queued' := by
      rw [shuffle.mem_iff, List.mem_append]
    rw [second.nodes, first.nodes, gone, not_or, and_assoc]
  · rw [second.tasks, first.tasks, List.append_assoc]
  · rw [second.live, first.live, List.toFinset_append, sdiff_sdiff_left, Finset.sup_eq_union]
  · rw [total, List.nodup_append]
    refine ⟨first.disposed, members ▸ second.disposed, fun node before other after same => ?_⟩
    exact (owned other after).2 (same ▸ before)
  · intro node member
    rw [total, List.mem_append] at member
    rcases member with before | after
    · exact first.owned node before
    · exact (owned node after).1
  · rw [second.freed, first.freed, members, total, List.toFinset_append, sdiff_sdiff_left,
      Finset.sup_eq_union]
  · intro ent kept
    rw [List.mem_append, not_or] at kept
    rw [second.kept ent kept.2, first.kept ent kept.1]

end Server.HandsOver

namespace Server.Keeps

theorem refl (state : Server) : state.Keeps ∅ state := by
  constructor <;> simp

theorem trans {created created' : Finset Addr} (first : state.Keeps created state')
    (second : state'.Keeps created' state'') : state.Keeps (created' ∪ created) state'' := by
  constructor
  · intro ent member
    rcases Finset.mem_union.mp member with after | before
    · have unused := second.fresh ent after
      rw [first.live, Finset.mem_union, not_or] at unused
      exact unused.2
    · exact first.fresh ent before
  · intro ent
    rw [second.nodes, first.nodes, Finset.mem_union, or_assoc]
  · rw [second.tasks, first.tasks]
  · rw [second.live, first.live, Finset.union_assoc]

/-- A change to values and deadlines keeps what came before it. -/
theorem of_eq (db : state'.db = state.db) (tasks : state'.tasks = state.tasks)
    (live : state'.live = state.live) : state.Keeps ∅ state' := by
  constructor
  · simp
  · simp [db]
  · exact tasks
  · simp [live]

/-- Nothing has been handed over. -/
theorem of_handsOver (handsOver : state.HandsOver [] [] state') : state.Keeps ∅ state' := by
  constructor
  · simp
  · simp [handsOver.nodes]
  · simp [handsOver.tasks]
  · simp [handsOver.live]

end Server.Keeps

/-! ## Under the invariant -/

namespace Server.Invariant

variable {clock : Nat} {entries : Finset Addr} {deadline : Addr → Option Nat}
  {tree : Addr → BinaryTree Addr}

/-- The nodes of an owner are those of its tree. -/
theorem mem_members (invariant : state.Invariant clock entries deadline tree) {ent node : Addr}
    (owner : ent ∈ entries ∪ state.tasks.toFinset) (member : node ∈ state.members ent) :
    node ∈ (tree ent).toList := by
  rw [Server.members] at member
  split at member
  · simpa [(invariant.owning.holds ent owner).index.mem_iff] using member
  · cases member

/-- An entry has each of its nodes once. -/
theorem members_nodup (invariant : state.Invariant clock entries deadline tree) {ent : Addr}
    (owner : ent ∈ entries ∪ state.tasks.toFinset) : (state.members ent).Nodup := by
  rw [Server.members]
  split
  · exact (invariant.owning.holds ent owner).index.nodup
  · exact List.nodup_nil

/-- `entry_del` of an entry which has just left the table hands it over once. -/
theorem entryDel (invariant : state.Invariant clock entries deadline tree) {ent : Addr}
    (member : ent ∈ entries) {db : HMap Addr}
    (keyed : Keyed db state.hcode state.key state.type (entries.erase ent)) :
    ∃ state' destroyed queued, MiniRedis.entryDel { state with db := db } ent = some state' ∧
      destroyed ++ queued = [ent] ∧ state.HandsOver destroyed queued state' ∧
      state'.Consistent clock ∧
      state'.contents = Function.update state.contents (state.key ent) none := by
  obtain ⟨state', deadline', tree', run, invariant', keys, table, disposes, views⟩ :=
    @entryDel_spec { state with db := db } clock entries deadline tree _ member keyed
      invariant.timed invariant.owning invariant.allocated
  have linked : ent ∈ state.db.nodes := invariant.keyed.index.mem_iff.mpr member
  have nodes : ∀ x, x ∈ state'.db.nodes ↔ x ∈ state.db.nodes ∧ x ∉ [ent] := by
    intro x
    rw [invariant'.keyed.index.mem_iff, invariant.keyed.index.mem_iff, Finset.mem_erase,
      List.mem_singleton, and_comm]
  have moved : state'.contents = Function.update state.contents (state.key ent) none := by
    apply invariant.contents_update invariant'
    · intro x inEntries differs
      have inRest : x ∈ entries.erase ent :=
        Finset.mem_erase.mpr ⟨fun same => differs (same ▸ rfl), inEntries⟩
      exact ⟨inRest, congrFun keys x, views x inRest⟩
    · intro x inRest _
      exact ⟨Finset.mem_of_mem_erase inRest, congrFun keys x⟩
    · apply invariant'.contents_of_absent
      intro x inRest same
      rw [keys] at same
      exact Finset.ne_of_mem_erase inRest
        (invariant.keyed.unique x (Finset.mem_of_mem_erase inRest) ent member same)
  cases disposes with
  | sync tasks live freed kept =>
      refine ⟨state', [ent], [], run, rfl, ⟨List.nodup_singleton _, ?_, nodes, ?_, ?_, ?_, ?_, ?_, ?_⟩,
        invariant'.consistent, moved⟩
      · simpa using linked
      · simpa using tasks
      · rw [live, Finset.erase_eq]
        rfl
      · simpa using invariant.members_nodup (owned member)
      · intro node inMembers
        rw [List.flatMap_singleton] at inMembers
        exact (invariant.owning.holds ent (owned member)).live node
          (invariant.mem_members (owned member) inMembers)
      · rw [List.flatMap_singleton]
        exact freed
      · intro x other
        exact kept x (by simpa using other)
  | queued tasks live same kept =>
      refine ⟨state', [], [ent], run, rfl, ⟨List.nodup_singleton _, ?_, nodes, tasks, ?_, ?_, ?_, ?_, ?_⟩,
        invariant'.consistent, moved⟩
      · simpa using linked
      · simpa using live
      · exact List.nodup_nil
      · exact nofun
      · simpa using same
      · intro x _
        exact kept x

end Server.Invariant

end MiniRedis
