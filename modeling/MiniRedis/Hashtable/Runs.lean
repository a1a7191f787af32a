import MiniRedis.Hashtable.Migration

/-!
# The hashtable over whole runs

The map is a set at every stage of a migration, its load stays bounded, and every migration ends.
-/

namespace MiniRedis

variable {ρ : Type} {hcode : ρ → UInt64} [DecidableEq ρ]

/-- Whatever the stage of the migration, the map is the set of held nodes: it contains
each of them once, and every operation runs and acts as on that set. -/
theorem hm_reachable {hcode : ρ → UInt64} {hmap : HMap ρ} {held : Finset ρ}
    (reachable : HmReachable hcode hmap held) :
    hmap.nodes.Nodup ∧ (∀ x, x ∈ hmap.nodes ↔ x ∈ held) ∧ hmSize hmap = held.card ∧
    (∀ {σ : Type} (cb : σ → ρ → σ × Bool) (args : σ), (∀ args node, (cb args node).2 = true) →
      hmForeach cb hmap args = some (hmap.nodes.foldl (fun args node => (cb args node).1) args)) ∧
    (∀ node ∉ held, ∀ code, ∃ hmap',
      hmInsert (Function.update hcode node code) hmap node = some hmap' ∧
      ∀ x, x ∈ hmap'.nodes ↔ x = node ∨ x ∈ held) ∧
    (∀ key eq, Respects hcode held key eq → ∃ found hmap',
      hmLookup hcode hmap key eq = some (found, hmap') ∧
      Finds held eq found ∧ ∀ x, x ∈ hmap'.nodes ↔ x ∈ held) ∧
    (∀ key eq, Respects hcode held key eq → ∃ found hmap',
      hmDelete hcode hmap key eq = some (found, hmap') ∧
      Finds held eq found ∧ ∀ x, x ∈ hmap'.nodes ↔ x ∈ held ∧ found ≠ some x) := by
  have holds := reachable.holds
  refine ⟨holds.nodup, fun x => holds.mem_iff, hmSize_spec holds, fun cb args always => ?_,
    fun node fresh code => ?_, fun key eq respects => ?_, fun key eq respects => ?_⟩
  · refine hmForeach_spec (fun args node => ?_) holds.shaped args
    exact Prod.ext rfl (always args node)
  · obtain ⟨hmap', run, holds'⟩ := holds.insert fresh code
    exact ⟨hmap', run, fun x => by rw [holds'.mem_iff, Finset.mem_insert]⟩
  · obtain ⟨found, hmap', run, holds', finds⟩ := holds.lookup respects
    exact ⟨found, hmap', run, finds, fun x => holds'.mem_iff⟩
  · obtain ⟨found, hmap', run, holds', finds⟩ := holds.delete respects
    refine ⟨found, hmap', run, finds, fun x => ?_⟩
    rw [holds'.mem_iff]
    cases found with
    | none => simp
    | some node =>
        rw [Option.elim_some, Finset.mem_erase]
        exact ⟨fun ⟨other, member⟩ => ⟨member, fun same => other (Option.some.inj same).symm⟩,
          fun ⟨member, other⟩ => ⟨fun same => other (by rw [same]), member⟩⟩

/-- In the middle of a migration each node is counted once and found by its own key. -/
theorem hm_reachable_migrating : ∃ (hcode : Nat → UInt64) (hmap : HMap Nat) (held : Finset Nat),
    hmap.older.size > 0 ∧ hmSize hmap = held.card ∧ hmap.nodes.Nodup ∧
    ∀ node ∈ held, ∃ hmap', hmDelete hcode hmap (hcode node) (fun curr => curr == node) =
      some (some node, hmap') ∧ ∀ x, x ∈ hmap'.nodes ↔ x ∈ held ∧ x ≠ node := by
  obtain ⟨hcode, hmap, held, reachable, -, size⟩ := Remains.start
  obtain ⟨nodup, -, total, -, -, -, delete⟩ := hm_reachable reachable
  refine ⟨hcode, hmap, held, by rw [size]; decide, total, nodup, fun node member => ?_⟩
  obtain ⟨found, hmap', run, finds, rest⟩ := delete (hcode node) (fun curr => curr == node)
    fun curr _ same => by rw [beq_iff_eq.mp same]
  obtain rfl : found = some node := by
    cases found with
    | none => simpa using finds.2.mp rfl node member
    | some other => rw [beq_iff_eq.mp (finds.1 other rfl).2]
  refine ⟨hmap', run, fun x => ?_⟩
  rw [rest, ne_eq, Option.some.injEq, eq_comm]

/-- After any calls the map is below its load factor. No insertion fails, each call during
a migration advances it, and the load check never meets a table which is due for a resize
while an older one is still there. -/
theorem hm_load {hmap : HMap ρ} (reached : HmRun hcode hmap) :
    (hmap.newer.tab ≠ [] → hmSize hmap < kMaxLoadFactor * hmap.newer.tab.length ∧
      ∃ k, hmap.newer.tab.length = 2 ^ k) ∧
    (∀ node ∉ hmap.nodes, ∀ code, ∃ ready newer hmap', hmInitNewer hmap = some ready ∧
      htabInsert (Function.update hcode node code) ready.newer node = some newer ∧
      (ready.older.tab ≠ [] → newer.size < (newer.mask + 1) * kMaxLoadFactor) ∧
      hmInsert (Function.update hcode node code) hmap node = some hmap' ∧
      hmap.Advances hmap') ∧
    (∀ key eq, ∃ found hmap', hmLookup hcode hmap key eq = some (found, hmap') ∧
      hmap.Advances hmap') ∧
    (∀ key eq, ∃ found hmap', hmDelete hcode hmap key eq = some (found, hmap') ∧
      hmap.Advances hmap') := by
  obtain ⟨shaped, loaded⟩ := reached.loaded
  refine ⟨fun allocated => ?_, fun node fresh code => ?_, fun key eq => ?_, fun key eq => ?_⟩
  · have valid := HTab.valid_of_tab shaped.newer allocated
    rw [valid.slots]
    obtain ⟨k, power⟩ := valid.power
    exact ⟨loaded.unpay.lt shaped allocated, k + 2, valid.slots.symm.trans power⟩
  · obtain ⟨ready, newer, hmap', init, inserted, below, run, -, -, advances⟩ :=
      hmInsert_loaded (shaped.update fresh code) loaded node
    exact ⟨ready, newer, hmap', init, inserted, below, run, advances⟩
  · obtain ⟨found, hmap', run, -, -, advances⟩ := hmLookup_loaded shaped loaded key eq
    exact ⟨found, hmap', run, advances⟩
  · obtain ⟨found, hmap', run, -, -, advances⟩ := hmDelete_loaded shaped loaded key eq
    exact ⟨found, hmap', run, advances⟩

/-- In the middle of a migration the load is bounded, and any insertion advances it. -/
theorem hm_load_migrating : ∃ (hcode : Nat → UInt64) (hmap : HMap Nat),
    hmap.older.size > 0 ∧ hmSize hmap < kMaxLoadFactor * hmap.newer.tab.length ∧
    ∀ node ∉ hmap.nodes, ∃ hmap', hmInsert (Function.update hcode node 0) hmap node = some hmap' ∧
      hmap.Advances hmap' := by
  obtain ⟨hcode, hmap, held, reachable, -, size⟩ := Remains.start
  obtain ⟨below, insert, -⟩ := hm_load reachable.run
  have unfinished : hmap.older.size > 0 := by
    rw [size]
    decide
  obtain ⟨shaped, -⟩ := reachable.run.loaded
  refine ⟨hcode, hmap, unfinished, (below (shaped.migrating unfinished).newer.ne_nil).1,
    fun node fresh => ?_⟩
  obtain ⟨_, _, hmap', -, -, -, run, advances⟩ := insert node fresh 0
  exact ⟨hmap', run, advances⟩

/-- In every reachable map each table is counted, the slots in front of `migrate_pos` are
empty and the counted nodes of the older table have an array. Every migration loop which a
call starts is safe and ends. An insertion or a search frees the older table exactly when
it is empty; a deletion may take the last node of 129 after its migration work, and leaves
the empty array to the next call. -/
theorem hm_migration {hmap : HMap ρ} (reached : HmRun hcode hmap) :
    (hmap.newer.Counted hcode ∧ hmap.older.Counted hcode ∧
      (∀ pos < hmap.migratePos, ∀ chain, hmap.older.tab[pos]? = some chain → chain = []) ∧
      (hmap.older.size > 0 → hmap.older.tab ≠ [])) ∧
    (∀ node ∉ hmap.nodes, ∀ code, ∃ ready newer checked hmap', hmInitNewer hmap = some ready ∧
      htabInsert (Function.update hcode node code) ready.newer node = some newer ∧
      hmCheckLoad { ready with newer := newer } = some checked ∧
      checked.MigrationEnds (Function.update hcode node code) ∧
      hmInsert (Function.update hcode node code) hmap node = some hmap' ∧
      (hmap'.older.tab ≠ [] ↔ hmap'.older.size > 0)) ∧
    hmap.MigrationEnds hcode ∧
    (∀ key eq, ∃ found hmap', hmLookup hcode hmap key eq = some (found, hmap') ∧
      (hmap'.older.tab ≠ [] ↔ hmap'.older.size > 0)) ∧
    (∀ key eq, ∃ found hmap', hmDelete hcode hmap key eq = some (found, hmap') ∧
      (hmap'.older.tab ≠ [] ↔
        hmap'.older.size > 0 ∨ hmap.older.size = kRehashWork + 1)) := by
  obtain ⟨shaped, -⟩ := reached.loaded
  refine ⟨⟨HTab.counted_of_ready shaped.newer, HTab.counted_of_ready shaped.older,
    shaped.drained, shaped.allocated⟩, fun node fresh code => ?_, shaped.migrationEnds,
    fun key eq => ?_, fun key eq => ?_⟩
  · obtain ⟨ready, newer, checked, hmap', init, -, -, inserted, -, -, check, checkedShaped, rehash,
      run, -⟩ := hmInsert_run (shaped.update fresh code) node
    exact ⟨ready, newer, checked, hmap', init, inserted, check, checkedShaped.migrationEnds, run,
      hmProgressiveRehash_freed checkedShaped rehash⟩
  · obtain ⟨found, hmap', run, rehash, -⟩ := hmLookup_run shaped key eq
    exact ⟨found, hmap', run, hmProgressiveRehash_freed shaped rehash⟩
  · exact hmDelete_freed shaped key eq

/-- In the middle of a migration its loop is safe and ends, and a search does not free the older
table. -/
theorem hm_migration_migrating : ∃ (hcode : Nat → UInt64) (hmap : HMap Nat),
    hmap.older.size > 0 ∧ hmap.older.tab ≠ [] ∧ hmap.older.Counted hcode ∧
    hmap.MigrationEnds hcode := by
  obtain ⟨hcode, hmap, held, reachable, -, size⟩ := Remains.start
  obtain ⟨⟨-, older, -, allocated⟩, -, ends, -⟩ := hm_migration reachable.run
  have unfinished : hmap.older.size > 0 := by
    rw [size]
    decide
  exact ⟨hcode, hmap, unfinished, allocated unfinished, older, ends⟩

/-- After 32768 insertions, 126 searches and 128 deletions, the last of which takes the last
node of the older table, its array is still there. -/
theorem hm_older_outlives_nodes : ¬ ∀ (hcode : Nat → UInt64) (hmap : HMap Nat),
    HmRun hcode hmap → (hmap.older.tab ≠ [] ↔ hmap.older.size > 0) := by
  intro always
  have full : Remains Nat (0 + (kRehashWork + 1) * 128 + kRehashWork * 126) := Remains.start
  obtain ⟨hcode, hmap, held, reachable, allocated, empty⟩ := (full.lookups (by decide)).deletes
  have counted := (always hcode hmap reachable.run).mp allocated
  omega

end MiniRedis
