import MiniRedis.Hashtable.Load

/-!
# The rounds of the migration loop

The loop of `hm_progressive_rehash` has no bounds test. It stays inside the older
table because a size above zero means a node in a slot which it has not passed, so
the size fields and the emptied slots are followed here through all calls. Deletions
take nodes from any slot, after the migration work of their call, so they alone can
leave an empty older table allocated.
-/

namespace MiniRedis

variable {ρ : Type} {hcode : ρ → UInt64}

/-- Each node is in the bucket of its hash code, and the size field counts them all. -/
structure HTab.Counted (hcode : ρ → UInt64) (htab : HTab ρ) : Prop where
  placed : ∀ (pos : Nat) (chain : List ρ), htab.tab[pos]? = some chain →
    ∀ node ∈ chain, htabIdx htab (hcode node) = pos
  size : htab.size = (htab.tab.map List.length).sum

/-- `rounds` rounds of the loop, entered with `start`, lead to `hmap` with `count` nodes moved. -/
inductive MigrateRounds (hcode : ρ → UInt64) (start : HMap ρ) : Nat → HMap ρ → Nat → Prop where
  | enter : MigrateRounds hcode start 0 start 0
  | round {rounds count count' : Nat} {hmap hmap' : HMap ρ}
      (before : MigrateRounds hcode start rounds hmap count)
      (busy : count < kRehashWork ∧ hmap.older.size > 0)
      (body : hmMigrateRound hcode hmap count = some (hmap', count')) :
      MigrateRounds hcode start (rounds + 1) hmap' count'

/-- The loop entered with `start` reads no slot behind the last one, makes a bounded number
of rounds and ends when its test fails. The work around it frees an emptied table. -/
structure HMap.MigrationEnds (hcode : ρ → UInt64) (start : HMap ρ) : Prop where
  inside : ∀ {rounds count : Nat} {hmap : HMap ρ}, MigrateRounds hcode start rounds hmap count →
    count < kRehashWork ∧ hmap.older.size > 0 →
      hmap.older.tab.length = start.older.tab.length ∧
        hmap.migratePos < start.older.tab.length
  bounded : ∀ {rounds count : Nat} {hmap : HMap ρ}, MigrateRounds hcode start rounds hmap count →
    rounds ≤ kRehashWork + start.older.tab.length
  ends : ∃ rounds hmap count, MigrateRounds hcode start rounds hmap count ∧
    ¬(count < kRehashWork ∧ hmap.older.size > 0) ∧ hmMigrate hcode start 0 = some hmap
  freed : ∃ hmap, hmProgressiveRehash hcode start = some hmap ∧
    (hmap.older.tab ≠ [] ↔ hmap.older.size > 0)

theorem HTab.counted_of_ready {htab : HTab ρ} (ready : htab = {} ∨ htab.Valid hcode) :
    htab.Counted hcode := by
  rcases ready with rfl | valid
  · exact ⟨by simp, rfl⟩
  · refine ⟨valid.placed, ?_⟩
    rw [valid.size, HTab.nodes, List.length_flatten]

namespace HMap.Shaped

variable {hmap : HMap ρ}

/-- A node in the older table means that both tables are allocated. -/
theorem migrating (shaped : hmap.Shaped hcode) (nonempty : hmap.older.size > 0) :
    hmap.Migrating hcode := by
  rcases shaped with ⟨unallocated, -⟩ | migrating
  · rw [unallocated] at nonempty
    exact absurd nonempty (Nat.lt_irrefl 0)
  · exact migrating

theorem allocated (shaped : hmap.Shaped hcode) (nonempty : hmap.older.size > 0) :
    hmap.older.tab ≠ [] :=
  (shaped.migrating nonempty).older.ne_nil

theorem drained (shaped : hmap.Shaped hcode) :
    ∀ pos < hmap.migratePos, ∀ chain, hmap.older.tab[pos]? = some chain → chain = [] := by
  rcases shaped with ⟨unallocated, -⟩ | migrating
  · simp [unallocated]
  · exact migrating.drained

end HMap.Shaped

/-- Every round uses up one node of the batch or one slot of the table. -/
theorem MigrateRounds.progress {start hmap : HMap ρ} {rounds count : Nat}
    (shaped : start.Shaped hcode) (run : MigrateRounds hcode start rounds hmap count) :
    hmap.Shaped hcode ∧ hmap.older.tab.length = start.older.tab.length ∧
      count ≤ kRehashWork ∧ rounds + start.migratePos = count + hmap.migratePos ∧
      (rounds > 0 → hmap.migratePos ≤ start.older.tab.length) := by
  induction run with
  | enter => exact ⟨shaped, rfl, Nat.zero_le _, rfl, fun moved => absurd moved (Nat.lt_irrefl 0)⟩
  | @round rounds count count' hmap hmap' _ busy body ih =>
      obtain ⟨shapedHere, slots, -, spent, -⟩ := ih
      have migrating := shapedHere.migrating busy.2
      obtain ⟨_, _, body', migrating', -, -, mask, inside, moved⟩ :=
        hmMigrateRound_spec migrating busy.2 count
      rw [body] at body'
      cases body'
      have slots' : hmap'.older.tab.length = hmap.older.tab.length := by
        rw [migrating'.older.slots, mask, migrating.older.slots]
      exact ⟨.inr migrating', slots'.trans slots, by omega, by omega, fun _ => by omega⟩

/-- The loop of `hm_progressive_rehash` is made of these rounds. -/
theorem MigrateRounds.hmMigrate_eq {start hmap : HMap ρ} {rounds count : Nat}
    (run : MigrateRounds hcode start rounds hmap count) :
    hmMigrate hcode start 0 = hmMigrate hcode hmap count := by
  induction run with
  | enter => rfl
  | round _ busy body ih =>
      rw [ih, hmMigrate_of_busy busy, body]
      rfl

/-- A batch and the slots of the older table bound the number of rounds. -/
theorem MigrateRounds.le {start hmap : HMap ρ} {rounds count : Nat}
    (shaped : start.Shaped hcode) (run : MigrateRounds hcode start rounds hmap count) :
    rounds ≤ kRehashWork + start.older.tab.length := by
  obtain ⟨-, -, budget, spent, inside⟩ := run.progress shaped
  by_cases moved : rounds > 0
  · have slots := inside moved
    omega
  · omega

/-- From wherever the loop stands, its test fails after some more rounds. -/
theorem MigrateRounds.finish {start hmap : HMap ρ} {rounds count : Nat}
    (shaped : start.Shaped hcode) (run : MigrateRounds hcode start rounds hmap count) :
    ∃ rounds' hmap' count', MigrateRounds hcode start rounds' hmap' count' ∧
      ¬(count' < kRehashWork ∧ hmap'.older.size > 0) := by
  induction left : kRehashWork + start.older.tab.length - rounds
    generalizing rounds hmap count with
  | zero =>
      refine ⟨rounds, hmap, count, run, fun busy => ?_⟩
      obtain ⟨shapedHere, -⟩ := run.progress shaped
      obtain ⟨hmap', count', body, -⟩ :=
        hmMigrateRound_spec (shapedHere.migrating busy.2) busy.2 count
      have bound := (run.round busy body).le shaped
      omega
  | succ left ih =>
      by_cases busy : count < kRehashWork ∧ hmap.older.size > 0
      · obtain ⟨shapedHere, -⟩ := run.progress shaped
        obtain ⟨hmap', count', body, -⟩ :=
          hmMigrateRound_spec (shapedHere.migrating busy.2) busy.2 count
        exact ih (run.round busy body) (by omega)
      · exact ⟨rounds, hmap, count, run, busy⟩

/-- The rehash discards an emptied table. -/
theorem hmProgressiveRehash_freed {hmap hmap' : HMap ρ} (shaped : hmap.Shaped hcode)
    (run : hmProgressiveRehash hcode hmap = some hmap') :
    hmap'.older.tab ≠ [] ↔ hmap'.older.size > 0 := by
  have rehashed := shaped.rehashed run
  constructor
  · intro old
    rcases rehashed.older with discarded | ⟨remaining, -⟩
    · exact absurd (by rw [discarded]) old
    · exact remaining
  · exact rehashed.shaped.allocated

/-- Started on a shaped map, the migration work is safe and ends. -/
theorem HMap.Shaped.migrationEnds {start : HMap ρ} (shaped : start.Shaped hcode) :
    start.MigrationEnds hcode := by
  constructor
  · intro rounds count hmap run busy
    obtain ⟨shapedHere, slots, -⟩ := run.progress shaped
    obtain ⟨_, _, -, -, -, -, -, inside, -⟩ :=
      hmMigrateRound_spec (shapedHere.migrating busy.2) busy.2 count
    exact ⟨slots, slots ▸ inside⟩
  · intro rounds count hmap run
    exact run.le shaped
  · obtain ⟨rounds, hmap, count, run, idle⟩ := MigrateRounds.enter.finish shaped
    refine ⟨rounds, hmap, count, run, idle, ?_⟩
    rw [run.hmMigrate_eq, hmMigrate, if_neg idle]
  · obtain ⟨hmap, run, -⟩ := hmProgressiveRehash_spec shaped
    exact ⟨hmap, run, hmProgressiveRehash_freed shaped run⟩

/-- A deletion frees the older table before it takes its node. -/
theorem hmDelete_freed {hmap : HMap ρ} (shaped : hmap.Shaped hcode) (key : UInt64)
    (eq : ρ → Bool) :
    ∃ found hmap', hmDelete hcode hmap key eq = some (found, hmap') ∧
      (hmap'.older.tab ≠ [] ↔
        hmap'.older.size > 0 ∨ hmap.older.size = kRehashWork + 1) := by
  obtain ⟨found, rehashed, hmap', run, rehash, shaped', newer, older, spec⟩ :=
    hmDelete_run shaped key eq
  have moved := shaped.rehashed rehash
  have size := moved.size
  have freed := hmProgressiveRehash_freed shaped rehash
  have taken : hmSize rehashed ≤ hmSize hmap' + 1 := by
    rw [moved.shaped.size, shaped'.size]
    cases found with
    | none =>
        rw [spec.1]
        exact Nat.le_succ _
    | some node => rw [spec.1.length_eq, List.length_cons]
  have fewer := newer.size
  simp only [hmSize] at taken
  refine ⟨found, hmap', run, fun old => ?_, ?_⟩
  · have before := freed.mp (mt older.allocated.mpr old)
    omega
  · rintro (remaining | last)
    · exact shaped'.allocated remaining
    · exact mt older.allocated.mp (freed.mpr (by omega))

/-- The first table has four slots. -/
theorem hmInitNewer_slots {hmap ready : HMap ρ} (init : hmInitNewer hmap = some ready) :
    ready.newer.mask + 1 ≤ max 4 (hmap.newer.mask + 1) := by
  by_cases missing : hmap.newer.tab = []
  · have first : hmInitNewer hmap =
        some { hmap with newer := { tab := List.replicate 4 [], mask := 3, size := 0 } } := by
      simp [hmInitNewer, missing, htabInit]
    rw [init] at first
    cases first
    exact Nat.le_max_left ..
  · have unchanged : hmInitNewer hmap = some hmap := by simp [hmInitNewer, missing]
    rw [init] at unchanged
    cases unchanged
    exact Nat.le_max_right ..

/-- An insertion adds no slots, or it leaves a migration out of a table which was exactly full. -/
theorem hmInsert_slots {hmap hmap' : HMap ρ} (shaped : hmap.Shaped hcode)
    (loaded : hmap.Loaded 0 0) {node : ρ} (run : hmInsert hcode hmap node = some hmap') :
    hmap'.newer.mask + 1 ≤ max 4 (hmap.newer.mask + 1) ∨
      ∃ k, 2 ^ k ≤ max 4 (hmap.newer.mask + 1) ∧ hmap'.newer.mask + 1 = 2 ^ k * 2 ∧
        hmap'.older.size = kMaxLoadFactor * 2 ^ k - kRehashWork := by
  obtain ⟨ready, newer, checked, _, init, readyShaped, readyValid, inserted, newerValid,
    addedShaped, check, checkedShaped, rehash, run', -⟩ := hmInsert_run shaped node
  rw [run] at run'
  cases run'
  have slots := hmInitNewer_slots init
  have addedLoaded := (loaded.initNewer shaped init).inserted readyValid inserted
  obtain ⟨_, inserted', -, -, mask⟩ := htabInsert_spec readyValid node
  rw [inserted] at inserted'
  cases inserted'
  obtain ⟨_, check', -, -, outcome⟩ := hmCheckLoad_spec addedShaped newerValid
  rw [check] at check'
  cases check'
  have rehashed := checkedShaped.rehashed rehash
  rcases outcome with ⟨rfl, -⟩ | ⟨unallocated, migrating, renamed, doubled⟩
  · left
    rw [rehashed.mask, mask]
    exact slots
  · right
    simp only at unallocated renamed doubled
    have due : newer.size ≥ (newer.mask + 1) * kMaxLoadFactor := by
      by_contra early
      simp only [hmCheckLoad, unallocated, List.isEmpty_nil, early, and_false, if_false] at check
      cases check
      simp only at doubled
      omega
    have resting := addedLoaded.resting (by rw [unallocated]) newerValid.ne_nil
    obtain ⟨k, power⟩ := newerValid.power
    rw [newerValid.slots] at power
    refine ⟨k + 2, by omega, by rw [rehashed.mask, doubled, power], ?_⟩
    simp only [hmSize, unallocated, power, kMaxLoadFactor] at resting due ⊢
    rw [rehashed.size, renamed]
    omega

variable [DecidableEq ρ]

/-- Deleting a node by its own key takes it out of the older table if it is there. -/
theorem hmDelete_of_older {hmap rehashed : HMap ρ}
    (rehash : hmProgressiveRehash hcode hmap = some rehashed) (shaped : rehashed.Shaped hcode)
    (nodup : rehashed.nodes.Nodup) {node : ρ} (held : node ∈ rehashed.older.nodes) :
    ∃ older, hmDelete hcode hmap (hcode node) (fun curr => curr == node) =
        some (some node, { rehashed with older := older }) ∧
      older.tab ≠ [] ∧ older.size + 1 = rehashed.older.size := by
  obtain ⟨first, firstRun, firstSpec⟩ :=
    htabLookup_spec shaped.newer (hcode node) (fun curr => curr == node)
  obtain ⟨second, secondRun, secondSpec⟩ :=
    htabLookup_spec shaped.older (hcode node) (fun curr => curr == node)
  cases first with
  | some link =>
      obtain ⟨target, -, member, accepted⟩ := firstSpec
      rw [beq_iff_eq] at accepted
      rw [accepted] at member
      exact absurd held (List.disjoint_of_nodup_append nodup member)
  | none =>
      cases second with
      | none =>
          have missing := secondSpec (fun curr _ same => by rw [beq_iff_eq.mp same]) node held
          simp at missing
      | some link =>
          obtain ⟨target, found, -, accepted⟩ := secondSpec
          rw [beq_iff_eq] at accepted
          rw [accepted] at found
          have valid := HTab.Valid.of_htabAt shaped.older found
          obtain ⟨older, detached, olderValid, perm, -⟩ := htabDetach_spec valid found
          refine ⟨older, ?_, olderValid.ne_nil, ?_⟩
          · simp [hmDelete, rehash, firstRun, secondRun, detached]
          · rw [valid.size, olderValid.size, perm.length_eq, List.length_cons]

/-- Some run leads to an allocated older table which counts `left` nodes. -/
def Remains (ρ : Type) [DecidableEq ρ] (left : Nat) : Prop :=
  ∃ (hcode : ρ → UInt64) (hmap : HMap ρ) (held : Finset ρ), HmReachable hcode hmap held ∧
    hmap.older.tab ≠ [] ∧ hmap.older.size = left

namespace Remains

variable {left : Nat}

/-- A search for nothing moves one batch. -/
theorem lookup (remains : Remains ρ (left + kRehashWork)) (unfinished : left > 0) :
    Remains ρ left := by
  obtain ⟨hcode, hmap, held, reachable, -, size⟩ := remains
  have respects : Respects hcode held 0 fun _ => false := by simp [Respects]
  obtain ⟨found, hmap', run, -⟩ := reachable.holds.lookup respects
  obtain ⟨_, _, run', rehash, -⟩ := hmLookup_run reachable.holds.shaped 0 fun _ => false
  rw [run] at run'
  cases run'
  have rehashed := reachable.holds.shaped.rehashed rehash
  have remaining : hmap'.older.size = left := by
    rw [rehashed.size, size, Nat.add_sub_cancel]
  exact ⟨hcode, hmap', held, reachable.lookup 0 _ respects run,
    rehashed.shaped.allocated (remaining ▸ unfinished), remaining⟩

/-- A deletion can move one batch and take one more node out. -/
theorem delete (remains : Remains ρ (left + (kRehashWork + 1))) : Remains ρ left := by
  obtain ⟨hcode, hmap, held, reachable, -, size⟩ := remains
  have holds := reachable.holds
  obtain ⟨rehashed, rehash, moved⟩ := hmProgressiveRehash_spec holds.shaped
  have remaining : rehashed.older.size = left + 1 := by
    rw [moved.size, size]
    omega
  obtain ⟨node, member⟩ : ∃ node, node ∈ rehashed.older.nodes := by
    apply List.exists_mem_of_length_pos
    rw [← HTab.size_of_ready moved.shaped.older]
    omega
  obtain ⟨older, run, allocated, taken⟩ :=
    hmDelete_of_older rehash moved.shaped (moved.nodes.nodup_iff.mpr holds.nodup) member
  have respects : Respects hcode held (hcode node) fun curr => curr == node := by
    intro curr _ same
    rw [beq_iff_eq.mp same]
  exact ⟨hcode, _, _, reachable.delete _ _ respects run, allocated, by simp only; omega⟩

theorem lookups (unfinished : left > 0) (calls : Nat)
    (remains : Remains ρ (left + kRehashWork * calls)) : Remains ρ left := by
  induction calls with
  | zero => exact remains
  | succ calls ih =>
      rw [Nat.mul_succ, ← Nat.add_assoc] at remains
      exact ih (remains.lookup (by omega))

theorem deletes (calls : Nat) (remains : Remains ρ (left + (kRehashWork + 1) * calls)) :
    Remains ρ left := by
  induction calls with
  | zero => exact remains
  | succ calls ih =>
      rw [Nat.mul_succ, ← Nat.add_assoc] at remains
      exact ih remains.delete

end Remains

/-- Only a table of 4096 slots doubles beyond 4096. -/
theorem eq_twelve_of_doubled {k : Nat} (before : 2 ^ k ≤ 4096) (beyond : 4096 < 2 ^ k * 2) :
    k = 12 := by
  have atMost : k ≤ 12 := (Nat.pow_le_pow_iff_right (by decide : 1 < 2)).mp before
  have atLeast : 12 < k + 1 := (Nat.pow_lt_pow_iff_right (by decide : 1 < 2)).mp beyond
  omega

/-- Insertions into at most 4096 slots go on until the map has doubled them. -/
theorem Remains.full (inserted : Nat) :
    (∃ (hcode : Nat → UInt64) (hmap : HMap Nat) (held : Finset Nat),
      HmReachable hcode hmap held ∧ held.card = inserted ∧ hmap.newer.mask + 1 ≤ 4096) ∨
    Remains Nat (kMaxLoadFactor * 4096 - kRehashWork) := by
  induction inserted with
  | zero => exact .inl ⟨fun _ => 0, {}, ∅, .empty _, rfl, by simp⟩
  | succ inserted ih =>
      rcases ih with ⟨hcode, hmap, held, reachable, count, slots⟩ | remains
      · obtain ⟨node, fresh⟩ := Infinite.exists_notMem_finset held
        obtain ⟨hmap', run, -⟩ := reachable.holds.insert fresh 0
        have next := reachable.insert fresh 0 run
        obtain ⟨shaped, loaded⟩ := reachable.run.loaded
        have updated := shaped.update (mt reachable.holds.mem_iff.mp fresh) 0
        rcases hmInsert_slots updated loaded run with kept | ⟨k, before, doubled, size⟩
        · exact .inl ⟨_, hmap', _, next, by rw [Finset.card_insert_of_notMem fresh, count],
            by omega⟩
        · rcases Nat.lt_or_ge 4096 (2 ^ k * 2) with beyond | small
          · rw [eq_twelve_of_doubled (by omega) beyond] at size
            have remaining : hmap'.older.size > 0 := by
              rw [size]
              decide
            exact .inr ⟨_, hmap', _, next, next.holds.shaped.allocated remaining, size⟩
          · exact .inl ⟨_, hmap', _, next, by rw [Finset.card_insert_of_notMem fresh, count],
              by omega⟩
      · exact .inr remains

/-- After 32768 insertions the older table holds all nodes but one batch. -/
theorem Remains.start : Remains Nat (kMaxLoadFactor * 4096 - kRehashWork) := by
  rcases Remains.full (kMaxLoadFactor * 4096) with
    ⟨hcode, hmap, held, reachable, count, slots⟩ | full
  · obtain ⟨shaped, loaded⟩ := reachable.run.loaded
    have total : hmSize hmap = kMaxLoadFactor * 4096 := (hmSize_spec reachable.holds).trans count
    have allocated : hmap.newer.tab ≠ [] := by
      intro missing
      rcases shaped.newer with unallocated | valid
      · rw [shaped.size_of_missing unallocated] at total
        exact absurd total (by decide)
      · exact valid.ne_nil missing
    have load := loaded.unpay.lt shaped allocated
    simp only [total, kMaxLoadFactor] at load
    omega
  · exact full

end MiniRedis
