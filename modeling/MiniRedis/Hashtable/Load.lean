import MiniRedis.Hashtable.Reachable

/-!
# The load factor over whole runs

`hm_insert` does not check the load of the newer table while an older one exists.
The bound survives because each call pays for its insertion: it moves up to 128 nodes,
and the table left behind was full when its migration began.
-/

namespace MiniRedis

variable {ρ : Type} {hcode : ρ → UInt64}

/-- The load between two steps of a call. `unchecked` insertions wait for the load
check and `unpaid` ones for their share of the migration. -/
structure HMap.Loaded (hmap : HMap ρ) (unchecked unpaid : Nat) : Prop where
  resting : hmap.older.tab = [] → hmap.newer.tab ≠ [] →
    hmSize hmap < kMaxLoadFactor * (hmap.newer.mask + 1) + unchecked
  doubled : hmap.older.tab ≠ [] → hmap.newer.mask + 1 = (hmap.older.mask + 1) * 2
  growing : hmap.older.tab ≠ [] →
    kRehashWork * hmSize hmap + hmap.older.size ≤
      (kRehashWork + 1) * (kMaxLoadFactor * (hmap.older.mask + 1)) + kRehashWork * unpaid

/-- The smallest table has four slots. -/
theorem HTab.Valid.four_le {htab : HTab ρ} (valid : htab.Valid hcode) : 4 ≤ htab.mask + 1 := by
  obtain ⟨k, power⟩ := valid.power
  have positive := Nat.two_pow_pos k
  rw [← valid.slots, power, pow_add]
  omega

/-- Without a newer table there is no older one either. -/
theorem HMap.Shaped.size_of_missing {hmap : HMap ρ} (shaped : hmap.Shaped hcode)
    (missing : hmap.newer = {}) : hmSize hmap = 0 := by
  rcases shaped with ⟨unallocated, -⟩ | migrating
  · simp [hmSize, missing, unallocated]
  · exact absurd (by rw [missing]) migrating.newer.ne_nil

namespace HMap.Loaded

variable {hmap hmap' : HMap ρ} {unpaid : Nat}

theorem empty : HMap.Loaded ({} : HMap ρ) 0 0 :=
  ⟨fun _ allocated => absurd rfl allocated, fun old => absurd rfl old, fun old => absurd rfl old⟩

/-- An insertion which is not paid for yet leaves room in the newer table. -/
theorem lt_of_growing {unchecked : Nat} (loaded : hmap.Loaded unchecked 1)
    (shaped : hmap.Shaped hcode) (old : hmap.older.tab ≠ []) :
    hmSize hmap < kMaxLoadFactor * (hmap.newer.mask + 1) := by
  have slots := (HTab.valid_of_tab shaped.older old).four_le
  have doubled := loaded.doubled old
  have growing := loaded.growing old
  simp only [kRehashWork, kMaxLoadFactor] at growing ⊢
  omega

theorem unpay (loaded : hmap.Loaded 0 0) : hmap.Loaded 0 1 where
  resting := loaded.resting
  doubled := loaded.doubled
  growing old := (loaded.growing old).trans (Nat.le_add_right _ _)

/-- Before and after the migration work, an allocated map is below its load factor. -/
theorem lt (loaded : hmap.Loaded 0 1) (shaped : hmap.Shaped hcode)
    (allocated : hmap.newer.tab ≠ []) :
    hmSize hmap < kMaxLoadFactor * (hmap.newer.mask + 1) := by
  by_cases old : hmap.older.tab = []
  · exact loaded.resting old allocated
  · exact loaded.lt_of_growing shaped old

/-- Allocating the first table adds slots and no nodes. -/
theorem initNewer (loaded : hmap.Loaded 0 0) (shaped : hmap.Shaped hcode)
    (run : hmInitNewer hmap = some hmap') : hmap'.Loaded 0 0 := by
  obtain ⟨_, run', shaped', -, nodes, older, unchanged⟩ := hmInitNewer_spec shaped
  rw [run] at run'
  cases run'
  rcases unchanged with rfl | ⟨unallocated, nothing⟩
  · exact loaded
  · have empty : hmSize hmap' = 0 := by rw [shaped'.size, nodes, nothing, List.length_nil]
    rw [unallocated] at older
    constructor
    · intro _ _
      simp only [empty, kMaxLoadFactor]
      omega
    · intro old
      exact absurd (by rw [older]) old
    · intro old
      exact absurd (by rw [older]) old

/-- Inserting into the newer table uses up one unit of either slack. -/
theorem inserted (loaded : hmap.Loaded 0 0) (valid : hmap.newer.Valid hcode) {node : ρ}
    {newer : HTab ρ} (run : htabInsert hcode hmap.newer node = some newer) :
    HMap.Loaded { hmap with newer := newer } 1 1 := by
  obtain ⟨_, run', valid', perm, mask⟩ := htabInsert_spec valid node
  rw [run] at run'
  cases run'
  have count : hmSize { hmap with newer := newer } = hmSize hmap + 1 := by
    simp only [hmSize, valid'.size, valid.size, perm.length_eq, List.length_cons]
    omega
  constructor
  · intro rest _
    have resting := loaded.resting rest valid.ne_nil
    simp only [count, mask]
    omega
  · intro old
    rw [mask]
    exact loaded.doubled old
  · intro old
    have growing := loaded.growing old
    simp only [count, kRehashWork] at growing ⊢
    omega

/-- The load check either finds the table below its threshold or starts a migration
out of a table which is exactly full. -/
theorem checkLoad (loaded : hmap.Loaded 1 1) (shaped : hmap.Shaped hcode)
    (valid : hmap.newer.Valid hcode) (run : hmCheckLoad hmap = some hmap') :
    hmap'.Loaded 0 1 := by
  obtain ⟨_, run', shaped', nodes, outcome⟩ := hmCheckLoad_spec shaped valid
  rw [run] at run'
  cases run'
  rcases outcome with ⟨rfl, early⟩ | ⟨unallocated, migrating, renamed, doubled⟩
  · refine ⟨fun rest _ => ?_, loaded.doubled, loaded.growing⟩
    have below := early rest
    simp only [hmSize, shaped.unallocated rest, kMaxLoadFactor] at below ⊢
    omega
  · have resting := loaded.resting (by rw [unallocated]) valid.ne_nil
    have total : hmSize hmap = hmap.newer.size := by rw [hmSize, unallocated, Nat.add_zero]
    have same : hmSize hmap' = hmSize hmap := by rw [shaped'.size, shaped.size, nodes]
    constructor
    · intro rest
      exact absurd rest migrating.older.ne_nil
    · intro _
      rw [doubled, renamed]
    · intro _
      rw [same, renamed, total]
      rw [total] at resting
      simp only [kRehashWork, kMaxLoadFactor] at resting ⊢
      omega

/-- The migration work of a call pays for its insertion. -/
theorem progressiveRehash (loaded : hmap.Loaded 0 1) (shaped : hmap.Shaped hcode)
    (run : hmProgressiveRehash hcode hmap = some hmap') : hmap'.Loaded 0 0 := by
  have rehashed := shaped.rehashed run
  have same : hmSize hmap' = hmSize hmap := by
    rw [rehashed.shaped.size, shaped.size, rehashed.nodes.length_eq]
  rcases rehashed.older with discarded | ⟨remaining, olderMask⟩
  · refine ⟨fun _ _ => ?_, fun old => absurd (by rw [discarded]) old,
      fun old => absurd (by rw [discarded]) old⟩
    rw [same, rehashed.mask]
    rcases shaped.newer with missing | valid
    · simp only [shaped.size_of_missing missing, kMaxLoadFactor]
      omega
    · exact loaded.lt shaped valid.ne_nil
  · have size := rehashed.size
    have old : hmap.older.tab ≠ [] := by
      intro rest
      rw [shaped.unallocated rest] at size
      simp only at size
      omega
    have doubled := loaded.doubled old
    have growing := loaded.growing old
    constructor
    · intro rest
      rw [rehashed.shaped.unallocated rest] at remaining
      exact absurd remaining (Nat.lt_irrefl 0)
    · intro _
      rw [rehashed.mask, olderMask, doubled]
    · intro _
      rw [same, olderMask]
      simp only [kRehashWork, kMaxLoadFactor] at size growing ⊢
      omega

/-- Taking a node out only lowers the load. -/
theorem shrinks (loaded : hmap.Loaded 0 0) (newer : hmap.newer.Shrinks hmap'.newer)
    (older : hmap.older.Shrinks hmap'.older) : hmap'.Loaded 0 0 := by
  have fewer : hmSize hmap' ≤ hmSize hmap := Nat.add_le_add newer.size older.size
  constructor
  · intro rest allocated
    rw [newer.mask]
    exact fewer.trans_lt (loaded.resting (older.allocated.mp rest) (mt newer.allocated.mpr allocated))
  · intro old
    rw [newer.mask, older.mask]
    exact loaded.doubled (mt older.allocated.mpr old)
  · intro old
    have growing := loaded.growing (mt older.allocated.mpr old)
    have remaining := older.size
    rw [older.mask]
    simp only [kRehashWork] at growing ⊢
    omega

end HMap.Loaded

/-- A call made during a migration ends it or moves a whole batch out of the older table. -/
def HMap.Advances (hmap hmap' : HMap ρ) : Prop :=
  hmap.older.tab ≠ [] →
    hmap'.older.tab = [] ∨ hmap'.older.size + kRehashWork ≤ hmap.older.size

theorem hmProgressiveRehash_advances {hmap hmap' : HMap ρ} (shaped : hmap.Shaped hcode)
    (run : hmProgressiveRehash hcode hmap = some hmap') : hmap.Advances hmap' := by
  have rehashed := shaped.rehashed run
  have size := rehashed.size
  intro _
  rcases rehashed.older with discarded | ⟨remaining, -⟩
  · exact .inl (by rw [discarded])
  · exact .inr (by omega)

/-- One insertion. The load check runs with an older table present only while the newer
one is below its threshold. -/
theorem hmInsert_loaded {hmap : HMap ρ} (shaped : hmap.Shaped hcode) (loaded : hmap.Loaded 0 0)
    (node : ρ) :
    ∃ ready newer hmap', hmInitNewer hmap = some ready ∧
      htabInsert hcode ready.newer node = some newer ∧
      (ready.older.tab ≠ [] → newer.size < (newer.mask + 1) * kMaxLoadFactor) ∧
      hmInsert hcode hmap node = some hmap' ∧ hmap'.Shaped hcode ∧ hmap'.Loaded 0 0 ∧
      hmap.Advances hmap' := by
  obtain ⟨ready, newer, checked, hmap', init, readyShaped, readyValid, inserted, newerValid,
    addedShaped, check, checkedShaped, rehash, run, shaped', -⟩ := hmInsert_run shaped node
  have addedLoaded := (loaded.initNewer shaped init).inserted readyValid inserted
  have checkedLoaded := addedLoaded.checkLoad addedShaped newerValid check
  refine ⟨ready, newer, hmap', init, inserted, fun old => ?_, run, shaped',
    checkedLoaded.progressiveRehash checkedShaped rehash, fun old => ?_⟩
  · have below := addedLoaded.lt_of_growing addedShaped old
    simp only [hmSize, kMaxLoadFactor] at below ⊢
    omega
  · obtain ⟨_, init', -, -, -, readyOlder, -⟩ := hmInitNewer_spec shaped
    rw [init] at init'
    cases init'
    obtain ⟨_, check', -, -, outcome⟩ := hmCheckLoad_spec addedShaped newerValid
    rw [check] at check'
    cases check'
    rcases outcome with ⟨rfl, -⟩ | ⟨unallocated, -⟩
    · have advances := hmProgressiveRehash_advances checkedShaped rehash
      rw [HMap.Advances, readyOlder] at advances
      exact advances old
    · simp only [readyOlder] at unallocated
      exact absurd (by rw [unallocated]) old

theorem hmLookup_loaded {hmap : HMap ρ} (shaped : hmap.Shaped hcode) (loaded : hmap.Loaded 0 0)
    (key : UInt64) (eq : ρ → Bool) :
    ∃ found hmap', hmLookup hcode hmap key eq = some (found, hmap') ∧ hmap'.Shaped hcode ∧
      hmap'.Loaded 0 0 ∧ hmap.Advances hmap' := by
  obtain ⟨found, hmap', run, rehash, -⟩ := hmLookup_run shaped key eq
  exact ⟨found, hmap', run, (shaped.rehashed rehash).shaped,
    loaded.unpay.progressiveRehash shaped rehash, hmProgressiveRehash_advances shaped rehash⟩

theorem hmDelete_loaded {hmap : HMap ρ} (shaped : hmap.Shaped hcode) (loaded : hmap.Loaded 0 0)
    (key : UInt64) (eq : ρ → Bool) :
    ∃ found hmap', hmDelete hcode hmap key eq = some (found, hmap') ∧ hmap'.Shaped hcode ∧
      hmap'.Loaded 0 0 ∧ hmap.Advances hmap' := by
  obtain ⟨found, rehashed, hmap', run, rehash, shaped', newer, older, -⟩ :=
    hmDelete_run shaped key eq
  have rehashedLoaded := loaded.unpay.progressiveRehash shaped rehash
  refine ⟨found, hmap', run, shaped', rehashedLoaded.shrinks newer older, fun old => ?_⟩
  rcases hmProgressiveRehash_advances shaped rehash old with done | moved
  · exact .inl (older.allocated.mpr done)
  · exact .inr ((Nat.add_le_add_right older.size _).trans moved)

variable [DecidableEq ρ]

/-- The maps which any calls make of an empty one, whatever keys and callbacks they are
given. A node is inserted when it is in no chain. -/
inductive HmRun : (ρ → UInt64) → HMap ρ → Prop where
  | empty (hcode : ρ → UInt64) : HmRun hcode {}
  | insert {hcode : ρ → UInt64} {hmap hmap' : HMap ρ} {node : ρ}
      (before : HmRun hcode hmap) (fresh : node ∉ hmap.nodes) (code : UInt64)
      (run : hmInsert (Function.update hcode node code) hmap node = some hmap') :
      HmRun (Function.update hcode node code) hmap'
  | lookup {hcode : ρ → UInt64} {hmap hmap' : HMap ρ} {found : Option ρ}
      (before : HmRun hcode hmap) (key : UInt64) (eq : ρ → Bool)
      (run : hmLookup hcode hmap key eq = some (found, hmap')) : HmRun hcode hmap'
  | delete {hcode : ρ → UInt64} {hmap hmap' : HMap ρ} {found : Option ρ}
      (before : HmRun hcode hmap) (key : UInt64) (eq : ρ → Bool)
      (run : hmDelete hcode hmap key eq = some (found, hmap')) : HmRun hcode hmap'

/-- A node outside the map gets its hash code. -/
theorem HMap.Shaped.update {hmap : HMap ρ} (shaped : hmap.Shaped hcode) {node : ρ}
    (fresh : node ∉ hmap.nodes) (code : UInt64) :
    hmap.Shaped (Function.update hcode node code) := by
  apply shaped.congr
  intro x member
  rw [Function.update_of_ne]
  rintro rfl
  exact fresh member

/-- Every call keeps the shape and the load. -/
theorem HmRun.loaded {hmap : HMap ρ} (reached : HmRun hcode hmap) :
    hmap.Shaped hcode ∧ hmap.Loaded 0 0 := by
  induction reached with
  | empty hcode => exact ⟨.inl ⟨rfl, .inl rfl⟩, HMap.Loaded.empty⟩
  | insert before fresh code run ih =>
      obtain ⟨_, _, _, -, -, -, run', shaped, loaded, -⟩ :=
        hmInsert_loaded (ih.1.update fresh code) ih.2 _
      rw [run] at run'
      cases run'
      exact ⟨shaped, loaded⟩
  | lookup before key eq run ih =>
      obtain ⟨_, _, run', shaped, loaded, -⟩ := hmLookup_loaded ih.1 ih.2 key eq
      rw [run] at run'
      cases run'
      exact ⟨shaped, loaded⟩
  | delete before key eq run ih =>
      obtain ⟨_, _, run', shaped, loaded, -⟩ := hmDelete_loaded ih.1 ih.2 key eq
      rw [run] at run'
      cases run'
      exact ⟨shaped, loaded⟩

/-- Calls with keys and callbacks which fit are calls. -/
theorem HmReachable.run {hmap : HMap ρ} {held : Finset ρ}
    (reachable : HmReachable hcode hmap held) : HmRun hcode hmap := by
  induction reachable with
  | empty hcode => exact .empty hcode
  | insert before fresh code run ih =>
      exact .insert ih (fun member => fresh (before.holds.mem_iff.mp member)) code run
  | lookup _ key eq _ run ih => exact .lookup ih key eq run
  | delete _ key eq _ run ih => exact .delete ih key eq run

end MiniRedis
