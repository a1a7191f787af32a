import MiniRedis.Hashtable.Tables

/-!
# Two tables and the migration between them

Every operation first moves nodes from the older table to the newer one. The
content of the map is the content of both tables together, so a move leaves it
alone; the operations then act on whichever table holds the node.
-/

namespace MiniRedis

variable {ρ σ : Type} {hcode : ρ → UInt64}

/-- The nodes of the map, newer table first as in `hm_foreach`. -/
def HMap.nodes (hmap : HMap ρ) : List ρ := hmap.newer.nodes ++ hmap.older.nodes

/-- Both tables are allocated; slots in front of `migrate_pos` have been emptied. -/
structure HMap.Migrating (hcode : ρ → UInt64) (hmap : HMap ρ) : Prop where
  newer : hmap.newer.Valid hcode
  older : hmap.older.Valid hcode
  drained : ∀ pos < hmap.migratePos, ∀ chain, hmap.older.tab[pos]? = some chain → chain = []

/-- The shape of a map between two operations. -/
def HMap.Shaped (hcode : ρ → UInt64) (hmap : HMap ρ) : Prop :=
  hmap.older = {} ∧ (hmap.newer = {} ∨ hmap.newer.Valid hcode) ∨ hmap.Migrating hcode

/-- A shaped map which holds exactly the nodes of a set, each of them once. -/
structure HMap.Holds (hcode : ρ → UInt64) (hmap : HMap ρ) (held : Finset ρ) : Prop where
  shaped : hmap.Shaped hcode
  nodes : (hmap.nodes : Multiset ρ) = held.val

/-- A table whose chains only shrink keeps its emptied slots. -/
theorem HMap.Migrating.drained_of_shrinks {hmap : HMap ρ} (migrating : hmap.Migrating hcode)
    {older : HTab ρ} (shrinks : ∀ (pos : Nat) (chain' : List ρ), older.tab[pos]? = some chain' →
      ∃ chain, hmap.older.tab[pos]? = some chain ∧ chain'.Sublist chain) :
    ∀ pos < hmap.migratePos, ∀ chain, older.tab[pos]? = some chain → chain = [] := by
  intro pos behind chain slot
  obtain ⟨old, oldSlot, sublist⟩ := shrinks pos chain slot
  rw [migrating.drained pos behind old oldSlot] at sublist
  exact List.sublist_nil.mp sublist

/-- While nodes remain, the migration cursor is inside the older table. -/
theorem HMap.Migrating.exists_slot {hmap : HMap ρ} (migrating : hmap.Migrating hcode)
    (nonempty : hmap.older.size > 0) :
    ∃ chain, hmap.older.tab[hmap.migratePos]? = some chain := by
  rw [migrating.older.size] at nonempty
  obtain ⟨node, member⟩ := List.exists_mem_of_length_pos nonempty
  obtain ⟨pos, chain, slot, inChain⟩ := HTab.mem_nodes.mp member
  have reached : hmap.migratePos ≤ pos := by
    by_contra behind
    have empty := migrating.drained pos (by omega) chain slot
    simp [empty] at inChain
  obtain ⟨inside, -⟩ := List.getElem?_eq_some_iff.mp slot
  exact ⟨_, List.getElem?_eq_getElem (lt_of_le_of_lt reached inside)⟩

theorem hmMigrate_of_idle {hmap : HMap ρ} (count : Nat) (idle : hmap.older.size = 0) :
    hmMigrate hcode hmap count = some hmap := by
  rw [hmMigrate, if_neg (by simp [idle])]

/-- The body of the loop of `hm_progressive_rehash`; it gives the next map and count. -/
def hmMigrateRound (hcode : ρ → UInt64) (hmap : HMap ρ) (count : Nat) : Option (HMap ρ × Nat) := do
  match ← hmap.older.tab[hmap.migratePos]? with
  | [] => return ({ hmap with migratePos := hmap.migratePos + 1 }, count)
  | _ :: _ =>
    let (node, older) ← htabDetach hmap.older ⟨hmap.migratePos, 0⟩
    let newer ← htabInsert hcode hmap.newer node
    return ({ hmap with newer := newer, older := older }, count + 1)

/-- While its test holds, the loop is one round and the loop again. -/
theorem hmMigrate_of_busy {hmap : HMap ρ} {count : Nat}
    (busy : count < kRehashWork ∧ hmap.older.size > 0) :
    hmMigrate hcode hmap count = (do
      let (hmap, count) ← hmMigrateRound hcode hmap count
      hmMigrate hcode hmap count) := by
  rw [hmMigrate, if_pos busy, hmMigrateRound]
  split
  next slot => simp [slot]
  next slot => simp [slot]
  next slot => simp [slot, Option.bind_assoc]

/-- A round reads inside the older table. It steps over an empty slot or moves one node. -/
theorem hmMigrateRound_spec {hmap : HMap ρ} (migrating : hmap.Migrating hcode)
    (nonempty : hmap.older.size > 0) (count : Nat) :
    ∃ hmap' count', hmMigrateRound hcode hmap count = some (hmap', count') ∧
      hmap'.Migrating hcode ∧ hmap'.nodes.Perm hmap.nodes ∧
      hmap'.newer.mask = hmap.newer.mask ∧ hmap'.older.mask = hmap.older.mask ∧
      hmap.migratePos < hmap.older.tab.length ∧
      (hmap'.migratePos = hmap.migratePos + 1 ∧ count' = count ∧
          hmap'.older.size = hmap.older.size ∨
        hmap'.migratePos = hmap.migratePos ∧ count' = count + 1 ∧
          hmap'.older.size + 1 = hmap.older.size) := by
  obtain ⟨chain, slot⟩ := migrating.exists_slot nonempty
  obtain ⟨inside, -⟩ := List.getElem?_eq_some_iff.mp slot
  cases chain with
  | nil =>
      refine ⟨{ hmap with migratePos := hmap.migratePos + 1 }, count, by simp [hmMigrateRound, slot],
        ⟨migrating.newer, migrating.older, fun pos behind chain at_pos => ?_⟩, .refl _, rfl, rfl,
        inside, .inl ⟨rfl, rfl, rfl⟩⟩
      rcases Nat.lt_succ_iff_lt_or_eq.mp behind with before | rfl
      · exact migrating.drained pos before chain at_pos
      · simpa [slot] using at_pos.symm
  | cons head tail =>
      have found : htabAt hmap.older ⟨hmap.migratePos, 0⟩ = some head := by simp [htabAt, slot]
      obtain ⟨older, detached, olderValid, olderPerm, olderMask, shrinks⟩ :=
        htabDetach_spec migrating.older found
      obtain ⟨newer, inserted, newerValid, newerPerm, newerMask⟩ :=
        htabInsert_spec migrating.newer head
      have olderCount := olderPerm.length_eq
      rw [List.length_cons, ← migrating.older.size, ← olderValid.size] at olderCount
      refine ⟨{ hmap with newer := newer, older := older }, count + 1,
        by simp [hmMigrateRound, slot, detached, inserted],
        ⟨newerValid, olderValid, migrating.drained_of_shrinks shrinks⟩, ?_, newerMask, olderMask,
        inside, .inr ⟨rfl, rfl, olderCount.symm⟩⟩
      simp only [HMap.nodes]
      apply (newerPerm.append_right _).trans
      rw [List.cons_append]
      exact List.perm_middle.symm.trans (olderPerm.symm.append_left _)

/-- The migration loop never leaves the table and moves as many nodes as its budget allows. -/
theorem hmMigrate_spec {hmap : HMap ρ} (migrating : hmap.Migrating hcode) (count : Nat) :
    ∃ hmap', hmMigrate hcode hmap count = some hmap' ∧ hmap'.Migrating hcode ∧
      hmap'.nodes.Perm hmap.nodes ∧ hmap'.newer.mask = hmap.newer.mask ∧
      hmap'.older.size = hmap.older.size - (kRehashWork - count) ∧
      hmap'.older.mask = hmap.older.mask := by
  -- Each round uses up one unit of the budget or one of the slots ahead.
  induction left : kRehashWork - count + (hmap.older.tab.length - hmap.migratePos)
    using Nat.strong_induction_on generalizing hmap count with
  | _ left ih =>
      by_cases busy : count < kRehashWork ∧ hmap.older.size > 0
      · obtain ⟨next, count', body, nextMigrating, nextPerm, nextNewer, nextOlder, inside, progress⟩ :=
          hmMigrateRound_spec migrating busy.2 count
        have slots : next.older.tab.length = hmap.older.tab.length := by
          rw [nextMigrating.older.slots, nextOlder, migrating.older.slots]
        obtain ⟨hmap', run, migrating', perm, newer, size, older⟩ :=
          ih _ (by omega) nextMigrating count' rfl
        refine ⟨hmap', ?_, migrating', perm.trans nextPerm, newer.trans nextNewer, by omega,
          older.trans nextOlder⟩
        rw [hmMigrate_of_busy busy, body]
        exact run
      · refine ⟨hmap, ?_, migrating, .refl _, rfl, by omega, rfl⟩
        rw [hmMigrate, if_neg busy]

/-- What the migration work of a call makes of a map: the content stays, one batch leaves the
older table, which is discarded when it is empty. -/
structure HMap.Rehashed (hcode : ρ → UInt64) (hmap hmap' : HMap ρ) : Prop where
  shaped : hmap'.Shaped hcode
  nodes : hmap'.nodes.Perm hmap.nodes
  mask : hmap'.newer.mask = hmap.newer.mask
  size : hmap'.older.size = hmap.older.size - kRehashWork
  older : hmap'.older = {} ∨ hmap'.older.size > 0 ∧ hmap'.older.mask = hmap.older.mask

/-- Progressive rehashing keeps the content, and keeps the older table while it holds a node. -/
theorem hmProgressiveRehash_spec {hmap : HMap ρ} (shaped : hmap.Shaped hcode) :
    ∃ hmap', hmProgressiveRehash hcode hmap = some hmap' ∧ hmap.Rehashed hcode hmap' := by
  rcases shaped with ⟨unallocated, newer⟩ | migrating
  · have idle : hmMigrate hcode hmap 0 = some hmap :=
      hmMigrate_of_idle 0 (by rw [unallocated])
    refine ⟨hmap, ?_, .inl ⟨unallocated, newer⟩, .refl _, rfl, ?_, .inl unallocated⟩
    · simp [hmProgressiveRehash, idle, unallocated]
    · simp [unallocated]
  · obtain ⟨hmap', run, migrating', perm, mask, size, olderMask⟩ := hmMigrate_spec migrating 0
    by_cases finished : hmap'.older.size = 0
    · refine ⟨{ hmap' with older := {} }, ?_, .inl ⟨rfl, .inr migrating'.newer⟩, ?_, mask, ?_,
        .inl rfl⟩
      · simp [hmProgressiveRehash, run, finished, migrating'.older.ne_nil]
      · have empty : hmap'.older.nodes = [] := by
          rw [← List.length_eq_zero_iff, ← migrating'.older.size, finished]
        rw [HMap.nodes, empty] at perm
        exact perm
      · simp only
        omega
    · refine ⟨hmap', ?_, .inr migrating', perm, mask, by omega,
        .inr ⟨Nat.pos_of_ne_zero finished, olderMask⟩⟩
      simp [hmProgressiveRehash, run, finished]

theorem HMap.Shaped.rehashed {hmap hmap' : HMap ρ} (shaped : hmap.Shaped hcode)
    (run : hmProgressiveRehash hcode hmap = some hmap') : hmap.Rehashed hcode hmap' := by
  obtain ⟨_, run', rehashed⟩ := hmProgressiveRehash_spec shaped
  rw [run] at run'
  cases run'
  exact rehashed

theorem HMap.Shaped.newer {hmap : HMap ρ} (shaped : hmap.Shaped hcode) :
    hmap.newer = {} ∨ hmap.newer.Valid hcode := by
  rcases shaped with ⟨-, newer⟩ | migrating
  · exact newer
  · exact .inr migrating.newer

theorem HMap.Shaped.older {hmap : HMap ρ} (shaped : hmap.Shaped hcode) :
    hmap.older = {} ∨ hmap.older.Valid hcode := by
  rcases shaped with ⟨unallocated, -⟩ | migrating
  · exact .inl unallocated
  · exact .inr migrating.older

/-- The shape only reads the hash codes of the nodes held. -/
theorem HMap.Shaped.congr {hmap : HMap ρ} {hcode' : ρ → UInt64} (shaped : hmap.Shaped hcode)
    (same : ∀ node ∈ hmap.nodes, hcode' node = hcode node) : hmap.Shaped hcode' := by
  have newerSame : ∀ node ∈ hmap.newer.nodes, hcode' node = hcode node := fun node member =>
    same node (List.mem_append_left _ member)
  have olderSame : ∀ node ∈ hmap.older.nodes, hcode' node = hcode node := fun node member =>
    same node (List.mem_append_right _ member)
  rcases shaped with ⟨unallocated, missing | newer⟩ | migrating
  · exact .inl ⟨unallocated, .inl missing⟩
  · exact .inl ⟨unallocated, .inr (newer.congr newerSame)⟩
  · exact .inr ⟨migrating.newer.congr newerSame, migrating.older.congr olderSame,
      migrating.drained⟩

theorem HTab.size_of_ready {htab : HTab ρ} (ready : htab = {} ∨ htab.Valid hcode) :
    htab.size = htab.nodes.length := by
  rcases ready with rfl | valid
  · rfl
  · exact valid.size

theorem HMap.Shaped.setNewer {hmap : HMap ρ} (shaped : hmap.Shaped hcode) {newer : HTab ρ}
    (valid : newer.Valid hcode) : HMap.Shaped hcode { hmap with newer := newer } := by
  rcases shaped with ⟨unallocated, -⟩ | migrating
  · exact .inl ⟨unallocated, .inr valid⟩
  · exact .inr ⟨valid, migrating.older, migrating.drained⟩

theorem HMap.Shaped.size {hmap : HMap ρ} (shaped : hmap.Shaped hcode) :
    hmSize hmap = hmap.nodes.length := by
  rw [hmSize, HTab.size_of_ready shaped.newer, HTab.size_of_ready shaped.older,
    ← List.length_append]
  rfl

namespace HMap.Holds

variable {hmap : HMap ρ} {held : Finset ρ}

theorem empty : HMap.Holds hcode ({} : HMap ρ) ∅ := ⟨.inl ⟨rfl, .inl rfl⟩, rfl⟩

theorem mem_iff (holds : hmap.Holds hcode held) {node : ρ} : node ∈ hmap.nodes ↔ node ∈ held := by
  rw [← Multiset.mem_coe, holds.nodes, Finset.mem_val]

theorem nodup (holds : hmap.Holds hcode held) : hmap.nodes.Nodup := by
  rw [← Multiset.coe_nodup, holds.nodes]
  exact held.nodup

theorem length (holds : hmap.Holds hcode held) : hmap.nodes.length = held.card := by
  rw [← Multiset.coe_card, holds.nodes, Finset.card_val]

/-- Only the hash codes of the held nodes matter. -/
theorem congr {hcode' : ρ → UInt64} (holds : hmap.Holds hcode held)
    (same : ∀ node ∈ held, hcode' node = hcode node) : hmap.Holds hcode' held where
  shaped := holds.shaped.congr fun node member => same node (holds.mem_iff.mp member)
  nodes := holds.nodes

/-- The migration work moves no node in or out. -/
theorem rehashed (holds : hmap.Holds hcode held) {hmap' : HMap ρ}
    (moved : hmap.Rehashed hcode hmap') : hmap'.Holds hcode held where
  shaped := moved.shaped
  nodes := (Multiset.coe_eq_coe.mpr moved.nodes).trans holds.nodes

end HMap.Holds

/-- The first insertion allocates four slots. -/
theorem hmInitNewer_spec {hmap : HMap ρ} (shaped : hmap.Shaped hcode) :
    ∃ hmap', hmInitNewer hmap = some hmap' ∧ hmap'.Shaped hcode ∧ hmap'.newer.Valid hcode ∧
      hmap'.nodes = hmap.nodes ∧ hmap'.older = hmap.older ∧
      (hmap' = hmap ∨ hmap.older = {} ∧ hmap.nodes = []) := by
  rcases shaped with ⟨unallocated, missing | valid⟩ | migrating
  · obtain ⟨newer, run, valid, empty, -⟩ := @htabInit_spec ρ hcode 0
    have four : htabInit 4 = some newer := run
    refine ⟨{ hmap with newer := newer }, ?_, .inl ⟨unallocated, .inr valid⟩, valid, ?_, rfl,
      .inr ⟨unallocated, ?_⟩⟩
    · simp [hmInitNewer, missing, four]
    · simp [HMap.nodes, empty, missing, HTab.nodes_null]
    · simp [HMap.nodes, missing, unallocated, HTab.nodes_null]
  · exact ⟨hmap, by simp [hmInitNewer, valid.ne_nil], .inl ⟨unallocated, .inr valid⟩, valid, rfl,
      rfl, .inl rfl⟩
  · exact ⟨hmap, by simp [hmInitNewer, migrating.newer.ne_nil], .inr migrating, migrating.newer,
      rfl, rfl, .inl rfl⟩

/-- A due resize starts a migration out of the full table into an empty one of twice its size. -/
theorem hmTriggerRehash_spec {hmap : HMap ρ} (unallocated : hmap.older = {})
    (newer : hmap.newer.Valid hcode) :
    ∃ hmap', hmTriggerRehash hmap = some hmap' ∧ hmap'.Migrating hcode ∧
      hmap'.nodes = hmap.nodes ∧ hmap'.older = hmap.newer ∧
      hmap'.newer.mask + 1 = (hmap.newer.mask + 1) * 2 := by
  obtain ⟨k, power⟩ := newer.power
  obtain ⟨fresh, run, valid, empty, mask⟩ := @htabInit_spec ρ hcode (k + 1)
  have double : (hmap.newer.mask + 1) * 2 = 2 ^ (k + 1 + 2) := by
    rw [← newer.slots, power]
    ring
  refine ⟨⟨fresh, hmap.newer, 0⟩, ?_, ⟨valid, newer, by simp⟩, ?_, rfl, ?_⟩
  · simp [hmTriggerRehash, unallocated, double, run]
  · simp [HMap.nodes, empty, unallocated, HTab.nodes_null]
  · rw [double]
    exact mask

theorem HMap.Shaped.unallocated {hmap : HMap ρ} (shaped : hmap.Shaped hcode)
    (missing : hmap.older.tab = []) : hmap.older = {} := by
  rcases shaped.older with unallocated | valid
  · exact unallocated
  · exact absurd missing valid.ne_nil

/-- The load check either leaves the map alone or renames the newer table. -/
theorem hmCheckLoad_spec {hmap : HMap ρ} (shaped : hmap.Shaped hcode)
    (newer : hmap.newer.Valid hcode) :
    ∃ hmap', hmCheckLoad hmap = some hmap' ∧ hmap'.Shaped hcode ∧ hmap'.nodes = hmap.nodes ∧
      (hmap' = hmap ∧
          (hmap.older.tab = [] → hmap.newer.size < (hmap.newer.mask + 1) * kMaxLoadFactor) ∨
        hmap.older = {} ∧ hmap'.Migrating hcode ∧ hmap'.older = hmap.newer ∧
          hmap'.newer.mask + 1 = (hmap.newer.mask + 1) * 2) := by
  simp only [hmCheckLoad]
  split
  next due =>
    have unallocated := shaped.unallocated (List.isEmpty_iff.mp due.1)
    obtain ⟨hmap', run, migrating, nodes, renamed⟩ := hmTriggerRehash_spec unallocated newer
    exact ⟨hmap', run, .inr migrating, nodes, .inr ⟨unallocated, migrating, renamed⟩⟩
  next early =>
    refine ⟨hmap, rfl, shaped, rfl, .inl ⟨rfl, fun missing => ?_⟩⟩
    rw [missing] at early
    simpa using early

/-- The steps of `hm_insert`: the first table if need be, the node, the load check and the
migration work. -/
theorem hmInsert_run {hmap : HMap ρ} (shaped : hmap.Shaped hcode) (node : ρ) :
    ∃ ready newer checked hmap', hmInitNewer hmap = some ready ∧
      ready.Shaped hcode ∧ ready.newer.Valid hcode ∧
      htabInsert hcode ready.newer node = some newer ∧ newer.Valid hcode ∧
      HMap.Shaped hcode { ready with newer := newer } ∧
      hmCheckLoad { ready with newer := newer } = some checked ∧ checked.Shaped hcode ∧
      hmProgressiveRehash hcode checked = some hmap' ∧ hmInsert hcode hmap node = some hmap' ∧
      hmap'.Shaped hcode ∧ hmap'.nodes.Perm (node :: hmap.nodes) := by
  obtain ⟨ready, init, readyShaped, readyValid, readyNodes, -⟩ := hmInitNewer_spec shaped
  obtain ⟨newer, inserted, newerValid, newerPerm, -⟩ := htabInsert_spec readyValid node
  have added : (HMap.nodes { ready with newer := newer }).Perm (node :: hmap.nodes) := by
    rw [← readyNodes]
    exact newerPerm.append_right _
  have addedShaped := readyShaped.setNewer newerValid
  obtain ⟨checked, check, checkedShaped, checkedNodes, -⟩ :=
    hmCheckLoad_spec addedShaped newerValid
  obtain ⟨hmap', rehash, rehashed⟩ := hmProgressiveRehash_spec checkedShaped
  rw [← checkedNodes] at added
  exact ⟨ready, newer, checked, hmap', init, readyShaped, readyValid, inserted, newerValid,
    addedShaped, check, checkedShaped, rehash, by simp [hmInsert, init, inserted, check, rehash],
    rehashed.shaped, rehashed.nodes.trans added⟩

/-- `hm_insert` adds the node, whether or not it starts a resize. -/
theorem hmInsert_spec [DecidableEq ρ] {hmap : HMap ρ} {held : Finset ρ}
    (holds : hmap.Holds hcode held) {node : ρ} (fresh : node ∉ held) :
    ∃ hmap', hmInsert hcode hmap node = some hmap' ∧ hmap'.Holds hcode (insert node held) := by
  obtain ⟨_, _, _, hmap', -, -, -, -, -, -, -, -, -, run, shaped, perm⟩ :=
    hmInsert_run holds.shaped node
  refine ⟨hmap', run, shaped, ?_⟩
  rw [Finset.insert_val_of_notMem fresh, ← holds.nodes]
  exact Multiset.coe_eq_coe.mpr perm

/-- A search leaves what the migration work makes of the map. -/
theorem hmLookup_run {hmap : HMap ρ} (shaped : hmap.Shaped hcode) (key : UInt64) (eq : ρ → Bool) :
    ∃ found hmap', hmLookup hcode hmap key eq = some (found, hmap') ∧
      hmProgressiveRehash hcode hmap = some hmap' ∧
      match found with
      | none => (∀ node ∈ hmap'.nodes, eq node → hcode node = key) →
          ∀ node ∈ hmap'.nodes, eq node = false
      | some node => node ∈ hmap'.nodes ∧ eq node = true := by
  obtain ⟨hmap', rehash, shaped', -⟩ := hmProgressiveRehash_spec shaped
  obtain ⟨first, firstRun, firstSpec⟩ := htabLookup_spec shaped'.newer key eq
  obtain ⟨second, secondRun, secondSpec⟩ := htabLookup_spec shaped'.older key eq
  simp only [hmLookup, rehash, firstRun, Option.bind_eq_bind, Option.bind_some]
  rcases first with _ | link
  · simp only [secondRun, Option.bind_some]
    rcases second with _ | link
    · refine ⟨none, hmap', rfl, rfl, fun respects node member => ?_⟩
      rcases List.mem_append.mp member with inFirst | inSecond
      · exact firstSpec (fun x inside => respects x (List.mem_append_left _ inside)) node inFirst
      · exact secondSpec (fun x inside => respects x (List.mem_append_right _ inside)) node inSecond
    · obtain ⟨target, found, member, accepted⟩ := secondSpec
      exact ⟨some target, hmap', by simp [found], rfl, List.mem_append_right _ member, accepted⟩
  · obtain ⟨target, found, member, accepted⟩ := firstSpec
    exact ⟨some target, hmap', by simp [found], rfl, List.mem_append_left _ member, accepted⟩

/-- `hm_lookup` returns a matching node exactly when one is held. -/
theorem hmLookup_spec {hmap : HMap ρ} {held : Finset ρ} (holds : hmap.Holds hcode held)
    {key : UInt64} {eq : ρ → Bool} (respects : ∀ node ∈ held, eq node → hcode node = key) :
    ∃ found hmap', hmLookup hcode hmap key eq = some (found, hmap') ∧ hmap'.Holds hcode held ∧
      match found with
      | none => ∀ node ∈ held, eq node = false
      | some node => node ∈ held ∧ eq node = true := by
  obtain ⟨found, hmap', run, rehash, spec⟩ := hmLookup_run holds.shaped key eq
  have holds' := holds.rehashed (holds.shaped.rehashed rehash)
  simp only [holds'.mem_iff] at spec
  refine ⟨found, hmap', run, holds', ?_⟩
  cases found with
  | none => exact spec respects
  | some node => exact spec

/-- A deletion takes at most one node out of what the migration work makes of the map. -/
theorem hmDelete_run {hmap : HMap ρ} (shaped : hmap.Shaped hcode) (key : UInt64) (eq : ρ → Bool) :
    ∃ found rehashed hmap', hmDelete hcode hmap key eq = some (found, hmap') ∧
      hmProgressiveRehash hcode hmap = some rehashed ∧ hmap'.Shaped hcode ∧
      rehashed.newer.Shrinks hmap'.newer ∧ rehashed.older.Shrinks hmap'.older ∧
      match found with
      | none => hmap' = rehashed ∧ ((∀ node ∈ rehashed.nodes, eq node → hcode node = key) →
          ∀ node ∈ rehashed.nodes, eq node = false)
      | some node => rehashed.nodes.Perm (node :: hmap'.nodes) ∧ eq node = true := by
  obtain ⟨hmap', rehash, shaped', -⟩ := hmProgressiveRehash_spec shaped
  obtain ⟨first, firstRun, firstSpec⟩ := htabLookup_spec shaped'.newer key eq
  obtain ⟨second, secondRun, secondSpec⟩ := htabLookup_spec shaped'.older key eq
  simp only [hmDelete, rehash, firstRun, Option.bind_eq_bind, Option.bind_some]
  rcases first with _ | link
  · simp only [secondRun, Option.bind_some]
    rcases second with _ | link
    · refine ⟨none, hmap', hmap', rfl, rfl, shaped', .refl _, .refl _, rfl,
        fun respects node member => ?_⟩
      rcases List.mem_append.mp member with inFirst | inSecond
      · exact firstSpec (fun x inside => respects x (List.mem_append_left _ inside)) node inFirst
      · exact secondSpec (fun x inside => respects x (List.mem_append_right _ inside)) node inSecond
    · obtain ⟨target, found, member, accepted⟩ := secondSpec
      have valid := HTab.Valid.of_htabAt shaped'.older found
      obtain ⟨older, detached, olderValid, olderPerm, -, shrinks⟩ := htabDetach_spec valid found
      have migrating : hmap'.Migrating hcode := by
        rcases shaped' with ⟨unallocated, -⟩ | migrating
        · exact absurd (by rw [unallocated]) valid.ne_nil
        · exact migrating
      refine ⟨some target, hmap', { hmap' with older := older }, by simp [detached], rfl, ?_,
        .refl _, htabDetach_shrinks detached, ?_, accepted⟩
      · exact .inr ⟨migrating.newer, olderValid, migrating.drained_of_shrinks shrinks⟩
      · exact (olderPerm.append_left _).trans List.perm_middle
  · obtain ⟨target, found, member, accepted⟩ := firstSpec
    have valid := HTab.Valid.of_htabAt shaped'.newer found
    obtain ⟨newer, detached, newerValid, newerPerm, -⟩ := htabDetach_spec valid found
    exact ⟨some target, hmap', { hmap' with newer := newer }, by simp [detached], rfl,
      shaped'.setNewer newerValid, htabDetach_shrinks detached, .refl _,
      newerPerm.append_right _, accepted⟩

/-- `hm_delete` removes the matching node it returns and nothing else. -/
theorem hmDelete_spec [DecidableEq ρ] {hmap : HMap ρ} {held : Finset ρ}
    (holds : hmap.Holds hcode held) {key : UInt64} {eq : ρ → Bool}
    (respects : ∀ node ∈ held, eq node → hcode node = key) :
    ∃ found hmap', hmDelete hcode hmap key eq = some (found, hmap') ∧
      match found with
      | none => hmap'.Holds hcode held ∧ ∀ node ∈ held, eq node = false
      | some node => hmap'.Holds hcode (held.erase node) ∧ node ∈ held ∧ eq node = true := by
  obtain ⟨found, rehashed, hmap', run, rehash, shaped, -, -, spec⟩ :=
    hmDelete_run holds.shaped key eq
  have holds' := holds.rehashed (holds.shaped.rehashed rehash)
  refine ⟨found, hmap', run, ?_⟩
  cases found with
  | none =>
      simp only [holds'.mem_iff] at spec
      rw [spec.1]
      exact ⟨holds', spec.2 respects⟩
  | some target =>
      obtain ⟨removal, accepted⟩ := spec
      refine ⟨⟨shaped, ?_⟩, holds'.mem_iff.mp (removal.mem_iff.mpr (List.mem_cons_self ..)), accepted⟩
      rw [Finset.erase_val, ← holds'.nodes, Multiset.coe_eq_coe.mpr removal, ← Multiset.cons_coe,
        Multiset.erase_cons_head]

/-- `hm_size` is the number of held nodes. -/
theorem hmSize_spec {hmap : HMap ρ} {held : Finset ρ} (holds : hmap.Holds hcode held) :
    hmSize hmap = held.card :=
  holds.shaped.size.trans holds.length

section Foreach

variable {cb : σ → ρ → σ × Bool} {step : σ → ρ → σ}

theorem foreachChain_spec (always : ∀ args node, cb args node = (step args node, true))
    (chain : List ρ) (args : σ) : foreachChain cb chain args = (chain.foldl step args, true) := by
  induction chain generalizing args with
  | nil => rfl
  | cons node rest ih =>
      rw [foreachChain, always]
      exact ih _

/-- From slot `i` on, the walk visits the chains of the remaining slots in order. -/
theorem foreachSlot_spec (always : ∀ args node, cb args node = (step args node, true))
    {htab : HTab ρ} (valid : htab.Valid hcode) (i : Nat) (args : σ) :
    foreachSlot cb htab i args = some ((htab.tab.drop i).flatten.foldl step args, true) := by
  have several : htab.mask ≠ 0 := by
    obtain ⟨k, power⟩ := valid.power
    have slots := valid.slots
    have large : 2 ^ (k + 2) = 4 * 2 ^ k := by ring
    have positive := Nat.two_pow_pos k
    omega
  induction remaining : htab.tab.length - i generalizing i args with
  | zero =>
      rw [foreachSlot, if_neg (by have slots := valid.slots; omega),
        List.drop_eq_nil_of_le (by omega)]
      rfl
  | succ remaining ih =>
      have inside : i < htab.tab.length := by omega
      rw [foreachSlot, if_pos ⟨several, by have slots := valid.slots; omega⟩,
        List.getElem?_eq_getElem inside]
      simp only [foreachChain_spec always]
      rw [ih (i + 1) _ (by omega), List.drop_eq_getElem_cons inside, List.flatten_cons,
        List.foldl_append]

theorem htabForeach_spec (always : ∀ args node, cb args node = (step args node, true))
    {htab : HTab ρ} (ready : htab = {} ∨ htab.Valid hcode) (args : σ) :
    htabForeach cb htab args = some (htab.nodes.foldl step args, true) := by
  rcases ready with rfl | valid
  · rw [htabForeach, foreachSlot, if_neg (by simp)]
    rfl
  · exact foreachSlot_spec always valid 0 args

/-- With a callback which never stops, `hm_foreach` folds over the content. -/
theorem hmForeach_spec (always : ∀ args node, cb args node = (step args node, true))
    {hmap : HMap ρ} (shaped : hmap.Shaped hcode) (args : σ) :
    hmForeach cb hmap args = some (hmap.nodes.foldl step args) := by
  simp [hmForeach, htabForeach_spec always shaped.newer, htabForeach_spec always shaped.older,
    HMap.nodes]

end Foreach

end MiniRedis
