import MiniRedis.Hashtable.Model

/-!
# One table

The content of a table is the concatenation of its chains. Inserting and detaching
change it by one node and keep each node in the bucket of its hash code.
-/

namespace MiniRedis

variable {ρ : Type} {hcode : ρ → UInt64}

/-- The nodes of a table, bucket by bucket. -/
def HTab.nodes (htab : HTab ρ) : List ρ := htab.tab.flatten

/-- An allocated table. -/
structure HTab.Valid (hcode : ρ → UInt64) (htab : HTab ρ) : Prop where
  slots : htab.tab.length = htab.mask + 1
  power : ∃ k, htab.tab.length = 2 ^ (k + 2)
  placed : ∀ (pos : Nat) (chain : List ρ), htab.tab[pos]? = some chain →
    ∀ node ∈ chain, htabIdx htab (hcode node) = pos
  size : htab.size = htab.nodes.length

/-- A slot splits the table. -/
theorem exists_slot {tab : List (List ρ)} {pos : Nat} {chain : List ρ}
    (slot : tab[pos]? = some chain) :
    ∃ front back, tab = front ++ chain :: back ∧ front.length = pos := by
  obtain ⟨inside, value⟩ := List.getElem?_eq_some_iff.mp slot
  refine ⟨tab.take pos, tab.drop (pos + 1), ?_, by simp; omega⟩
  rw [← value, List.getElem_cons_drop, List.take_append_drop]

namespace HTab

theorem nodes_null : ({} : HTab ρ).nodes = [] := rfl

/-- The nodes of a table are those of its chains. -/
theorem mem_nodes {htab : HTab ρ} {node : ρ} :
    node ∈ htab.nodes ↔ ∃ (pos : Nat) (chain : List ρ), htab.tab[pos]? = some chain ∧ node ∈ chain := by
  rw [nodes, List.mem_flatten]
  constructor
  · rintro ⟨chain, inTab, member⟩
    obtain ⟨pos, slot⟩ := List.mem_iff_getElem?.mp inTab
    exact ⟨pos, chain, slot, member⟩
  · rintro ⟨pos, chain, slot, member⟩
    exact ⟨chain, List.mem_of_getElem? slot, member⟩

/-- The mask keeps every hash code inside the table. -/
theorem Valid.idx_lt {htab : HTab ρ} (valid : htab.Valid hcode) (key : UInt64) :
    htabIdx htab key < htab.tab.length := by
  rw [valid.slots]
  exact Nat.lt_succ_of_le Nat.and_le_right

theorem Valid.exists_chain {htab : HTab ρ} (valid : htab.Valid hcode) (key : UInt64) :
    ∃ chain, htab.tab[htabIdx htab key]? = some chain :=
  ⟨_, List.getElem?_eq_getElem (valid.idx_lt key)⟩

/-- An allocated table has slots. -/
theorem Valid.ne_nil {htab : HTab ρ} (valid : htab.Valid hcode) : htab.tab ≠ [] := by
  intro empty
  simpa [empty] using valid.slots

/-- Validity only reads the hash codes of the nodes held. -/
theorem Valid.congr {htab : HTab ρ} {hcode' : ρ → UInt64} (valid : htab.Valid hcode)
    (same : ∀ node ∈ htab.nodes, hcode' node = hcode node) : htab.Valid hcode' where
  slots := valid.slots
  power := valid.power
  placed pos chain slot node member := by
    rw [same node (mem_nodes.mpr ⟨pos, chain, slot, member⟩)]
    exact valid.placed pos chain slot node member
  size := valid.size

end HTab

/-- A power of two passes the assertion of `htab_init`. -/
theorem htabInit_spec (k : Nat) : ∃ htab : HTab ρ, htabInit (2 ^ (k + 2)) = some htab ∧
    htab.Valid hcode ∧ htab.nodes = [] ∧ htab.mask + 1 = 2 ^ (k + 2) := by
  have positive : 0 < 2 ^ (k + 2) := Nat.two_pow_pos _
  refine ⟨{ tab := List.replicate (2 ^ (k + 2)) [], mask := 2 ^ (k + 2) - 1, size := 0 },
    ?_, ⟨?_, ⟨k, ?_⟩, ?_, ?_⟩, ?_, ?_⟩
  · simp [htabInit, Nat.and_two_pow_sub_one_eq_mod]
  · simp only [List.length_replicate]
    omega
  · simp only [List.length_replicate]
  · intro pos chain slot node member
    simp only [List.getElem?_replicate, Option.ite_none_right_eq_some, Option.some.injEq] at slot
    rw [← slot.2] at member
    simp at member
  · simp [HTab.nodes]
  · simp [HTab.nodes]
  · simp only
    omega

/-- Insertion adds one node and moves nothing. -/
theorem htabInsert_spec {htab : HTab ρ} (valid : htab.Valid hcode) (node : ρ) :
    ∃ htab' : HTab ρ, htabInsert hcode htab node = some htab' ∧ htab'.Valid hcode ∧
      htab'.nodes.Perm (node :: htab.nodes) ∧ htab'.mask = htab.mask := by
  obtain ⟨chain, slot⟩ := valid.exists_chain (hcode node)
  obtain ⟨front, back, split, position⟩ := exists_slot slot
  have replaced : htab.tab.set (htabIdx htab (hcode node)) (node :: chain) =
      front ++ (node :: chain) :: back := by
    rw [split, ← position]
    simp
  have perm : (front ++ (node :: chain) :: back).flatten.Perm (node :: htab.nodes) := by
    rw [HTab.nodes, split]
    simp only [List.flatten_append, List.flatten_cons, List.cons_append]
    exact List.perm_middle
  refine ⟨{ htab with tab := htab.tab.set (htabIdx htab (hcode node)) (node :: chain), size := htab.size + 1 }, ?_,
    ⟨?_, ?_, ?_, ?_⟩, ?_, rfl⟩
  · simp [htabInsert, slot]
  · simpa using valid.slots
  · simpa using valid.power
  · intro pos chain' slot' node' member
    simp only [List.getElem?_set] at slot'
    split at slot'
    next same =>
      simp only [Option.ite_none_right_eq_some, Option.some.injEq] at slot'
      rw [← slot'.2, List.mem_cons] at member
      rcases member with rfl | member
      · exact same
      · rw [← same]
        exact valid.placed _ chain slot node' member
    next => exact valid.placed pos chain' slot' node' member
  · simp only [HTab.nodes, replaced]
    rw [perm.length_eq, List.length_cons, valid.size]
  · simp only [HTab.nodes, replaced]
    exact perm

/-- A node is found only in an allocated table. -/
theorem HTab.Valid.of_htabAt {htab : HTab ρ} (ready : htab = {} ∨ htab.Valid hcode) {link : HSlot}
    {target : ρ} (found : htabAt htab link = some target) : htab.Valid hcode := by
  rcases ready with rfl | valid
  · simp [htabAt] at found
  · exact valid

theorem HTab.valid_of_tab {htab : HTab ρ} (ready : htab = {} ∨ htab.Valid hcode)
    (allocated : htab.tab ≠ []) : htab.Valid hcode := by
  rcases ready with rfl | valid
  · exact absurd rfl allocated
  · exact valid

/-- Detaching removes the one node the link points at. -/
theorem htabDetach_spec {htab : HTab ρ} (valid : htab.Valid hcode) {link : HSlot} {target : ρ}
    (found : htabAt htab link = some target) :
    ∃ htab' : HTab ρ, htabDetach htab link = some (target, htab') ∧ htab'.Valid hcode ∧
      htab.nodes.Perm (target :: htab'.nodes) ∧ htab'.mask = htab.mask ∧
      ∀ (pos : Nat) (chain' : List ρ), htab'.tab[pos]? = some chain' →
        ∃ chain, htab.tab[pos]? = some chain ∧ chain'.Sublist chain := by
  obtain ⟨chain, slot, place⟩ := Option.bind_eq_some_iff.mp found
  obtain ⟨front, back, split, position⟩ := exists_slot slot
  have replaced : htab.tab.modify link.pos (fun chain => chain.eraseIdx link.index) =
      front ++ chain.eraseIdx link.index :: back := by
    rw [split, ← position, List.modify_eq_set_getElem?]
    simp
  have removed : chain.Perm (target :: chain.eraseIdx link.index) := by
    obtain ⟨inside, value⟩ := List.getElem?_eq_some_iff.mp place
    rw [← value]
    exact (List.getElem_cons_eraseIdx_perm inside).symm
  have perm : htab.nodes.Perm (target :: (front ++ chain.eraseIdx link.index :: back).flatten) := by
    rw [HTab.nodes, split]
    simp only [List.flatten_append, List.flatten_cons]
    apply ((removed.append_right _).append_left _).trans
    rw [List.cons_append]
    exact List.perm_middle
  refine ⟨{ htab with tab := htab.tab.modify link.pos fun chain => chain.eraseIdx link.index
                      size := htab.size - 1 }, ?_, ⟨?_, ?_, ?_, ?_⟩, ?_, rfl, ?_⟩
  · simp [htabDetach, found]
  · simpa using valid.slots
  · simpa using valid.power
  · intro pos chain' slot' node member
    simp only [List.getElem?_modify] at slot'
    obtain ⟨old, oldSlot, rfl⟩ := Option.map_eq_some_iff.mp slot'
    apply valid.placed pos old oldSlot node
    split at member
    · exact List.mem_of_mem_eraseIdx member
    · exact member
  · have count := perm.length_eq
    rw [List.length_cons] at count
    simp only [HTab.nodes, replaced] at count ⊢
    have size := valid.size
    rw [HTab.nodes] at size
    omega
  · simp only [HTab.nodes, replaced]
    exact perm
  · intro pos chain' slot'
    simp only [List.getElem?_modify] at slot'
    obtain ⟨old, oldSlot, rfl⟩ := Option.map_eq_some_iff.mp slot'
    refine ⟨old, oldSlot, ?_⟩
    split
    · exact List.eraseIdx_sublist old link.index
    · exact .refl _

/-- What taking out one node does to the array and the counters of a table. -/
structure HTab.Shrinks (htab htab' : HTab ρ) : Prop where
  allocated : htab'.tab = [] ↔ htab.tab = []
  mask : htab'.mask = htab.mask
  size : htab'.size ≤ htab.size

theorem HTab.Shrinks.refl (htab : HTab ρ) : htab.Shrinks htab := ⟨Iff.rfl, rfl, Nat.le_refl _⟩

/-- A table keeps its slots when a node leaves it. -/
theorem htabDetach_shrinks {htab htab' : HTab ρ} {link : HSlot} {target : ρ}
    (detached : htabDetach htab link = some (target, htab')) : htab.Shrinks htab' := by
  obtain ⟨found, -, same⟩ := Option.bind_eq_some_iff.mp detached
  cases same
  exact ⟨by simp, rfl, Nat.sub_le _ _⟩

/-- A table lookup stays inside the array. It returns a match if there is one, provided
that matching nodes have the hash code of the key. -/
theorem htabLookup_spec {htab : HTab ρ} (ready : htab = {} ∨ htab.Valid hcode) (key : UInt64)
    (eq : ρ → Bool) :
    ∃ result, htabLookup hcode htab key eq = some result ∧
      match result with
      | none => (∀ node ∈ htab.nodes, eq node → hcode node = key) →
          ∀ node ∈ htab.nodes, eq node = false
      | some link => ∃ target, htabAt htab link = some target ∧ target ∈ htab.nodes ∧
          eq target = true := by
  rcases ready with rfl | valid
  · exact ⟨none, rfl, by simp [HTab.nodes_null]⟩
  · obtain ⟨chain, slot⟩ := valid.exists_chain key
    refine ⟨_, by simp [htabLookup, valid.ne_nil, slot]; rfl, ?_⟩
    cases search : chain.findIdx? (fun curr => hcode curr == key && eq curr) with
    | none =>
        intro respects node member
        rw [List.findIdx?_eq_none_iff] at search
        by_contra matches'
        rw [Bool.not_eq_false] at matches'
        have code := respects node member matches'
        obtain ⟨pos, chain', slot', inChain⟩ := HTab.mem_nodes.mp member
        have bucket := valid.placed pos chain' slot' node inChain
        rw [code] at bucket
        subst bucket
        rw [slot] at slot'
        cases slot'
        simpa [code, matches'] using search node inChain
    | some index =>
        obtain ⟨inside, accepted, -⟩ := List.findIdx?_eq_some_iff_getElem.mp search
        simp only [Bool.and_eq_true] at accepted
        refine ⟨chain[index], ?_, ?_, accepted.2⟩
        · simp [htabAt, slot, inside]
        · exact HTab.mem_nodes.mpr ⟨_, chain, slot, List.getElem_mem inside⟩

end MiniRedis
