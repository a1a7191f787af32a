import Mathlib

/-!
# The chained hash table of `hashtable.cpp`

A node is named by its address in `ρ`, and `hcode` reads the `hcode` field embedded
in it. A chain is the list of its nodes from the head on. As for the tree, `none`
is a failed assertion or an access outside an array.
-/

namespace MiniRedis

/-- `HTab`; the array is empty where the source's pointer is `NULL`. -/
structure HTab (ρ : Type) where
  tab : List (List ρ) := []
  mask : Nat := 0
  size : Nat := 0
  deriving DecidableEq

/-- A table, the one before it while its nodes are migrated, and the slot reached. -/
structure HMap (ρ : Type) where
  newer : HTab ρ := {}
  older : HTab ρ := {}
  migratePos : Nat := 0
  deriving DecidableEq

/-- `HNode **`: the link which points at one node of one chain. -/
structure HSlot where
  pos : Nat
  index : Nat
  deriving DecidableEq

variable {ρ σ : Type}

/-- `htab_init`; `n` is a power of two, so that `n - 1` is a mask. -/
def htabInit (n : Nat) : Option (HTab ρ) := do
  guard (n > 0 ∧ n &&& (n - 1) = 0)
  return { tab := List.replicate n [], mask := n - 1, size := 0 }

/-- The slot of a hash code. -/
def htabIdx (htab : HTab ρ) (hcode : UInt64) : Nat :=
  hcode.toNat &&& htab.mask

/-- `htab_insert`: the node becomes the first one of its chain. -/
def htabInsert (hcode : ρ → UInt64) (htab : HTab ρ) (node : ρ) : Option (HTab ρ) := do
  let pos := htabIdx htab (hcode node)
  let next ← htab.tab[pos]?
  return { htab with tab := htab.tab.set pos (node :: next), size := htab.size + 1 }

/-- The inner `none` is the `NULL` of a key which is not found. -/
def htabLookup (hcode : ρ → UInt64) (htab : HTab ρ) (key : UInt64) (eq : ρ → Bool) :
    Option (Option HSlot) :=
  if htab.tab.isEmpty then some none
  else do
    let pos := htabIdx htab key
    let chain ← htab.tab[pos]?
    return (chain.findIdx? fun curr => hcode curr == key && eq curr).map fun index => ⟨pos, index⟩

/-- `*from`. -/
def htabAt (htab : HTab ρ) (link : HSlot) : Option ρ := do
  let chain ← htab.tab[link.pos]?
  chain[link.index]?

/-- `htab_detach`: the node is unlinked, and the rest of the chain keeps its order. -/
def htabDetach (htab : HTab ρ) (link : HSlot) : Option (ρ × HTab ρ) := do
  let target ← htabAt htab link
  return (target,
    { htab with
      tab := htab.tab.modify link.pos fun chain => chain.eraseIdx link.index
      size := htab.size - 1 })

/-- Nodes for each slot at which a larger table is allocated. -/
def kMaxLoadFactor : Nat := 8

/-- `hm_trigger_rehash`: the table becomes `older`, and `newer` has twice its slots. -/
def hmTriggerRehash (hmap : HMap ρ) : Option (HMap ρ) := do
  guard hmap.older.tab.isEmpty
  let newer ← htabInit ((hmap.newer.mask + 1) * 2)
  return { newer := newer, older := hmap.newer, migratePos := 0 }

/-- The nodes which one operation migrates. -/
def kRehashWork : Nat := 128

set_option linter.unusedVariables false in
/-- The loop of `hm_progressive_rehash`; `count` nodes have been migrated in this batch. -/
def hmMigrate (hcode : ρ → UInt64) (hmap : HMap ρ) (count : Nat) : Option (HMap ρ) :=
  if count < kRehashWork ∧ hmap.older.size > 0 then
    match slot : hmap.older.tab[hmap.migratePos]? with
    | none => none
    | some [] => hmMigrate hcode { hmap with migratePos := hmap.migratePos + 1 } count
    | some (_ :: _) => do
      let (node, older) ← htabDetach hmap.older ⟨hmap.migratePos, 0⟩
      let newer ← htabInsert hcode hmap.newer node
      hmMigrate hcode { hmap with newer := newer, older := older } (count + 1)
  else some hmap
termination_by (kRehashWork - count, hmap.older.tab.length - hmap.migratePos)
decreasing_by
  · have inside := (List.getElem?_eq_some_iff.mp slot).1
    exact Prod.Lex.right _ (by omega)
  · exact Prod.Lex.left _ _ (by omega)

/-- `hm_progressive_rehash`: a batch, and `older` is freed when it is empty. -/
def hmProgressiveRehash (hcode : ρ → UInt64) (hmap : HMap ρ) : Option (HMap ρ) := do
  let hmap ← hmMigrate hcode hmap 0
  if hmap.older.size = 0 ∧ ¬hmap.older.tab.isEmpty then
    return { hmap with older := {} }
  else
    return hmap

/-- The first step of `hm_insert`: allocate `newer` if it is empty. -/
def hmInitNewer (hmap : HMap ρ) : Option (HMap ρ) :=
  if hmap.newer.tab.isEmpty then do
    let newer ← htabInit 4
    return { hmap with newer := newer }
  else some hmap

/-- The load check of `hm_insert`. -/
def hmCheckLoad (hmap : HMap ρ) : Option (HMap ρ) :=
  let threshold := (hmap.newer.mask + 1) * kMaxLoadFactor
  if hmap.older.tab.isEmpty ∧ hmap.newer.size ≥ threshold then hmTriggerRehash hmap
  else some hmap

/-- `hm_insert`: the node goes into `newer`, then the load is checked and a batch migrated. -/
def hmInsert (hcode : ρ → UInt64) (hmap : HMap ρ) (node : ρ) : Option (HMap ρ) := do
  let hmap ← hmInitNewer hmap
  let newer ← htabInsert hcode hmap.newer node
  let hmap ← hmCheckLoad { hmap with newer := newer }
  hmProgressiveRehash hcode hmap

/-- `hm_lookup`: a batch first, then `newer`, then `older`. -/
def hmLookup (hcode : ρ → UInt64) (hmap : HMap ρ) (key : UInt64) (eq : ρ → Bool) :
    Option (Option ρ × HMap ρ) := do
  let hmap ← hmProgressiveRehash hcode hmap
  match ← htabLookup hcode hmap.newer key eq with
  | some link =>
    let found ← htabAt hmap.newer link
    return (some found, hmap)
  | none =>
    match ← htabLookup hcode hmap.older key eq with
    | some link =>
      let found ← htabAt hmap.older link
      return (some found, hmap)
    | none => return (none, hmap)

/-- `hm_delete`: searched in the same order, and detached where it is found. -/
def hmDelete (hcode : ρ → UInt64) (hmap : HMap ρ) (key : UInt64) (eq : ρ → Bool) :
    Option (Option ρ × HMap ρ) := do
  let hmap ← hmProgressiveRehash hcode hmap
  match ← htabLookup hcode hmap.newer key eq with
  | some link =>
    let (target, newer) ← htabDetach hmap.newer link
    return (some target, { hmap with newer := newer })
  | none =>
    match ← htabLookup hcode hmap.older key eq with
    | some link =>
      let (target, older) ← htabDetach hmap.older link
      return (some target, { hmap with older := older })
    | none => return (none, hmap)

/-- `hm_size`. -/
def hmSize (hmap : HMap ρ) : Nat :=
  hmap.newer.size + hmap.older.size

/-- `hm_clear`. -/
def hmClear : HMap ρ := {}

/-- The inner loop of `htab_foreach`. A callback returns its updated argument and
whether to go on. -/
def foreachChain (cb : σ → ρ → σ × Bool) : List ρ → σ → σ × Bool
  | [], args => (args, true)
  | node :: rest, args =>
    match cb args node with
    | (args, true) => foreachChain cb rest args
    | (args, false) => (args, false)

/-- The outer loop of `htab_foreach`, from slot `i` on. -/
def foreachSlot (cb : σ → ρ → σ × Bool) (htab : HTab ρ) (i : Nat) (args : σ) :
    Option (σ × Bool) :=
  if htab.mask ≠ 0 ∧ i ≤ htab.mask then
    match htab.tab[i]? with
    | none => none
    | some chain =>
      match foreachChain cb chain args with
      | (args, true) => foreachSlot cb htab (i + 1) args
      | (args, false) => some (args, false)
  else some (args, true)
termination_by htab.mask + 1 - i

/-- `htab_foreach`. -/
def htabForeach (cb : σ → ρ → σ × Bool) (htab : HTab ρ) (args : σ) : Option (σ × Bool) :=
  foreachSlot cb htab 0 args

/-- `hm_foreach`; returns the callback's final argument. -/
def hmForeach (cb : σ → ρ → σ × Bool) (hmap : HMap ρ) (args : σ) : Option σ := do
  match ← htabForeach cb hmap.newer args with
  | (args, true) =>
    let (args, _) ← htabForeach cb hmap.older args
    return args
  | (args, false) => return args

end MiniRedis
