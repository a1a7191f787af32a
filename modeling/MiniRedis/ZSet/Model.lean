import MiniRedis.Avl.Model
import MiniRedis.Hashtable.Model
import MiniRedis.Library.Binary64
import MiniRedis.Common.Bytes

/-!
# The sorted set of `zset.cpp`

All sorted sets share one memory of `ZNode`s. A score is a double other than NaN:
`str2dbl`, the only producer of scores, rejects NaN. `malloc` is a parameter of the
caller, which passes the address of the node to be allocated.
-/

namespace MiniRedis

open Binary64

/-- The fields of every `ZNode`, and the set of allocated nodes. -/
structure ZMemory (α : Type) where
  tree : AvlMemory α
  hcode : α → UInt64
  score : α → Number
  name : α → Bytes
  live : Finset α

/-- The two indexes: the root of the tree, and the hash map. -/
structure ZSet (α : Type) where
  root : Option α := none
  hmap : HMap α := {}
  deriving DecidableEq

variable {α : Type} [DecidableEq α]

/-- `znode_new` at the address which `malloc` returned. -/
def znodeNew (memory : ZMemory α) (node : α) (name : Bytes) (score : Number) : ZMemory α where
  tree := avlInit memory.tree node
  hcode := Function.update memory.hcode node (strHash name)
  score := Function.update memory.score node score
  name := Function.update memory.name node name
  live := insert node memory.live

/-- `znode_del`; freeing a node twice is an error. -/
def znodeDel (memory : ZMemory α) (node : α) : Option (ZMemory α) := do
  guard (node ∈ memory.live)
  return { memory with live := memory.live.erase node }

/-- `avl_cmp` of a node against a score and a name. -/
def avlCmpKey (memory : ZMemory α) (lhs : α) (score : Number) (name : Bytes) : Int :=
  let zl := memory.name lhs
  if (memory.score lhs).double.lt score.double then -1
  else if score.double.lt (memory.score lhs).double then 1
  else
    let rv := memcmp zl name (min zl.length name.length)
    if rv < 0 then -1
    else if rv > 0 then 1
    else if zl.length < name.length then -1
    else if zl.length > name.length then 1
    else 0

/-- `avl_cmp` of two nodes. -/
def avlCmp (memory : ZMemory α) (lhs rhs : α) : Int :=
  avlCmpKey memory lhs (memory.score rhs) (memory.name rhs)

/-- `h_eq` against a key with this name. -/
def hEq (memory : ZMemory α) (name : Bytes) (node : α) : Bool :=
  (memory.name node).length == name.length &&
    memcmp (memory.name node) name (memory.name node).length == 0

/-- The inner `none` is the `NULL` of an absent name. -/
def zsetLookup (memory : ZMemory α) (zset : ZSet α) (name : Bytes) :
    Option (Option α × ZSet α) :=
  match zset.root with
  | none => some (none, zset)
  | some _ => do
    let (found, hmap) ← hmLookup memory.hcode zset.hmap (strHash name) (hEq memory name)
    return (found, { zset with hmap := hmap })

/-- `zset_update`: a node with another score is taken out of the tree and inserted again. -/
def zsetUpdate (memory : ZMemory α) (zset : ZSet α) (node : α) (score : Number) :
    Option (ZMemory α × ZSet α) :=
  if (memory.score node).double.eq score.double then some (memory, zset)
  else do
    let (tree, root) ← avlDel memory.tree node
    let tree := avlInit tree node
    let memory := { memory with
      tree := tree
      score := Function.update memory.score node score }
    let (tree, root) ← avlInsert tree root node (avlCmp memory)
    return ({ memory with tree := tree }, { zset with root := root })

/-- Returns true if the pair was added; `node` is where `znode_new` would allocate. -/
def zsetInsert (memory : ZMemory α) (zset : ZSet α) (node : α) (name : Bytes) (score : Number) :
    Option (Bool × ZMemory α × ZSet α) := do
  let (found, zset) ← zsetLookup memory zset name
  match found with
  | some found =>
    let (memory, zset) ← zsetUpdate memory zset found score
    return (false, memory, zset)
  | none =>
    let memory := znodeNew memory node name score
    let hmap ← hmInsert memory.hcode zset.hmap node
    let (tree, root) ← avlInsert memory.tree zset.root node (avlCmp memory)
    return (true, { memory with tree := tree }, { root := root, hmap := hmap })

/-- `zset_delete`: out of the hash map, out of the tree, and freed. -/
def zsetDelete (memory : ZMemory α) (zset : ZSet α) (node : α) : Option (ZMemory α × ZSet α) := do
  let (found, hmap) ←
    hmDelete memory.hcode zset.hmap (memory.hcode node) (hEq memory (memory.name node))
  guard (found ≠ none)
  let (tree, root) ← avlDel memory.tree node
  let memory ← znodeDel { memory with tree := tree } node
  return (memory, { root := root, hmap := hmap })

/-- The descent of `zset_seek_ge` from `node`, with the last candidate in `found`. -/
def ZMemory.seekGeFrom (memory : ZMemory α) (score : Number) (name : Bytes)
    (node found : Option α) : Option (Option α) :=
  match node with
  | none => some found
  | some node =>
    if avlCmpKey memory node score name < 0 then
      memory |>.seekGeFrom score name (memory.tree node).right found
    else
      memory |>.seekGeFrom score name (memory.tree node).left (some node)
partial_fixpoint

/-- `zset_seek_ge`: the first node which is not less. -/
def zsetSeekGe (memory : ZMemory α) (zset : ZSet α) (score : Number) (name : Bytes) :
    Option (Option α) :=
  memory.seekGeFrom score name zset.root none

/-- `znode_offset`. -/
def znodeOffset (memory : ZMemory α) (node : Option α) (offset : Int) : Option (Option α) :=
  match node with
  | none => some none
  | some node => avlOffset memory.tree node offset

/-- `znode_rank`. -/
def znodeRank (memory : ZMemory α) (node : α) : Option Nat :=
  avlRank memory.tree node

/-- `tree_dispose`, from the leaves up. -/
def ZMemory.treeDispose (memory : ZMemory α) (node : Option α) : Option (ZMemory α) :=
  match node with
  | none => some memory
  | some node => do
    let memory ← memory |>.treeDispose (memory.tree node).left
    let memory ← memory |>.treeDispose (memory.tree node).right
    znodeDel memory node
partial_fixpoint

/-- `zset_clear`: both indexes are empty afterwards. -/
def zsetClear (memory : ZMemory α) (zset : ZSet α) : Option (ZMemory α × ZSet α) := do
  let memory ← memory.treeDispose zset.root
  return (memory, { root := none, hmap := hmClear })

end MiniRedis
