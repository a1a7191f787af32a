import Mathlib

/-!
# The intrusive AVL tree of `avl.cpp`

Nodes live in a memory which maps addresses to node records; `none` is `NULL`.
A function returns `none` where the source fails an assertion, follows a null
pointer or never returns, so a result is also a proof of normal termination.
The `uint32_t` fields `height` and `cnt` are natural numbers: `avl_update` does not wrap as
long as a tree has fewer than `2 ^ 32` nodes (`Represents.cached_le`).
-/

namespace MiniRedis

/-- `AVLNode`. -/
@[ext]
structure AvlNode (α : Type) where
  parent : Option α := none
  left : Option α := none
  right : Option α := none
  height : Nat := 0
  cnt : Nat := 0

/-- The `AVLNode` stored at each address. -/
abbrev AvlMemory (α : Type) := α → AvlNode α

/-- `AVLNode **`: the local root variable or a child field of some node. -/
inductive Link (α : Type) where
  | root
  | left (parent : α)
  | right (parent : α)
  deriving DecidableEq

namespace AvlMemory

variable {α : Type} [DecidableEq α]

def setParent (memory : AvlMemory α) (node : α) (parent : Option α) : AvlMemory α :=
  Function.update memory node { memory node with parent := parent }

def setLeft (memory : AvlMemory α) (node : α) (left : Option α) : AvlMemory α :=
  Function.update memory node { memory node with left := left }

def setRight (memory : AvlMemory α) (node : α) (right : Option α) : AvlMemory α :=
  Function.update memory node { memory node with right := right }

/-- `if (child) child->parent = parent`. -/
def adopt (memory : AvlMemory α) (child parent : Option α) : AvlMemory α :=
  match child with
  | none => memory
  | some child => memory.setParent child parent

/-- `*from` for a pointer-to-pointer; `root` is the value of the local variable. -/
def read (memory : AvlMemory α) (root : Option α) : Link α → Option α
  | .root => root
  | .left parent => (memory parent).left
  | .right parent => (memory parent).right

/-- `*from = child`; a write to the local variable leaves the memory alone. -/
def write (memory : AvlMemory α) (child : Option α) : Link α → AvlMemory α
  | .root => memory
  | .left parent => memory.setLeft parent child
  | .right parent => memory.setRight parent child

/-- `parent->left == node ? &parent->left : &parent->right`. -/
def linkTo (memory : AvlMemory α) (parent node : α) : Link α :=
  if (memory parent).left = some node then .left parent else .right parent

end AvlMemory

variable {α : Type} [DecidableEq α]

def avlInit (memory : AvlMemory α) (node : α) : AvlMemory α :=
  Function.update memory node { height := 1, cnt := 1 }

def avlHeight (memory : AvlMemory α) : Option α → Nat
  | none => 0
  | some node => (memory node).height

def avlCnt (memory : AvlMemory α) : Option α → Nat
  | none => 0
  | some node => (memory node).cnt

def avlUpdate (memory : AvlMemory α) (node : α) : AvlMemory α :=
  Function.update memory node
    { memory node with
      height := 1 + max (avlHeight memory (memory node).left) (avlHeight memory (memory node).right)
      cnt := 1 + avlCnt memory (memory node).left + avlCnt memory (memory node).right }

/-- Returns the new subtree root; the caller updates the parent's link to it. -/
def rotLeft (memory : AvlMemory α) (node : α) : Option (AvlMemory α × α) := do
  let parent := (memory node).parent
  let right ← (memory node).right -- assert(right != NULL)
  let rightLeft := (memory right).left
  let memory := memory.setRight node rightLeft
  let memory := memory.adopt rightLeft (some node)
  let memory := memory.setParent right parent
  let memory := memory.setLeft right (some node)
  let memory := memory.setParent node (some right)
  let memory := avlUpdate memory node
  let memory := avlUpdate memory right
  return (memory, right)

/-- Returns the new subtree root; the caller updates the parent's link to it. -/
def rotRight (memory : AvlMemory α) (node : α) : Option (AvlMemory α × α) := do
  let parent := (memory node).parent
  let left ← (memory node).left -- assert(left != NULL)
  let leftRight := (memory left).right
  let memory := memory.setLeft node leftRight
  let memory := memory.adopt leftRight (some node)
  let memory := memory.setParent left parent
  let memory := memory.setRight left (some node)
  let memory := memory.setParent node (some left)
  let memory := avlUpdate memory node
  let memory := avlUpdate memory left
  return (memory, left)

/-- The conditional `node->left = rot_left(node->left)` of `avl_fix_left`. -/
def avlLeanLeft (memory : AvlMemory α) (node left : α) : Option (AvlMemory α) :=
  if avlHeight memory (memory left).left < avlHeight memory (memory left).right then do
    let (memory, subtree) ← rotLeft memory left
    return memory.setLeft node (some subtree)
  else
    some memory

/-- The conditional `node->right = rot_right(node->right)` of `avl_fix_right`. -/
def avlLeanRight (memory : AvlMemory α) (node right : α) : Option (AvlMemory α) :=
  if avlHeight memory (memory right).right < avlHeight memory (memory right).left then do
    let (memory, subtree) ← rotRight memory right
    return memory.setRight node (some subtree)
  else
    some memory

def avlFixLeft (memory : AvlMemory α) (node : α) : Option (AvlMemory α × α) := do
  guard (avlHeight memory (memory node).left - avlHeight memory (memory node).right = 2)
  let left ← (memory node).left
  let memory ← avlLeanLeft memory node left
  rotRight memory node

def avlFixRight (memory : AvlMemory α) (node : α) : Option (AvlMemory α × α) := do
  guard (avlHeight memory (memory node).right - avlHeight memory (memory node).left = 2)
  let right ← (memory node).right
  let memory ← avlLeanRight memory node right
  rotLeft memory node

/-- One turn of the loop in `avl_fix`: the repaired memory, the root of the
repaired subtree and the parent to continue at. -/
def avlFixStep (memory : AvlMemory α) (node : α) : Option (AvlMemory α × α × Option α) := do
  let memory := avlUpdate memory node
  let parent := (memory node).parent
  let link := parent.elim .root fun parent => memory.linkTo parent node
  let l := avlHeight memory (memory node).left
  let r := avlHeight memory (memory node).right
  if l = r + 2 then
    let (memory, subtree) ← avlFixLeft memory node
    return (memory.write (some subtree) link, subtree, parent)
  else if r = l + 2 then
    let (memory, subtree) ← avlFixRight memory node
    return (memory.write (some subtree) link, subtree, parent)
  else
    return (memory, node, parent)

/-- Returns the root of the whole tree. -/
def AvlMemory.avlFix (memory : AvlMemory α) (node : α) : Option (AvlMemory α × α) := do
  let (memory, subtree, parent) ← avlFixStep memory node
  match parent with
  | none => return (memory, subtree)
  | some parent => memory |>.avlFix parent
partial_fixpoint

open AvlMemory (avlFix)

/-- The first half of `avl_del_easy`: put the only child, if any, in the place of
`node`. -/
def avlUnlink (memory : AvlMemory α) (node : α) : AvlMemory α × Option α :=
  let child := (memory node).left.elim (memory node).right some
  let parent := (memory node).parent
  let memory := memory.adopt child parent
  (memory.write child (parent.elim .root fun parent => memory.linkTo parent node), child)

/-- Returns the root of the remaining tree. -/
def avlDelEasy (memory : AvlMemory α) (node : α) : Option (AvlMemory α × Option α) := do
  guard ((memory node).left = none ∨ (memory node).right = none)
  let parent := (memory node).parent
  let (memory, child) := avlUnlink memory node
  match parent with
  | none => return (memory, child)
  | some parent =>
    let (memory, root) ← avlFix memory parent
    return (memory, some root)

/-- `while (successor->left) successor = successor->left`. -/
def AvlMemory.leftmost (memory : AvlMemory α) (node : α) : Option α :=
  match (memory node).left with
  | none => some node
  | some left => memory |>.leftmost left
partial_fixpoint

open AvlMemory (leftmost)

/-- `*successor = *node`, after which the children point to `successor`. -/
def avlTakeOver (memory : AvlMemory α) (node successor : α) : AvlMemory α :=
  let memory : AvlMemory α := Function.update memory successor (memory node)
  let memory := memory.adopt (memory successor).left (some successor)
  memory.adopt (memory successor).right (some successor)

/-- The last half of `avl_del`: `successor` takes the place of `node`. -/
def avlReplace (memory : AvlMemory α) (node successor : α) (root : Option α) :
    AvlMemory α × Option α :=
  let memory := avlTakeOver memory node successor
  match (memory node).parent with
  | none => (memory, some successor)
  | some parent => (memory.write (some successor) (memory.linkTo parent node), root)

/-- Returns the root of the remaining tree. -/
def avlDel (memory : AvlMemory α) (node : α) : Option (AvlMemory α × Option α) := do
  if (memory node).left = none ∨ (memory node).right = none then
    avlDelEasy memory node
  else
    let right ← (memory node).right
    let successor ← leftmost memory right
    let (memory, root) ← avlDelEasy memory successor
    return avlReplace memory node successor root

/-- Where the descent of `avl_insert` ends. -/
inductive Place (α : Type) where
  | duplicate
  | vacant (parent : Option α) (link : Link α)

/-- The descent of `avl_insert`: `link` is `from`. -/
def AvlMemory.avlSeek (memory : AvlMemory α) (root : Option α) (cmp : α → α → Int) (node : α)
    (parent : Option α) (link : Link α) : Option (Place α) :=
  match memory.read root link with
  | none => some (.vacant parent link)
  | some below =>
    if cmp node below = 0 then some .duplicate
    else if cmp node below < 0 then memory |>.avlSeek root cmp node (some below) (.left below)
    else memory |>.avlSeek root cmp node (some below) (.right below)
partial_fixpoint

open AvlMemory (avlSeek)

/-- `*from = node; node->parent = parent`. -/
def avlAttach (memory : AvlMemory α) (node : α) (parent : Option α) (link : Link α) :
    AvlMemory α :=
  (memory.write (some node) link).setParent node parent

/-- Returns the root which the caller stores; a duplicate changes nothing. -/
def avlInsert (memory : AvlMemory α) (root : Option α) (node : α) (cmp : α → α → Int) :
    Option (AvlMemory α × Option α) := do
  match ← avlSeek memory root cmp node none .root with
  | .duplicate => return (memory, root)
  | .vacant parent link =>
    let (memory, root) ← avlFix (avlAttach memory node parent link) node
    return (memory, some root)

/-- The loop of `avl_offset`; the inner `none` is the null result. -/
def AvlMemory.avlOffsetFrom (memory : AvlMemory α) (offset : Int) (node : α) (rankDiff : Int) :
    Option (Option α) :=
  if rankDiff = offset then some (some node)
  else if rankDiff < offset ∧ rankDiff + avlCnt memory (memory node).right ≥ offset then
    match (memory node).right with
    | none => none
    | some right =>
      memory |>.avlOffsetFrom offset right (rankDiff + (avlCnt memory (memory right).left + 1))
  else if rankDiff > offset ∧ rankDiff - avlCnt memory (memory node).left ≤ offset then
    match (memory node).left with
    | none => none
    | some left =>
      memory |>.avlOffsetFrom offset left (rankDiff - (avlCnt memory (memory left).right + 1))
  else
    match (memory node).parent with
    | none => some none
    | some parent =>
      if (memory parent).right = some node then
        memory |>.avlOffsetFrom offset parent (rankDiff - (avlCnt memory (memory node).left + 1))
      else
        memory |>.avlOffsetFrom offset parent (rankDiff + (avlCnt memory (memory node).right + 1))
partial_fixpoint

open AvlMemory (avlOffsetFrom)

def avlOffset (memory : AvlMemory α) (node : α) (offset : Int) : Option (Option α) :=
  avlOffsetFrom memory offset node 0

/-- The climb of `avl_rank`. -/
def AvlMemory.avlRankFrom (memory : AvlMemory α) (node : α) (rank : Nat) : Option Nat :=
  match (memory node).parent with
  | none => some rank
  | some parent =>
    if (memory parent).right = some node then
      memory |>.avlRankFrom parent (rank + (avlCnt memory (memory parent).left + 1))
    else
      memory |>.avlRankFrom parent rank
partial_fixpoint

open AvlMemory (avlRankFrom)

def avlRank (memory : AvlMemory α) (node : α) : Option Nat :=
  avlRankFrom memory node (avlCnt memory (memory node).left)

end MiniRedis
