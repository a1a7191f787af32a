import MiniRedis.Server.State
import MiniRedis.Server.Reply
import MiniRedis.Common.Numbers

/-!
# The commands of `exec.cpp`

A handler gets the command vector and the output buffer; `none` is an assertion
failure or an index outside the vector.
-/

namespace MiniRedis

open Binary64

/-- `entry_eq` against a lookup key. -/
def entryEq (state : Server) (key : Bytes) (ent : Addr) : Bool := state.key ent == key

/-- `get_entry`; the inner `none` is `NULL`. -/
def getEntry (state : Server) (key : Bytes) : Option (Option Addr × Server) := do
  let (found, db) ← hmLookup state.hcode state.db (strHash key) (entryEq state key)
  return (found, { state with db := db })

/-- `entry_new`, the assignments to key and hash code, and `hm_insert`. -/
def addEntry (env : Env) (state : Server) (key : Bytes) (type : ValueType) (str : Bytes) :
    Option (Addr × Server) := do
  let ent := env.newEntry state.live
  let state := entryNew state ent type
  let state := { state with
    key := Function.update state.key ent key
    hcode := Function.update state.hcode ent (strHash key)
    str := Function.update state.str ent str }
  let db ← hmInsert state.hcode state.db ent
  return (ent, { state with db := db })

/-- A handler of `exec.cpp`: the command vector and `out` to the new state and output. -/
abbrev CmdHandler := Env → Server → List Bytes → Bytes → Option (Server × Bytes)

/-- `exec_get`: the string, nil for an absent key. -/
def execGet : CmdHandler := fun _ state cmd out => do
  let key ← cmd[1]?
  let (node, state) ← getEntry state key
  match node with
  | none => return (state, outNil out)
  | some ent =>
    if state.type ent ≠ .str then return (state, outErr out .badType "not a string value")
    else return (state, outStr out (state.str ent))

/-- `exec_set`: a present string is replaced in place, an absent key gets a new entry. -/
def execSet : CmdHandler := fun env state cmd out => do
  let key ← cmd[1]?
  let val ← cmd[2]?
  let (node, state) ← getEntry state key
  match node with
  | some ent =>
    if state.type ent ≠ .str then return (state, outErr out .badType "a non-string value exists")
    else return ({ state with str := Function.update state.str ent val }, outNil out)
  | none =>
    let (_, state) ← addEntry env state key .str val
    return (state, outNil out)

/-- `exec_del`: the entry is taken out of the table before `entry_del` gets it. -/
def execDel : CmdHandler := fun _ state cmd out => do
  let key ← cmd[1]?
  let (node, db) ← hmDelete state.hcode state.db (strHash key) (entryEq state key)
  let state := { state with db := db }
  match node with
  | none => return (state, outInt out 0)
  | some ent =>
    let state ← entryDel state ent
    return (state, outInt out 1)

/-- `cb_keys`; it never stops the iteration. -/
def cbKeys (state : Server) (out : Bytes) (ent : Addr) : Bytes × Bool :=
  (outStr out (state.key ent), true)

/-- `exec_keys`: the size of the table, then the key of each node in both of its tables. -/
def execKeys : CmdHandler := fun _ state _ out => do
  let out := outArr out (hmSize state.db)
  let out ← hmForeach (cbKeys state) state.db out
  return (state, out)

/-- `exec_zadd`: the score is parsed first, so that a bad one makes no entry. -/
def execZadd : CmdHandler := fun env state cmd out => do
  let scoreArg ← cmd[2]?
  match str2dbl env.strtod scoreArg with
  | none => return (state, outErr out .badArg "expect double")
  | some score =>
    let key ← cmd[1]?
    let (node, state) ← getEntry state key
    let (ent, state) ← match node with
      | none => addEntry env state key .zset []
      | some ent => some (ent, state)
    if state.type ent ≠ .zset then return (state, outErr out .badType "expect zset")
    else
      let name ← cmd[3]?
      let (added, zmemory, zset) ← zsetInsert state.zmemory (state.zset ent)
        (env.malloc state.zmemory.live) name score
      let state := { state with zmemory := zmemory, zset := Function.update state.zset ent zset }
      return (state, outInt out (if added then 1 else 0))

/-- The common start of the sorted-set queries: find the entry of `cmd[1]` and check its
type; `missing` answers for an absent key. -/
def withZset (state : Server) (cmd : List Bytes) (out : Bytes) (missing : Bytes → Bytes)
    (handle : Server → Addr → Option (Server × Bytes)) : Option (Server × Bytes) := do
  let key ← cmd[1]?
  let (node, state) ← getEntry state key
  match node with
  | none => return (state, missing out)
  | some ent =>
    if state.type ent ≠ .zset then return (state, outErr out .badType "expect zset")
    else handle state ent

/-- `exec_zrem`: the node is looked up by name and deleted. -/
def execZrem : CmdHandler := fun _ state cmd out =>
  withZset state cmd out (fun out => outInt out 0) fun state ent => do
    let name ← cmd[2]?
    let (znode, zset) ← zsetLookup state.zmemory (state.zset ent) name
    match znode with
    | none =>
      return ({ state with zset := Function.update state.zset ent zset }, outInt out 0)
    | some znode =>
      let (zmemory, zset) ← zsetDelete state.zmemory zset znode
      return ({ state with zmemory := zmemory, zset := Function.update state.zset ent zset },
        outInt out 1)

/-- `exec_zscore`: the score of the node with the name. -/
def execZscore : CmdHandler := fun _ state cmd out =>
  withZset state cmd out outNil fun state ent => do
    let name ← cmd[2]?
    let (znode, zset) ← zsetLookup state.zmemory (state.zset ent) name
    let state := { state with zset := Function.update state.zset ent zset }
    match znode with
    | none => return (state, outNil out)
    | some znode => return (state, outDbl out (state.zmemory.score znode).double)

/-- `exec_zrank`: the number of nodes in front of it in the tree. -/
def execZrank : CmdHandler := fun _ state cmd out =>
  withZset state cmd out outNil fun state ent => do
    let name ← cmd[2]?
    let (znode, zset) ← zsetLookup state.zmemory (state.zset ent) name
    let state := { state with zset := Function.update state.zset ent zset }
    match znode with
    | none => return (state, outNil out)
    | some znode =>
      let rank ← znodeRank state.zmemory znode
      return (state, outInt out rank)

/-- The output loop of `exec_zquery`, which also returns the final `n`. -/
def ZMemory.zqueryFrom (memory : ZMemory Addr) (limit : Int) (znode : Option Addr) (n : Int)
    (out : Bytes) : Option (Bytes × Int) :=
  match znode with
  | none => some (out, n)
  | some node =>
    if n < limit then do
      let out := outDbl (outStr out (memory.name node)) (memory.score node).double
      let next ← znodeOffset memory (some node) 1
      memory |>.zqueryFrom limit next (n + 2) out
    else some (out, n)
partial_fixpoint

/-- `exec_zquery` from the check of `limit` on, when the sorted set has been found. -/
def zqueryRange (memory : ZMemory Addr) (zset : ZSet Addr) (score : Number) (name : Bytes)
    (offset limit : Int) (out : Bytes) : Option Bytes :=
  if limit ≤ 0 then some (outArr out 0)
  else do
    let znode ← zsetSeekGe memory zset score name
    let znode ← znodeOffset memory znode offset
    let (out, arrSizePos) := outBeginArr out
    let (out, n) ← memory.zqueryFrom limit znode 0 out
    outEndArr out arrSizePos n.toNat

/-- `exec_zquery`: all three numbers are parsed before the key is looked up. -/
def execZquery : CmdHandler := fun env state cmd out => do
  let scoreArg ← cmd[2]?
  match str2dbl env.strtod scoreArg with
  | none => return (state, outErr out .badArg "expect double")
  | some score =>
    let name ← cmd[3]?
    let offsetArg ← cmd[4]?
    let limitArg ← cmd[5]?
    match str2int offsetArg, str2int limitArg with
    | some offset, some limit =>
      withZset state cmd out (fun out => outArr out 0) fun state ent => do
        let out ← zqueryRange state.zmemory (state.zset ent) score name offset limit out
        return (state, out)
    | _, _ => return (state, outErr out .badArg "expect int")

/-- `exec_pexpire` asserts that the time to live is not negative, before it looks up the key. -/
def execPexpire : CmdHandler := fun env state cmd out => do
  let ttlArg ← cmd[2]?
  match str2int ttlArg with
  | none => return (state, outErr out .badArg "expect int64")
  | some ttlMs =>
    guard (ttlMs ≥ 0)
    let key ← cmd[1]?
    let (node, state) ← getEntry state key
    match node with
    | none => return (state, outInt out 0)
    | some ent =>
      let state ← entrySetTtl env state ent ttlMs.toNat
      return (state, outInt out 1)

/-- `exec_persist`: an entry outside the heap is answered like an absent one. -/
def execPersist : CmdHandler := fun _ state cmd out => do
  let key ← cmd[1]?
  let (node, state) ← getEntry state key
  match node with
  | none => return (state, outInt out 0)
  | some ent =>
    if state.heapIdx ent = none then return (state, outInt out 0)
    else
      let state ← entryRemoveTtl state ent
      return (state, outInt out 1)

/-- `exec_pttl`: -2 for an absent key, -1 for one outside the heap. -/
def execPttl : CmdHandler := fun env state cmd out => do
  let key ← cmd[1]?
  let (node, state) ← getEntry state key
  match node with
  | none => return (state, outInt out (-2))
  | some ent =>
    match state.heapIdx ent with
    | none => return (state, outInt out (-1))
    | some pos =>
      let item ← state.ttlHeap.arr[pos]?
      return (state, outInt out (if item.val > env.now then (item.val - env.now : Nat) else 0))

/-- A line of the table of commands. -/
structure CmdEntry where
  name : String
  handler : CmdHandler
  arity : Nat

/-- `cmd_table`, in the order in which it is searched. -/
def cmdTable : List CmdEntry :=
  [⟨"get", execGet, 2⟩, ⟨"set", execSet, 3⟩, ⟨"del", execDel, 2⟩, ⟨"keys", execKeys, 1⟩,
    ⟨"zadd", execZadd, 4⟩, ⟨"zrem", execZrem, 3⟩, ⟨"zscore", execZscore, 3⟩,
    ⟨"zrank", execZrank, 3⟩, ⟨"zquery", execZquery, 6⟩, ⟨"pexpire", execPexpire, 3⟩,
    ⟨"persist", execPersist, 2⟩, ⟨"pttl", execPttl, 2⟩]

/-- `exec_cmd`: the first entry with the name decides, and checks the number of arguments. -/
def execCmd : CmdHandler := fun env state cmd out =>
  match cmd with
  | [] => some (state, outErr out .unknown "unknown command.")
  | cmdName :: _ =>
    match cmdTable.find? fun entry => cmdName == ascii entry.name with
    | none => some (state, outErr out .unknown "unknown command.")
    | some target =>
      if cmd.length ≠ target.arity then
        some (state, outErr out .unknown "wrong number of arguments.")
      else target.handler env state cmd out

end MiniRedis
