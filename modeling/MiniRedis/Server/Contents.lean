import MiniRedis.Server.Timers
import MiniRedis.ZSet.Members

/-!
# The database as a map

The abstract server is a map from keys to values with an optional deadline. `SpecStep`
is its answer to a command: it knows neither tables nor trees nor the heap.
-/

namespace MiniRedis

open Binary64

/-- What a key can hold. Of a sorted set the scores by name are all there is. -/
inductive Value where
  | str (s : Bytes)
  | zset (scores : Bytes → Option Number)

/-- A value and the time at which it expires, if any. -/
structure Record where
  value : Value
  deadline : Option Nat := none

/-- The map from keys which the program keeps. -/
abbrev Contents := Bytes → Option Record

/-! ## What the concrete state holds -/

/-- The deadline behind an entry's index into the heap. -/
def Server.deadlineOf (state : Server) (ent : Addr) : Option Nat := do
  let pos ← state.heapIdx ent
  let item ← state.ttlHeap.arr[pos]?
  return item.val

/-- The value of an entry. The scores are read from its hash index. -/
def Server.valueOf (state : Server) (ent : Addr) : Value :=
  match state.type ent with
  | .zset => .zset (scoreOf state.zmemory (state.zset ent).hmap.nodes)
  | _ => .str (state.str ent)

/-- The record of an entry, with the deadline from the heap. -/
def Server.record (state : Server) (ent : Addr) : Record where
  value := state.valueOf ent
  deadline := state.deadlineOf ent

/-- The records of the nodes in the hash table, by key. -/
def Server.contents (state : Server) : Contents :=
  KeyedList.lookup state.db.nodes state.key state.record

/-! ## What a command answers -/

/-- A string, or nil for an absent key. Sorted sets are refused. -/
def specGet (map : Contents) (key : Bytes) : WireValue :=
  match map key with
  | none => .nil
  | some ⟨.str s, _⟩ => .str s
  | some ⟨.zset _, _⟩ => errValue .badType "not a string value"

/-- The value is stored; a deadline stays, and a sorted set is refused. -/
def specSet (map : Contents) (key val : Bytes) : WireValue × Contents :=
  match map key with
  | none => (.nil, Function.update map key (some { value := .str val }))
  | some ⟨.str _, deadline⟩ => (.nil, Function.update map key (some ⟨.str val, deadline⟩))
  | some ⟨.zset _, _⟩ => (errValue .badType "a non-string value exists", map)

/-- The key goes with all it has, whatever its type. -/
def specDel (map : Contents) (key : Bytes) : WireValue × Contents :=
  match map key with
  | none => (.int 0, map)
  | some _ => (.int 1, Function.update map key none)

/-- A member keeps its score if the new one compares equal to it. -/
def specZadd (env : Env) (map : Contents) (key scoreArg name : Bytes) : WireValue × Contents :=
  match str2dbl env.strtod scoreArg with
  | none => (errValue .badArg "expect double", map)
  | some score =>
    match map key with
    | none =>
      (.int 1, Function.update map key
        (some { value := .zset (Function.update (fun _ => none) name (some score)) }))
    | some ⟨.zset scores, deadline⟩ =>
      (.int (if (scores name).isNone then 1 else 0), Function.update map key
        (some ⟨.zset (Function.update scores name (some (insertedScore (scores name) score))),
          deadline⟩))
    | some ⟨.str _, _⟩ => (errValue .badType "expect zset", map)

/-- The member goes; its set stays, also when it was the last one. -/
def specZrem (map : Contents) (key name : Bytes) : WireValue × Contents :=
  match map key with
  | none => (.int 0, map)
  | some ⟨.zset scores, deadline⟩ =>
    (.int (if (scores name).isNone then 0 else 1), Function.update map key
      (some ⟨.zset (Function.update scores name none), deadline⟩))
  | some ⟨.str _, _⟩ => (errValue .badType "expect zset", map)

/-- The score, or nil for an absent key or member. -/
def specZscore (map : Contents) (key name : Bytes) : WireValue :=
  match map key with
  | none => .nil
  | some ⟨.zset scores, _⟩ => (scores name).elim .nil fun score => .dbl score.double
  | some ⟨.str _, _⟩ => errValue .badType "expect zset"

/-- A negative time to live has no answer. -/
def specPexpire (env : Env) (map : Contents) (key ttlArg : Bytes) : Option (WireValue × Contents) :=
  match str2int ttlArg with
  | none => some (errValue .badArg "expect int64", map)
  | some ttlMs =>
    if ttlMs < 0 then none
    else
      match map key with
      | none => some (.int 0, map)
      | some ⟨value, _⟩ =>
        some (.int 1, Function.update map key (some ⟨value, some (env.now + ttlMs.toNat)⟩))

/-- The deadline goes. A key without one is answered like an absent key. -/
def specPersist (map : Contents) (key : Bytes) : WireValue × Contents :=
  match map key with
  | some ⟨value, some _⟩ => (.int 1, Function.update map key (some ⟨value, none⟩))
  | _ => (.int 0, map)

/-- The time which is left, with 0 for a deadline in the past. -/
def specPttl (env : Env) (map : Contents) (key : Bytes) : WireValue :=
  match map key with
  | none => .int (-2)
  | some ⟨_, none⟩ => .int (-1)
  | some ⟨_, some deadline⟩ => .int (max 0 (deadline - env.now))

/-- One step of the abstract server. `keys` lists the present keys in any order; what
`zrank` and `zquery` answer is left open here, but they change nothing. -/
inductive SpecStep (env : Env) (map : Contents) : List Bytes → WireValue → Contents → Prop where
  | get (key : Bytes) : SpecStep env map [ascii "get", key] (specGet map key) map
  | set (key val : Bytes) :
      SpecStep env map [ascii "set", key, val] (specSet map key val).1 (specSet map key val).2
  | del (key : Bytes) : SpecStep env map [ascii "del", key] (specDel map key).1 (specDel map key).2
  | keys (names : List Bytes) (nodup : names.Nodup)
      (present : ∀ key, key ∈ names ↔ (map key).isSome) :
      SpecStep env map [ascii "keys"] (.arr (names.map .str)) map
  | zadd (key score name : Bytes) :
      SpecStep env map [ascii "zadd", key, score, name] (specZadd env map key score name).1
        (specZadd env map key score name).2
  | zrem (key name : Bytes) :
      SpecStep env map [ascii "zrem", key, name] (specZrem map key name).1 (specZrem map key name).2
  | zscore (key name : Bytes) :
      SpecStep env map [ascii "zscore", key, name] (specZscore map key name) map
  | zrank (key name : Bytes) (reply : WireValue) :
      SpecStep env map [ascii "zrank", key, name] reply map
  | zquery (key score name offset limit : Bytes) (reply : WireValue) :
      SpecStep env map [ascii "zquery", key, score, name, offset, limit] reply map
  | pexpire (key ttl : Bytes) {reply : WireValue} {map' : Contents}
      (answer : specPexpire env map key ttl = some (reply, map')) :
      SpecStep env map [ascii "pexpire", key, ttl] reply map'
  | persist (key : Bytes) :
      SpecStep env map [ascii "persist", key] (specPersist map key).1 (specPersist map key).2
  | pttl (key : Bytes) : SpecStep env map [ascii "pttl", key] (specPttl env map key) map
  | unknown (cmd : List Bytes)
      (unlisted : ∀ name ∈ cmd.head?, ∀ entry ∈ cmdTable, name ≠ ascii entry.name) :
      SpecStep env map cmd (errValue .unknown "unknown command.") map
  | arity (name : Bytes) (args : List Bytes) {entry : CmdEntry} (listed : entry ∈ cmdTable)
      (named : name = ascii entry.name) (differs : (name :: args).length ≠ entry.arity) :
      SpecStep env map (name :: args) (errValue .unknown "wrong number of arguments.") map

end MiniRedis
