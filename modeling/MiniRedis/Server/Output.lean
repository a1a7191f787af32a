import MiniRedis.Server.Buffers
import MiniRedis.Server.History

/-!
# The commands over buffers (`exec.cpp`)

The handlers once more, with the buffer which they write to. Whatever it holds, they append
to it what the handlers over byte strings append.
-/

namespace MiniRedis.Buffers

open Binary64

/-! ## Handlers -/

/-- A handler which writes its reply with the functions of `server_utils.cpp`. -/
abbrev CmdHandler := Env → Server → List Bytes → Buffer → Option (Server × Buffer)

/-- The handlers are those of `Server/Exec.lean`, with a real `out`. Here a write can fail,
too. -/
def execGet : CmdHandler := fun _ state cmd out => do
  let key ← cmd[1]?
  let (node, state) ← getEntry state key
  match node with
  | none => return (state, ← outNil out)
  | some ent =>
    if state.type ent ≠ .str then return (state, ← outErr out .badType "not a string value")
    else return (state, ← outStr out (state.str ent))

def execSet : CmdHandler := fun env state cmd out => do
  let key ← cmd[1]?
  let val ← cmd[2]?
  let (node, state) ← getEntry state key
  match node with
  | some ent =>
    if state.type ent ≠ .str then
      return (state, ← outErr out .badType "a non-string value exists")
    else return ({ state with str := Function.update state.str ent val }, ← outNil out)
  | none =>
    let (_, state) ← addEntry env state key .str val
    return (state, ← outNil out)

def execDel : CmdHandler := fun _ state cmd out => do
  let key ← cmd[1]?
  let (node, db) ← hmDelete state.hcode state.db (strHash key) (entryEq state key)
  let state := { state with db := db }
  match node with
  | none => return (state, ← outInt out 0)
  | some ent =>
    let state ← entryDel state ent
    return (state, ← outInt out 1)

/-- `cb_keys`; it never stops the iteration. -/
def cbKeys (state : Server) (out : Option Buffer) (ent : Addr) : Option Buffer × Bool :=
  (out.bind (outStr · (state.key ent)), true)

def execKeys : CmdHandler := fun _ state _ out => do
  let out ← outArr out (hmSize state.db)
  let out ← hmForeach (cbKeys state) state.db (some out)
  return (state, ← out)

def execZadd : CmdHandler := fun env state cmd out => do
  let scoreArg ← cmd[2]?
  match str2dbl env.strtod scoreArg with
  | none => return (state, ← outErr out .badArg "expect double")
  | some score =>
    let key ← cmd[1]?
    let (node, state) ← getEntry state key
    let (ent, state) ← match node with
      | none => addEntry env state key .zset []
      | some ent => some (ent, state)
    if state.type ent ≠ .zset then return (state, ← outErr out .badType "expect zset")
    else
      let name ← cmd[3]?
      let (added, zmemory, zset) ← zsetInsert state.zmemory (state.zset ent)
        (env.malloc state.zmemory.live) name score
      let state := { state with zmemory := zmemory, zset := Function.update state.zset ent zset }
      return (state, ← outInt out (if added then 1 else 0))

/-- The start of the sorted-set commands. -/
def withZset (state : Server) (cmd : List Bytes) (out : Buffer)
    (missing : Buffer → Option Buffer) (handle : Server → Addr → Option (Server × Buffer)) :
    Option (Server × Buffer) := do
  let key ← cmd[1]?
  let (node, state) ← getEntry state key
  match node with
  | none => return (state, ← missing out)
  | some ent =>
    if state.type ent ≠ .zset then return (state, ← outErr out .badType "expect zset")
    else handle state ent

def execZrem : CmdHandler := fun _ state cmd out =>
  withZset state cmd out (fun out => outInt out 0) fun state ent => do
    let name ← cmd[2]?
    let (znode, zset) ← zsetLookup state.zmemory (state.zset ent) name
    match znode with
    | none =>
      return ({ state with zset := Function.update state.zset ent zset }, ← outInt out 0)
    | some znode =>
      let (zmemory, zset) ← zsetDelete state.zmemory zset znode
      return ({ state with zmemory := zmemory, zset := Function.update state.zset ent zset },
        ← outInt out 1)

def execZscore : CmdHandler := fun _ state cmd out =>
  withZset state cmd out outNil fun state ent => do
    let name ← cmd[2]?
    let (znode, zset) ← zsetLookup state.zmemory (state.zset ent) name
    let state := { state with zset := Function.update state.zset ent zset }
    match znode with
    | none => return (state, ← outNil out)
    | some znode => return (state, ← outDbl out (state.zmemory.score znode).double)

def execZrank : CmdHandler := fun _ state cmd out =>
  withZset state cmd out outNil fun state ent => do
    let name ← cmd[2]?
    let (znode, zset) ← zsetLookup state.zmemory (state.zset ent) name
    let state := { state with zset := Function.update state.zset ent zset }
    match znode with
    | none => return (state, ← outNil out)
    | some znode =>
      let rank ← znodeRank state.zmemory znode
      return (state, ← outInt out rank)

/-- The output loop of `exec_zquery`, which also returns the final `n`. -/
def zqueryFrom (memory : ZMemory Addr) (limit : Int) (znode : Option Addr) (n : Int)
    (out : Buffer) : Option (Buffer × Int) :=
  match znode with
  | none => some (out, n)
  | some node =>
    if n < limit then do
      let out ← outStr out (memory.name node)
      let out ← outDbl out (memory.score node).double
      let next ← znodeOffset memory (some node) 1
      zqueryFrom memory limit next (n + 2) out
    else some (out, n)
termination_by (limit - n).toNat
decreasing_by omega

/-- The position of the array length is an offset into the buffer. -/
def zqueryRange (memory : ZMemory Addr) (zset : ZSet Addr) (score : Number) (name : Bytes)
    (offset limit : Int) (out : Buffer) : Option Buffer :=
  if limit ≤ 0 then outArr out 0
  else do
    let znode ← zsetSeekGe memory zset score name
    let znode ← znodeOffset memory znode offset
    let (out, arrSizePos) ← outBeginArr out
    let (out, n) ← zqueryFrom memory limit znode 0 out
    outEndArr out arrSizePos n.toNat

def execZquery : CmdHandler := fun env state cmd out => do
  let scoreArg ← cmd[2]?
  match str2dbl env.strtod scoreArg with
  | none => return (state, ← outErr out .badArg "expect double")
  | some score =>
    let name ← cmd[3]?
    let offsetArg ← cmd[4]?
    let limitArg ← cmd[5]?
    match str2int offsetArg, str2int limitArg with
    | some offset, some limit =>
      withZset state cmd out (fun out => outArr out 0) fun state ent => do
        let out ← zqueryRange state.zmemory (state.zset ent) score name offset limit out
        return (state, out)
    | _, _ => return (state, ← outErr out .badArg "expect int")

def execPexpire : CmdHandler := fun env state cmd out => do
  let ttlArg ← cmd[2]?
  match str2int ttlArg with
  | none => return (state, ← outErr out .badArg "expect int64")
  | some ttlMs =>
    guard (ttlMs ≥ 0)
    let key ← cmd[1]?
    let (node, state) ← getEntry state key
    match node with
    | none => return (state, ← outInt out 0)
    | some ent =>
      let state ← entrySetTtl env state ent ttlMs.toNat
      return (state, ← outInt out 1)

def execPersist : CmdHandler := fun _ state cmd out => do
  let key ← cmd[1]?
  let (node, state) ← getEntry state key
  match node with
  | none => return (state, ← outInt out 0)
  | some ent =>
    if state.heapIdx ent = none then return (state, ← outInt out 0)
    else
      let state ← entryRemoveTtl state ent
      return (state, ← outInt out 1)

def execPttl : CmdHandler := fun env state cmd out => do
  let key ← cmd[1]?
  let (node, state) ← getEntry state key
  match node with
  | none => return (state, ← outInt out (-2))
  | some ent =>
    match state.heapIdx ent with
    | none => return (state, ← outInt out (-1))
    | some pos =>
      let item ← state.ttlHeap.arr[pos]?
      return (state, ← outInt out (if item.val > env.now then (item.val - env.now : Nat) else 0))

/-- A line of the table of commands. -/
structure CmdEntry where
  name : String
  handler : CmdHandler
  arity : Nat

/-- The same names and numbers of arguments. -/
def cmdTable : List CmdEntry :=
  [⟨"get", execGet, 2⟩, ⟨"set", execSet, 3⟩, ⟨"del", execDel, 2⟩, ⟨"keys", execKeys, 1⟩,
    ⟨"zadd", execZadd, 4⟩, ⟨"zrem", execZrem, 3⟩, ⟨"zscore", execZscore, 3⟩,
    ⟨"zrank", execZrank, 3⟩, ⟨"zquery", execZquery, 6⟩, ⟨"pexpire", execPexpire, 3⟩,
    ⟨"persist", execPersist, 2⟩, ⟨"pttl", execPttl, 2⟩]

/-- The first entry with the name. -/
def execCmd : CmdHandler := fun env state cmd out =>
  match cmd with
  | [] => do return (state, ← outErr out .unknown "unknown command.")
  | cmdName :: _ =>
    match cmdTable.find? fun entry => cmdName == ascii entry.name with
    | none => do return (state, ← outErr out .unknown "unknown command.")
    | some target =>
      if cmd.length ≠ target.arity then do
        return (state, ← outErr out .unknown "wrong number of arguments.")
      else target.handler env state cmd out

/-! ## The same answers -/

/-- Whatever is in front, both write the same answer behind it, or neither returns. -/
def Follows {α : Type} (real : Buffer → Option (α × Buffer)) (queue : Bytes → Option (α × Bytes)) :
    Prop :=
  ∃ answer : Option (α × Bytes), (∀ out, queue out = answer.map fun a => (a.1, out ++ a.2)) ∧
    ∀ buf bytes, Fresh buf bytes →
      Option.Rel (fun result a => result.1 = a.1 ∧ Fresh result.2 (bytes ++ a.2)) (real buf) answer

section Combinators

variable {α β : Type}

/-- A step in front of both which does not write. -/
theorem Follows.bind {step : Option β} {real : β → Buffer → Option (α × Buffer)}
    {queue : β → Bytes → Option (α × Bytes)} (next : ∀ b, Follows (real b) (queue b)) :
    Follows (fun buf => step >>= fun b => real b buf)
      (fun out => step >>= fun b => queue b out) := by
  cases step with
  | none => exact ⟨none, fun _ => rfl, fun _ _ _ => .none⟩
  | some b => exact next b

/-- Both decide alike. -/
theorem Follows.ite {p : Prop} [Decidable p] {real real' : Buffer → Option (α × Buffer)}
    {queue queue' : Bytes → Option (α × Bytes)} (yes : Follows real queue)
    (no : Follows real' queue') :
    Follows (fun buf => if p then real buf else real' buf)
      (fun out => if p then queue out else queue' out) := by
  split
  · exact yes
  · exact no

/-- The answer itself. -/
theorem Follows.reply {write : Buffer → Option Buffer} {value : Bytes} (writes : Writes write value)
    {append : Bytes → Bytes} (same : ∀ out, append out = out ++ value) (result : α) :
    Follows (fun buf => do return (result, ← write buf))
      (fun out => some (result, append out)) := by
  refine ⟨some (result, value), fun out => by simp [same], fun buf bytes fresh => ?_⟩
  obtain ⟨buf', run, fresh'⟩ := writes buf bytes fresh
  simp only [run]
  exact .some ⟨rfl, fresh'⟩

variable (result : α)

/-- Each `out_` function follows its counterpart. -/
theorem Follows.nil : Follows (fun buf => do return (result, ← outNil buf))
    (fun out => some (result, MiniRedis.outNil out)) := .reply outNil_writes outNil_eq result

theorem Follows.str (s : Bytes) : Follows (fun buf => do return (result, ← outStr buf s))
    (fun out => some (result, MiniRedis.outStr out s)) :=
  .reply (outStr_writes s) (outStr_eq · s) result

theorem Follows.int (val : Int) : Follows (fun buf => do return (result, ← outInt buf val))
    (fun out => some (result, MiniRedis.outInt out val)) :=
  .reply (outInt_writes val) (outInt_eq · val) result

theorem Follows.dbl (val : Double) : Follows (fun buf => do return (result, ← outDbl buf val))
    (fun out => some (result, MiniRedis.outDbl out val)) :=
  .reply (outDbl_writes val) (outDbl_eq · val) result

theorem Follows.err (code : ErrCode) (msg : String) :
    Follows (fun buf => do return (result, ← outErr buf code msg))
      (fun out => some (result, MiniRedis.outErr out code msg)) :=
  .reply (outErr_writes code msg) (outErr_eq · code msg) result

theorem Follows.arr (n : Nat) : Follows (fun buf => do return (result, ← outArr buf n))
    (fun out => some (result, MiniRedis.outArr out n)) :=
  .reply (outArr_writes n) (fun out => by simp [MiniRedis.outArr, MiniRedis.bufAppendU8,
    MiniRedis.bufAppendU32]) result

end Combinators

variable (env : Env) (state : Server) (cmd : List Bytes)

/-- The handlers differ in their output alone, so the rules above apply along their branches. -/
theorem execGet_follows : Follows (execGet env state cmd) (MiniRedis.execGet env state cmd) := by
  refine .bind fun key => .bind fun (node, state) => ?_
  cases node with
  | none => exact .nil _
  | some ent => exact .ite (.err ..) (.str ..)

theorem execSet_follows : Follows (execSet env state cmd) (MiniRedis.execSet env state cmd) := by
  refine .bind fun key => .bind fun val => .bind fun (node, state) => ?_
  cases node with
  | none => exact .bind fun (_, state) => .nil _
  | some ent => exact .ite (.err ..) (.nil _)

theorem execDel_follows : Follows (execDel env state cmd) (MiniRedis.execDel env state cmd) := by
  refine .bind fun key => .bind fun (node, db) => ?_
  cases node with
  | none => exact .int ..
  | some ent => exact .bind fun state => .int ..

theorem execZadd_follows : Follows (execZadd env state cmd) (MiniRedis.execZadd env state cmd) := by
  refine .bind fun scoreArg => ?_
  cases parsed : str2dbl env.strtod scoreArg with
  | none => exact .err ..
  | some score =>
      refine .bind fun key => .bind fun (node, state) => ?_
      cases node <;> exact .bind fun (ent, state) =>
        .ite (.err ..) (.bind fun name => .bind fun (added, zmemory, zset) => .int ..)

/-- The lookup is the same in both. -/
theorem withZset_follows {state : Server} {cmd : List Bytes} {missing : Buffer → Option Buffer}
    {missing' : Bytes → Bytes}
    {handle : Buffer → Server → Addr → Option (Server × Buffer)}
    {handle' : Bytes → Server → Addr → Option (Server × Bytes)}
    (absent : ∀ state : Server, Follows (fun buf => do return (state, ← missing buf))
      (fun out => some (state, missing' out)))
    (present : ∀ state ent, Follows (handle · state ent) (handle' · state ent)) :
    Follows (fun buf => withZset state cmd buf missing (handle buf))
      (fun out => MiniRedis.withZset state cmd out missing' (handle' out)) := by
  refine .bind fun key => .bind fun (node, state) => ?_
  cases node with
  | none => exact absent state
  | some ent => exact .ite (.err ..) (present state ent)

theorem execZrem_follows : Follows (execZrem env state cmd) (MiniRedis.execZrem env state cmd) := by
  refine withZset_follows (fun state => .int state 0) fun state ent => ?_
  refine .bind fun name => .bind fun (znode, zset) => ?_
  cases znode with
  | none => exact .int ..
  | some znode => exact .bind fun (zmemory, zset) => .int ..

theorem execZscore_follows :
    Follows (execZscore env state cmd) (MiniRedis.execZscore env state cmd) := by
  refine withZset_follows .nil fun state ent => .bind fun name => .bind fun (znode, zset) => ?_
  cases znode with
  | none => exact .nil _
  | some znode => exact .dbl ..

theorem execZrank_follows :
    Follows (execZrank env state cmd) (MiniRedis.execZrank env state cmd) := by
  refine withZset_follows .nil fun state ent => .bind fun name => .bind fun (znode, zset) => ?_
  cases znode with
  | none => exact .nil _
  | some znode => exact .bind fun rank => .int ..

theorem execPexpire_follows :
    Follows (execPexpire env state cmd) (MiniRedis.execPexpire env state cmd) := by
  refine .bind fun ttlArg => ?_
  cases parsed : str2int ttlArg with
  | none => exact .err ..
  | some ttlMs =>
      refine .bind fun _ => .bind fun key => .bind fun (node, state) => ?_
      cases node with
      | none => exact .int ..
      | some ent => exact .bind fun state => .int ..

theorem execPersist_follows :
    Follows (execPersist env state cmd) (MiniRedis.execPersist env state cmd) := by
  refine .bind fun key => .bind fun (node, state) => ?_
  cases node with
  | none => exact .int ..
  | some ent => exact .ite (.int ..) (.bind fun state => .int ..)

theorem execPttl_follows : Follows (execPttl env state cmd) (MiniRedis.execPttl env state cmd) := by
  refine .bind fun key => .bind fun (node, state) => ?_
  cases node with
  | none => exact .int ..
  | some ent =>
      cases index : state.heapIdx ent with
      | none =>
          simp only [index]
          exact .int ..
      | some pos =>
          simp only [index]
          exact .bind fun item => .int ..

/-! ## Arrays -/

section Foreach

variable {α β ρ : Type} {related : α → β → Prop} {cb : α → ρ → α × Bool} {cb' : β → ρ → β × Bool}

/-- Two callbacks which keep a relation and stop together. -/
def Together (related : α → β → Prop) (cb : α → ρ → α × Bool) (cb' : β → ρ → β × Bool) : Prop :=
  ∀ a b node, related a b → related (cb a node).1 (cb' b node).1 ∧ (cb a node).2 = (cb' b node).2

/-- Callbacks which keep a relation keep it along a chain, and stop together. -/
theorem foreachChain_together (together : Together related cb cb') (chain : List ρ) {a : α} {b : β}
    (start : related a b) : related (foreachChain cb chain a).1 (foreachChain cb' chain b).1 ∧
      (foreachChain cb chain a).2 = (foreachChain cb' chain b).2 := by
  induction chain generalizing a b with
  | nil => exact ⟨start, rfl⟩
  | cons node rest ih =>
      obtain ⟨next, same⟩ := together a b node start
      rw [foreachChain, foreachChain]
      generalize cb a node = x at next same ⊢
      generalize cb' b node = y at next same ⊢
      obtain ⟨a', more⟩ := x
      obtain ⟨b', more'⟩ := y
      obtain rfl : more = more' := same
      cases more with
      | true => exact ih next
      | false => exact ⟨next, rfl⟩

/-- Along a slot of one table. -/
theorem foreachSlot_together (together : Together related cb cb') (htab : HTab ρ) (i : Nat) {a : α}
    {b : β} (start : related a b) :
    Option.Rel (fun x y => related x.1 y.1 ∧ x.2 = y.2) (foreachSlot cb htab i a)
      (foreachSlot cb' htab i b) := by
  induction i, a using foreachSlot.induct cb htab generalizing b with
  | case1 i a bound missing =>
      rw [foreachSlot, foreachSlot, if_pos bound, if_pos bound, missing]
      exact .none
  | case2 i a bound chain found a' run ih =>
      obtain ⟨next, same⟩ := foreachChain_together together chain start
      rw [foreachSlot, foreachSlot, if_pos bound, if_pos bound, found]
      rw [run] at next same
      rcases run' : foreachChain cb' chain b with ⟨b', more⟩
      rw [run'] at next same
      obtain rfl : true = more := same
      simp only [run, run']
      exact ih next
  | case3 i a bound chain found a' run =>
      obtain ⟨next, same⟩ := foreachChain_together together chain start
      rw [foreachSlot, foreachSlot, if_pos bound, if_pos bound, found]
      rw [run] at next same
      rcases run' : foreachChain cb' chain b with ⟨b', more⟩
      rw [run'] at next same
      obtain rfl : false = more := same
      simp only [run, run']
      exact .some ⟨next, rfl⟩
  | case4 i a outside =>
      rw [foreachSlot, foreachSlot, if_neg outside, if_neg outside]
      exact .some ⟨start, rfl⟩

/-- Over both tables. -/
theorem hmForeach_together (together : Together related cb cb') (hmap : HMap ρ) {a : α} {b : β}
    (start : related a b) : Option.Rel related (hmForeach cb hmap a) (hmForeach cb' hmap b) := by
  have newer := foreachSlot_together together hmap.newer 0 start
  rw [hmForeach, hmForeach, htabForeach, htabForeach]
  revert newer
  generalize foreachSlot cb hmap.newer 0 a = x
  generalize foreachSlot cb' hmap.newer 0 b = y
  rintro (⟨⟨next, same⟩⟩ | _)
  · next x y =>
      obtain ⟨a', more⟩ := x
      obtain ⟨b', more'⟩ := y
      obtain rfl : more = more' := same
      cases more with
      | false => exact .some next
      | true =>
          have older := foreachSlot_together together hmap.older 0 next
          simp only [Option.bind_eq_bind, Option.bind_some, htabForeach]
          revert older
          generalize foreachSlot cb hmap.older 0 a' = x
          generalize foreachSlot cb' hmap.older 0 b' = y
          rintro (⟨⟨last, -⟩⟩ | _)
          · exact .some last
          · exact .none
  · exact .none

end Foreach

/-- `keys` appends a string for each node. -/
theorem execKeys_follows : Follows (execKeys env state cmd) (MiniRedis.execKeys env state cmd) := by
  -- the names alone, written to an empty string
  have behind : ∀ out : Bytes, Option.Rel (fun whole names => whole = out ++ names)
      (hmForeach (MiniRedis.cbKeys state) state.db out)
      (hmForeach (MiniRedis.cbKeys state) state.db []) := by
    intro out
    refine hmForeach_together ?_ state.db (List.append_nil out).symm
    rintro _ names node rfl
    exact ⟨by simp [MiniRedis.cbKeys, outStr_eq], rfl⟩
  have filled : ∀ {buf : Buffer} {bytes : Bytes}, Fresh buf bytes →
      Option.Rel (fun result names => ∃ buf', result = some buf' ∧ Fresh buf' (bytes ++ names))
        (hmForeach (cbKeys state) state.db (some buf))
        (hmForeach (MiniRedis.cbKeys state) state.db []) := by
    intro buf bytes fresh
    refine hmForeach_together ?_ state.db ⟨buf, rfl, by simpa using fresh⟩
    rintro _ names node ⟨buf', rfl, fresh'⟩
    obtain ⟨buf'', run, fresh''⟩ := outStr_writes (state.key node) buf' _ fresh'
    refine ⟨⟨buf'', run, ?_⟩, rfl⟩
    rw [MiniRedis.cbKeys, outStr_eq, ← List.append_assoc]
    exact fresh''
  generalize hmForeach (MiniRedis.cbKeys state) state.db [] = names at behind filled
  refine ⟨names.map fun names =>
    (state, Tag.arr.byte :: LittleEndian.encode 4 (hmSize state.db) ++ names), fun out => ?_,
    fun buf bytes fresh => ?_⟩
  · have whole := behind (MiniRedis.outArr out (hmSize state.db))
    simp only [MiniRedis.execKeys]
    revert whole
    generalize hmForeach (MiniRedis.cbKeys state) state.db _ = result
    rintro (⟨rfl⟩ | _)
    · simp [MiniRedis.outArr, MiniRedis.bufAppendU8, MiniRedis.bufAppendU32]
    · rfl
  · obtain ⟨begun, run, fresh'⟩ := outArr_writes (hmSize state.db) buf bytes fresh
    have whole := filled fresh'
    simp only [execKeys, run]
    revert whole
    simp only [Option.bind_eq_bind, Option.bind_some]
    generalize hmForeach (cbKeys state) state.db _ = result
    rintro (⟨⟨buf', rfl, fresh''⟩⟩ | _)
    · exact .some ⟨rfl, by simpa using fresh''⟩
    · exact .none

/-- The loop writes the same pairs behind whatever is there. -/
theorem zqueryFrom_follows (memory : ZMemory Addr) (limit : Int) (znode : Option Addr) (n : Int) :
    ∃ answer : Option (Bytes × Int),
      (∀ out, memory.zqueryFrom limit znode n out = answer.map fun a => (out ++ a.1, a.2)) ∧
      ∀ buf bytes, Fresh buf bytes → Option.Rel
        (fun result a => Fresh result.1 (bytes ++ a.1) ∧ result.2 = a.2)
        (zqueryFrom memory limit znode n buf) answer := by
  induction left : (limit - n).toNat using Nat.strong_induction_on generalizing znode n with
  | _ m ih =>
      cases znode with
      | none =>
          refine ⟨some ([], n), fun out => ?_, fun buf bytes fresh => ?_⟩
          · rw [ZMemory.zqueryFrom.eq_def]
            simp
          · rw [zqueryFrom.eq_def]
            exact .some ⟨by simpa using fresh, rfl⟩
      | some node =>
          by_cases more : n < limit
          · cases next : znodeOffset memory (some node) 1 with
            | none =>
                refine ⟨none, fun out => ?_, fun buf bytes fresh => ?_⟩
                · rw [ZMemory.zqueryFrom.eq_def]
                  simp [more, next]
                · obtain ⟨named, run, -⟩ := outStr_writes (memory.name node) buf _ fresh
                  rw [zqueryFrom.eq_def]
                  simp [more, next, run]
            | some next' =>
                obtain ⟨answer, appends, fills⟩ := ih _ (by omega) next' (n + 2) rfl
                refine ⟨answer.map fun a => ((WireValue.str (memory.name node)).encode ++
                  (WireValue.dbl (memory.score node).double).encode ++ a.1, a.2), fun out => ?_,
                  fun buf bytes fresh => ?_⟩
                · rw [ZMemory.zqueryFrom.eq_def]
                  simp [more, next, appends, outStr_eq, outDbl_eq]
                  rfl
                · obtain ⟨named, run, fresh'⟩ := outStr_writes (memory.name node) buf _ fresh
                  obtain ⟨scored, run', fresh''⟩ :=
                    outDbl_writes (memory.score node).double named _ fresh'
                  have rest := fills scored _ fresh''
                  rw [zqueryFrom.eq_def]
                  simp only [more, if_true, run, run', next, Option.bind_eq_bind,
                    Option.bind_some]
                  revert rest
                  generalize zqueryFrom memory limit next' (n + 2) scored = result
                  rintro (⟨⟨whole, same⟩⟩ | _)
                  · exact .some ⟨by simpa using whole, same⟩
                  · exact .none
          · refine ⟨some ([], n), fun out => ?_, fun buf bytes fresh => ?_⟩
            · rw [ZMemory.zqueryFrom.eq_def]
              simp [more]
            · rw [zqueryFrom.eq_def]
              simp only [more, if_false]
              exact .some ⟨by simpa using fresh, rfl⟩

/-- The pairs follow the header, and the length is stored where it was left open. -/
theorem zqueryRange_follows (memory : ZMemory Addr) (zset : ZSet Addr) (score : Number)
    (name : Bytes) (offset limit : Int) (state : Server) :
    Follows (fun buf => do return (state, ← zqueryRange memory zset score name offset limit buf))
      (fun out => do return (state, ← MiniRedis.zqueryRange memory zset score name offset limit out)) := by
  by_cases empty : limit ≤ 0
  · simp only [zqueryRange, MiniRedis.zqueryRange, if_pos empty]
    exact .arr state 0
  simp only [zqueryRange, MiniRedis.zqueryRange, if_neg empty]
  cases sought : zsetSeekGe memory zset score name with
  | none => exact ⟨none, fun _ => rfl, fun _ _ _ => .none⟩
  | some first =>
      cases moved : znodeOffset memory first offset with
      | none => exact ⟨none, fun _ => by simp [moved], fun _ _ _ => by simp [moved]⟩
      | some znode =>
          obtain ⟨answer, appends, fills⟩ := zqueryFrom_follows memory limit znode 0
          cases answer with
          | none =>
              refine ⟨none, fun out => by simp [moved, appends], fun buf bytes fresh => ?_⟩
              obtain ⟨begun, begins, fresh'⟩ := outBeginArr_fresh fresh
              have stops := fills begun _ fresh'
              simp only [moved, begins, Option.bind_eq_bind, Option.bind_some]
              revert stops
              generalize zqueryFrom memory limit znode 0 begun = result
              rintro ⟨⟩
              exact .none
          | some answer =>
              obtain ⟨items, n⟩ := answer
              refine ⟨some (state, Tag.arr.byte :: (LittleEndian.encode 4 n.toNat ++ items)),
                fun out => by simp [moved, appends, outEndArr_append], fun buf bytes fresh => ?_⟩
              obtain ⟨begun, begins, fresh'⟩ := outBeginArr_fresh fresh
              have filled := fills begun _ fresh'
              simp only [moved, begins, Option.bind_eq_bind, Option.bind_some]
              generalize zqueryFrom memory limit znode 0 begun = result at filled
              obtain @⟨⟨filled, n'⟩, _, fresh'', same⟩ := filled
              obtain rfl : n' = n := same
              rw [List.append_assoc, List.cons_append] at fresh''
              obtain ⟨ended, ends, last⟩ := outEndArr_fresh fresh'' n'.toNat
              simp only [ends, Option.bind_some]
              exact .some ⟨rfl, last⟩

/-- `zquery` writes one array or an error. -/
theorem execZquery_follows :
    Follows (execZquery env state cmd) (MiniRedis.execZquery env state cmd) := by
  refine .bind fun scoreArg => ?_
  cases str2dbl env.strtod scoreArg with
  | none => exact .err ..
  | some score =>
      refine .bind fun name => .bind fun offsetArg => .bind fun limitArg => ?_
      cases str2int offsetArg with
      | none => exact .err ..
      | some offset =>
          cases str2int limitArg with
          | none => exact .err ..
          | some limit =>
              exact withZset_follows (fun state => .arr state 0) fun state ent =>
                zqueryRange_follows _ _ _ _ _ _ state

/-! ## The command table -/

/-- The same command, with handlers which give the same answers. -/
structure CmdEntry.Follows (real : CmdEntry) (queue : MiniRedis.CmdEntry) : Prop where
  name : real.name = queue.name
  arity : real.arity = queue.arity
  handler : ∀ env state cmd,
    Buffers.Follows (real.handler env state cmd) (queue.handler env state cmd)

/-- Entry by entry. -/
theorem cmdTable_follows : List.Forall₂ CmdEntry.Follows cmdTable MiniRedis.cmdTable :=
  .cons ⟨rfl, rfl, execGet_follows⟩ <| .cons ⟨rfl, rfl, execSet_follows⟩ <|
  .cons ⟨rfl, rfl, execDel_follows⟩ <| .cons ⟨rfl, rfl, execKeys_follows⟩ <|
  .cons ⟨rfl, rfl, execZadd_follows⟩ <| .cons ⟨rfl, rfl, execZrem_follows⟩ <|
  .cons ⟨rfl, rfl, execZscore_follows⟩ <| .cons ⟨rfl, rfl, execZrank_follows⟩ <|
  .cons ⟨rfl, rfl, execZquery_follows⟩ <| .cons ⟨rfl, rfl, execPexpire_follows⟩ <|
  .cons ⟨rfl, rfl, execPersist_follows⟩ <| .cons ⟨rfl, rfl, execPttl_follows⟩ .nil

/-- The same name is found in both tables. -/
theorem find_follows {real : List CmdEntry} {queue : List MiniRedis.CmdEntry}
    (alike : List.Forall₂ CmdEntry.Follows real queue) (name : Bytes) :
    Option.Rel CmdEntry.Follows (real.find? fun entry => name == ascii entry.name)
      (queue.find? fun entry => name == ascii entry.name) := by
  induction alike with
  | nil => exact .none
  | @cons first first' rest rest' same alike ih =>
      rw [List.find?_cons, List.find?_cons, same.name]
      cases name == ascii first'.name with
      | true => exact .some same
      | false => exact ih

/-- What a command does and answers does not depend on what it writes to. -/
theorem execCmd_follows : Follows (execCmd env state cmd) (MiniRedis.execCmd env state cmd) := by
  cases cmd with
  | nil => exact .err ..
  | cons name args =>
      have found := find_follows cmdTable_follows name
      unfold execCmd MiniRedis.execCmd
      dsimp only
      revert found
      generalize (cmdTable.find? fun entry => name == ascii entry.name) = real
      generalize (MiniRedis.cmdTable.find? fun entry => name == ascii entry.name) = queue
      rintro (⟨same⟩ | _)
      · dsimp only
        rw [same.arity]
        exact .ite (.err ..) (same.handler ..)
      · exact .err ..

/-- The answer is appended to whatever is in front. -/
theorem execCmd_append (out : Bytes) :
    MiniRedis.execCmd env state cmd out =
      (MiniRedis.execCmd env state cmd []).map fun a => (a.1, out ++ a.2) := by
  obtain ⟨answer, appends, -⟩ := execCmd_follows env state cmd
  rw [appends out, appends []]
  simp

/-! ## The commands of a round -/

/-- `exec_cmd` for the commands of one round. -/
def execEach : Executor (Option Server × List Env)
  | (some state, env :: envs), cmd, out =>
    match execCmd env state cmd out with
    | some (state, out) => some ((some state, envs), out)
    | none => some ((none, envs), out)
  | (_, envs), _, out => some ((none, envs), out)

/-- `execEach` which also writes down the commands as those of a client, with the bytes which
they have appended. -/
def execRecorded (client : Nat) : Executor ((Option Server × List Env) × List ServerEvent)
  | ((db, envs), events), cmd, out => do
    let (left, written) ← execEach (db, envs) cmd out
    let value := written.data.drop out.size
    return ((left, events ++
      (envs.head?.map fun env => .command client env cmd value).toList), written)

/-- The commands of a round, each behind the replies of those before it. -/
theorem execEach_appends : execEach.Appends MiniRedis.execEach := by
  rintro ⟨db, envs⟩ cmd buf queue fresh
  have silent : ∀ envs, execEach (none, envs) cmd buf = some ((none, envs), buf) := fun _ => rfl
  cases db with
  | none => exact ⟨buf, rfl, by simpa [MiniRedis.execEach] using fresh⟩
  | some state =>
      cases envs with
      | nil => exact ⟨buf, rfl, by simpa [MiniRedis.execEach] using fresh⟩
      | cons env envs =>
          obtain ⟨answer, appends, fills⟩ := execCmd_follows env state cmd
          have filled := fills buf queue fresh
          rw [execEach, MiniRedis.execEach, appends []]
          revert filled
          generalize execCmd env state cmd buf = result
          rintro (⟨⟨same, fresh'⟩⟩ | _)
          · next result answer =>
              obtain ⟨state', buf'⟩ := result
              obtain rfl : state' = answer.1 := same
              exact ⟨buf', rfl, by simpa using fresh'⟩
          · exact ⟨buf, rfl, by simpa using fresh⟩

/-- The history is kept besides. -/
theorem execRecorded_appends (client : Nat) :
    (execRecorded client).Appends (MiniRedis.execRecorded client) := by
  rintro ⟨⟨db, envs⟩, events⟩ cmd buf queue fresh
  obtain ⟨buf', run, fresh'⟩ := execEach_appends (db, envs) cmd buf queue fresh
  refine ⟨buf', ?_, fresh'⟩
  have value : buf'.data.drop buf.size = (MiniRedis.execEach (db, envs) cmd).2 := by
    rw [fresh'.holds.data, fresh.holds.size, List.drop_left]
  simp [execRecorded, run, value, MiniRedis.execRecorded]

end MiniRedis.Buffers
