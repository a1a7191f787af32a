import MiniRedis.Server.Exec

/-!
# Expiry and the reachable states

`process_timers` also closes idle connections, which does not touch the database.
-/

namespace MiniRedis

def kMaxWorks : Nat := 2000

/-- The expiry loop of `process_timers`, with `left` deletions to go before it breaks. -/
def expireFrom (nowMs : Nat) (state : Server) : Nat → Option Server
  | 0 => some state
  | left + 1 =>
    match state.ttlHeap.arr[0]? with
    | none => some state
    | some top =>
      if top.val < nowMs then do
        let ent := top.ref
        let (node, db) ← hmDelete state.hcode state.db (state.hcode ent) (· == ent)
        guard (node = some ent)
        let state ← entryDel { state with db := db } ent
        expireFrom nowMs state left
      else some state

def processTimers (env : Env) (state : Server) : Option Server :=
  expireFrom env.now state kMaxWorks

/-- The state in which `main` starts; fields of objects yet to be allocated are arbitrary. -/
structure Server.Initial (state : Server) : Prop where
  db : state.db = {}
  arr : state.ttlHeap.arr = []
  live : state.live = ∅
  tasks : state.tasks = []
  nodes : state.zmemory.live = ∅

/-- The states of any run, with the last clock reading: commands and timer passes in any
order, and worker threads which run queued deletions at any moment. -/
inductive ServerReachable : Server → Nat → Prop where
  | initial {state : Server} (initial : state.Initial) (clock : Nat) : ServerReachable state clock
  | exec {state state' : Server} {clock : Nat} (before : ServerReachable state clock) (env : Env)
      (later : clock ≤ env.now) (cmd : List Bytes) {out out' : Bytes}
      (run : execCmd env state cmd out = some (state', out')) : ServerReachable state' env.now
  | timers {state state' : Server} {clock : Nat} (before : ServerReachable state clock) (env : Env)
      (later : clock ≤ env.now) (run : processTimers env state = some state') :
      ServerReachable state' env.now
  | worker {state state' : Server} {clock : Nat} (before : ServerReachable state clock)
      (ent : Addr) (run : runTask state ent = some state') : ServerReachable state' clock

end MiniRedis
