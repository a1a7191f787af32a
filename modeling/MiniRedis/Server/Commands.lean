import MiniRedis.Server.Expiry
import MiniRedis.Server.Query

/-!
# Every command simulates a step of the map

For each handler: it runs to its end, appends one value, keeps the invariant, and the
map it leaves is the one the specification names.
-/

namespace MiniRedis

open Binary64

/-- A result which answers with one value and takes the map where the specification says. -/
def Simulates (env : Env) (state : Server) (cmd : List Bytes) (out : Bytes)
    (result : Option (Server × Bytes)) : Prop :=
  ∃ state' reply, result = some (state', out ++ reply.encode) ∧ reply.Fits ∧
    state'.Consistent env.now ∧ SpecStep env state.contents cmd reply state'.contents

/-- What `get_entry` finds, and what the map says of the key. -/
inductive Looked (map : Contents) (clock : Nat) (key : Bytes) : Option Addr → Server → Prop where
  | absent {state : Server} {entries : Finset Addr} {deadline : Addr → Option Nat}
      {tree : Addr → BinaryTree Addr} (invariant : state.Invariant clock entries deadline tree)
      (same : state.contents = map) (missing : ∀ x ∈ entries, state.key x ≠ key)
      (answer : map key = none) : Looked map clock key none state
  | str {state : Server} {entries : Finset Addr} {deadline : Addr → Option Nat}
      {tree : Addr → BinaryTree Addr} {ent : Addr}
      (invariant : state.Invariant clock entries deadline tree) (same : state.contents = map)
      (member : ent ∈ entries) (named : state.key ent = key) (typed : state.type ent = .str)
      (answer : map key = some ⟨.str (state.str ent), deadline ent⟩) :
      Looked map clock key (some ent) state
  | zset {state : Server} {entries : Finset Addr} {deadline : Addr → Option Nat}
      {tree : Addr → BinaryTree Addr} {ent : Addr}
      (invariant : state.Invariant clock entries deadline tree) (same : state.contents = map)
      (member : ent ∈ entries) (named : state.key ent = key) (typed : state.type ent = .zset)
      (answer : map key = some ⟨.zset (scoreOf state.zmemory (tree ent).toList), deadline ent⟩) :
      Looked map clock key (some ent) state

/-- A found entry, whatever its type. -/
theorem Looked.present {map : Contents} {clock : Nat} {key : Bytes} {ent : Addr} {state : Server}
    (looked : Looked map clock key (some ent) state) :
    ∃ entries deadline tree, state.Invariant clock entries deadline tree ∧ state.contents = map ∧
      ent ∈ entries ∧ state.key ent = key ∧ map key = some (state.view deadline tree ent) := by
  cases looked with
  | str invariant same member named typed answer =>
      exact ⟨_, _, _, invariant, same, member, named,
        by rw [← same, ← named, invariant.contents_of_mem member]⟩
  | zset invariant same member named typed answer =>
      exact ⟨_, _, _, invariant, same, member, named,
        by rw [← same, ← named, invariant.contents_of_mem member]⟩

variable {state : Server} {clock : Nat} {env : Env}

/-- A lookup finds what the map has, whatever it migrates. -/
theorem getEntry_looked (consistent : state.Consistent clock) (key : Bytes) :
    ∃ found state', getEntry state key = some (found, state') ∧
      Looked state.contents clock key found state' := by
  obtain ⟨entries, deadline, tree, invariant⟩ := consistent
  obtain ⟨found, state', run, invariant', same, finds⟩ := invariant.getEntry key
  refine ⟨found, state', run, ?_⟩
  cases found with
  | none =>
      have answer := invariant'.contents_of_absent finds
      rw [same] at answer
      exact .absent invariant' same finds answer
  | some ent =>
      obtain ⟨member, named⟩ := finds
      have answer := invariant'.contents_of_mem member
      rw [same, named] at answer
      cases typed : state'.type ent with
      | init => exact absurd typed (invariant'.keyed.typed ent member)
      | str => exact .str invariant' same member named typed (by simpa [Server.view, typed] using answer)
      | zset =>
          exact .zset invariant' same member named typed (by simpa [Server.view, typed] using answer)

/-- A step which leaves the map as it is. -/
theorem Simulates.unchanged {cmd : List Bytes} {out : Bytes} {result : Option (Server × Bytes)}
    {state' : Server} (reply : WireValue) (run : result = some (state', out ++ reply.encode))
    (fits : reply.Fits) (consistent : state'.Consistent env.now)
    (same : state'.contents = state.contents)
    (step : SpecStep env state.contents cmd reply state.contents) :
    Simulates env state cmd out result :=
  ⟨state', reply, run, fits, consistent, same.symm ▸ step⟩

/-- A step to a map which the specification names. -/
theorem Simulates.changed {cmd : List Bytes} {out : Bytes} {result : Option (Server × Bytes)}
    {state' : Server} (reply : WireValue) (map' : Contents)
    (run : result = some (state', out ++ reply.encode)) (fits : reply.Fits)
    (consistent : state'.Consistent env.now) (moved : state'.contents = map')
    (step : SpecStep env state.contents cmd reply map') : Simulates env state cmd out result :=
  ⟨state', reply, run, fits, consistent, moved.symm ▸ step⟩

/-- The answers 0 and 1 are small. -/
theorem WireValue.fits_bit (bit : Prop) [Decidable bit] :
    (WireValue.int (if bit then 1 else 0)).Fits := by
  split <;> simp [WireValue.Fits]

/-! ## Strings and keys -/

/-- `get` answers from the map and leaves it. -/
theorem execGet_simulates (consistent : state.Consistent clock) (later : clock ≤ env.now)
    (key out : Bytes) :
    Simulates env state [ascii "get", key] out (execGet env state [ascii "get", key] out) := by
  obtain ⟨found, state', run, looked⟩ := getEntry_looked (consistent.later later) key
  have step := @SpecStep.get env state.contents key
  cases looked with
  | absent invariant same missing answer =>
      have dictated : specGet state.contents key = .nil := by rw [specGet, answer]
      rw [dictated] at step
      exact .unchanged _ (by simp [execGet, run, outNil_eq]) (by trivial) invariant.consistent same step
  | @str _ _ _ _ ent invariant same member named typed answer =>
      have dictated : specGet state.contents key = .str (state'.str ent) := by rw [specGet, answer]
      rw [dictated] at step
      exact .unchanged _ (by simp [execGet, run, typed, outStr_eq]) (by trivial) invariant.consistent same
        step
  | zset invariant same member named typed answer =>
      have dictated : specGet state.contents key = errValue .badType "not a string value" := by
        rw [specGet, answer]
      rw [dictated] at step
      exact .unchanged _ (by simp [execGet, run, typed, outErr_eq]) (errValue_fits _ _)
        invariant.consistent same step

/-- `set` replaces a string in place, or makes a record without a deadline. -/
theorem execSet_simulates (consistent : state.Consistent clock) (later : clock ≤ env.now)
    (key val out : Bytes) :
    Simulates env state [ascii "set", key, val] out
      (execSet env state [ascii "set", key, val] out) := by
  obtain ⟨found, state', run, looked⟩ := getEntry_looked (consistent.later later) key
  have step := @SpecStep.set env state.contents key val
  cases looked with
  | absent invariant same missing answer =>
      obtain ⟨ent, state'', added, -, -, -, invariant', moved⟩ :=
        invariant.addEntry env missing (by simp : ValueType.str ≠ .init) val
      rw [same] at moved
      have dictated : specSet state.contents key val =
          (.nil, Function.update state.contents key (some { value := .str val })) := by
        rw [specSet, answer]
      rw [dictated] at step
      exact .changed _ _ (by simp [execSet, run, added, outNil_eq]) (by trivial)
        invariant'.consistent moved step
  | @str _ _ deadline _ ent invariant same member named typed answer =>
      obtain ⟨invariant', moved⟩ := invariant.setString member typed val
      rw [same, named] at moved
      have dictated : specSet state.contents key val =
          (.nil, Function.update state.contents key (some ⟨.str val, deadline ent⟩)) := by
        rw [specSet, answer]
      rw [dictated] at step
      exact .changed _ _ (by simp [execSet, run, typed, outNil_eq]) (by trivial)
        invariant'.consistent moved step
  | zset invariant same member named typed answer =>
      have dictated : specSet state.contents key val =
          (errValue .badType "a non-string value exists", state.contents) := by
        rw [specSet, answer]
      rw [dictated] at step
      exact .unchanged _ (by simp [execSet, run, typed, outErr_eq]) (errValue_fits _ _)
        invariant.consistent same step

/-- `del` takes the record out, also if its entry stays allocated for a worker. -/
theorem execDel_simulates (consistent : state.Consistent clock) (later : clock ≤ env.now)
    (key out : Bytes) :
    Simulates env state [ascii "del", key] out (execDel env state [ascii "del", key] out) := by
  obtain ⟨entries, deadline, tree, invariant⟩ := consistent.later later
  obtain ⟨found, db, run, finds, keyed⟩ := invariant.keyed.delete key
  have run' : hmDelete state.hcode state.db (strHash key) (entryEq state key) = some (found, db) :=
    run
  have step := @SpecStep.del env state.contents key
  cases found with
  | none =>
      have invariant' : Server.Invariant { state with db := db } env.now entries deadline tree :=
        { invariant with keyed := keyed }
      have same : Server.contents { state with db := db } = state.contents := by
        ext k : 1
        exact invariant.contents_at invariant' (fun x member _ => ⟨member, rfl, rfl⟩)
          fun x member _ => ⟨member, rfl⟩
      have dictated : specDel state.contents key = (.int 0, state.contents) := by
        rw [specDel, invariant.contents_of_absent finds]
      rw [dictated] at step
      exact .unchanged _ (by simp [execDel, run', outInt_eq]) (by simp [WireValue.Fits])
        invariant'.consistent same step
  | some ent =>
      obtain ⟨member, named⟩ := finds
      obtain ⟨state', destroyed, queued, deleted, -, -, consistent', moved⟩ :=
        invariant.entryDel member keyed
      rw [named] at moved
      have present := invariant.contents_of_mem member
      rw [named] at present
      have dictated : specDel state.contents key =
          (.int 1, Function.update state.contents key none) := by
        rw [specDel, present]
      rw [dictated] at step
      exact .changed _ _ (by simp [execDel, run', deleted, outInt_eq]) (by simp [WireValue.Fits])
        consistent' moved step

/-- Appending each key with `out_str` appends the items of an array. -/
theorem foldl_outStr (key : Addr → Bytes) (nodes : List Addr) (out : Bytes) :
    nodes.foldl (fun out ent => outStr out (key ent)) out =
      out ++ WireValue.encodeItems ((nodes.map key).map .str) := by
  induction nodes generalizing out with
  | nil => simp [WireValue.encodeItems]
  | cons ent rest ih =>
      rw [List.foldl_cons, ih, outStr_eq]
      simp [WireValue.encodeItems]

/-- `keys` lists each present key once, in the order of the tables. -/
theorem execKeys_simulates (consistent : state.Consistent clock) (later : clock ≤ env.now)
    (out : Bytes) :
    Simulates env state [ascii "keys"] out (execKeys env state [ascii "keys"] out) := by
  obtain ⟨entries, deadline, tree, invariant⟩ := consistent.later later
  have mem_iff : ∀ x, x ∈ state.db.nodes ↔ x ∈ entries := fun x => invariant.keyed.index.mem_iff
  have size : hmSize state.db = ((state.db.nodes.map state.key).map WireValue.str).length := by
    rw [hmSize_spec invariant.keyed.index, ← invariant.keyed.index.length]
    simp
  have walk := @hmForeach_spec _ _ _ (cbKeys state) (fun out ent => outStr out (state.key ent))
    (fun _ _ => rfl) _ invariant.keyed.index.shaped (outArr out (hmSize state.db))
  rw [foldl_outStr, size, outArr_eq] at walk
  refine .unchanged (.arr ((state.db.nodes.map state.key).map .str)) ?_ ?_ invariant.consistent rfl
    (.keys _ ?_ fun key => ?_)
  · simp only [execKeys, size, walk, Option.bind_eq_bind, Option.bind_some, Option.pure_def]
  · rw [WireValue.Fits, WireValue.fitsItems_iff]
    simp [WireValue.Fits]
  · exact invariant.keyed.index.nodup.map_on fun x left y right => invariant.keyed.unique x
      ((mem_iff x).mp left) y ((mem_iff y).mp right)
  · rw [List.mem_map]
    constructor
    · rintro ⟨x, inNodes, rfl⟩
      rw [invariant.contents_of_mem ((mem_iff x).mp inNodes)]
      rfl
    · intro present
      by_contra missing
      rw [invariant.contents_of_absent fun x member named =>
        missing ⟨x, (mem_iff x).mpr member, named⟩] at present
      cases present

/-! ## Deadlines -/

/-- `pexpire` sets the deadline of a present key, unless the assertion fails. -/
theorem execPexpire_simulates (consistent : state.Consistent clock) (later : clock ≤ env.now)
    (key ttl out : Bytes) (allowed : ∀ ttlMs, str2int ttl = some ttlMs → 0 ≤ ttlMs) :
    Simulates env state [ascii "pexpire", key, ttl] out
      (execPexpire env state [ascii "pexpire", key, ttl] out) := by
  cases parsed : str2int ttl with
  | none =>
      have answer : specPexpire env state.contents key ttl =
          some (errValue .badArg "expect int64", state.contents) := by rw [specPexpire, parsed]
      exact .unchanged _ (by simp [execPexpire, parsed, outErr_eq]) (errValue_fits _ _)
        (consistent.later later) rfl (.pexpire key ttl answer)
  | some ttlMs =>
      have nonneg := allowed ttlMs parsed
      have bound : ttlMs.toNat < 2 ^ 63 := by
        have bounds := (str2int_bounds parsed).2
        rw [int64Max] at bounds
        omega
      obtain ⟨found, state', run, looked⟩ := getEntry_looked (consistent.later later) key
      cases found with
      | none =>
          cases looked with
          | absent invariant same missing answer =>
              have answered : specPexpire env state.contents key ttl =
                  some (.int 0, state.contents) := by
                simp [specPexpire, parsed, answer, nonneg]
              exact .unchanged _ (by simp [execPexpire, parsed, nonneg, run, outInt_eq])
                (by simp [WireValue.Fits]) invariant.consistent same (.pexpire key ttl answered)
      | some ent =>
          obtain ⟨entries, deadline, tree, invariant, same, member, named, answer⟩ := looked.present
          obtain ⟨state'', deadline', set, invariant', moved⟩ :=
            invariant.entrySetTtl le_rfl member bound
          rw [same, named] at moved
          have answered : specPexpire env state.contents key ttl = some (.int 1,
              Function.update state.contents key
                (some ⟨(state'.view deadline tree ent).value, some (env.now + ttlMs.toNat)⟩)) := by
            simp [specPexpire, parsed, answer, nonneg]
          exact .changed _ _ (by simp [execPexpire, parsed, nonneg, run, set, outInt_eq])
            (by simp [WireValue.Fits]) invariant'.consistent moved (.pexpire key ttl answered)

/-- A present key has a deadline exactly if its entry has an index into the heap. -/
theorem Server.Invariant.heapIdx_eq_none_iff {entries : Finset Addr} {deadline : Addr → Option Nat}
    {tree : Addr → BinaryTree Addr} (invariant : state.Invariant clock entries deadline tree)
    {ent : Addr} (member : ent ∈ entries) : state.heapIdx ent = none ↔ deadline ent = none := by
  constructor
  · intro unindexed
    have index : state.ttlHeap.heapIdx ent = none := unindexed
    rw [← invariant.timed.read member, index]
    rfl
  · exact invariant.timed.untimed ent member

/-- `persist` takes a deadline away, and says whether there was one. -/
theorem execPersist_simulates (consistent : state.Consistent clock) (later : clock ≤ env.now)
    (key out : Bytes) :
    Simulates env state [ascii "persist", key] out
      (execPersist env state [ascii "persist", key] out) := by
  obtain ⟨found, state', run, looked⟩ := getEntry_looked (consistent.later later) key
  have step := @SpecStep.persist env state.contents key
  cases found with
  | none =>
      cases looked with
      | absent invariant same missing answer =>
          have dictated : specPersist state.contents key = (.int 0, state.contents) := by
            rw [specPersist, answer]
          rw [dictated] at step
          exact .unchanged _ (by simp [execPersist, run, outInt_eq]) (by simp [WireValue.Fits])
            invariant.consistent same step
  | some ent =>
      obtain ⟨entries, deadline, tree, invariant, same, member, named, answer⟩ := looked.present
      cases due : deadline ent with
      | none =>
          have unindexed := (invariant.heapIdx_eq_none_iff member).mpr due
          have dictated : specPersist state.contents key = (.int 0, state.contents) := by
            simp [specPersist, answer, Server.view, due]
          rw [dictated] at step
          exact .unchanged _ (by simp [execPersist, run, unindexed, outInt_eq])
            (by simp [WireValue.Fits]) invariant.consistent same step
      | some val =>
          have indexed : state'.heapIdx ent ≠ none := by
            rw [ne_eq, invariant.heapIdx_eq_none_iff member, due]
            simp
          obtain ⟨state'', deadline', removed, invariant', moved⟩ := invariant.entryRemoveTtl member
          rw [same, named] at moved
          have dictated : specPersist state.contents key =
              (.int 1, Function.update state.contents key
                (some ⟨(state'.view deadline tree ent).value, none⟩)) := by
            simp [specPersist, answer, Server.view, due]
          rw [dictated] at step
          exact .changed _ _ (by simp [execPersist, run, indexed, removed, outInt_eq])
            (by simp [WireValue.Fits]) invariant'.consistent moved step

/-- `pttl` tells what is left, and 0 for a deadline which has passed. -/
theorem execPttl_simulates (consistent : state.Consistent clock) (later : clock ≤ env.now)
    (key out : Bytes) :
    Simulates env state [ascii "pttl", key] out (execPttl env state [ascii "pttl", key] out) := by
  obtain ⟨found, state', run, looked⟩ := getEntry_looked (consistent.later later) key
  have step := @SpecStep.pttl env state.contents key
  cases found with
  | none =>
      cases looked with
      | absent invariant same missing answer =>
          have dictated : specPttl env state.contents key = .int (-2) := by rw [specPttl, answer]
          rw [dictated] at step
          exact .unchanged _ (by simp [execPttl, run, outInt_eq]) (by simp [WireValue.Fits])
            invariant.consistent same step
  | some ent =>
      obtain ⟨entries, deadline, tree, invariant, same, member, named, answer⟩ := looked.present
      cases due : deadline ent with
      | none =>
          have unindexed := (invariant.heapIdx_eq_none_iff member).mpr due
          have dictated : specPttl env state.contents key = .int (-1) := by
            simp [specPttl, answer, Server.view, due]
          rw [dictated] at step
          exact .unchanged _ (by simp [execPttl, run, unindexed, outInt_eq])
            (by simp [WireValue.Fits]) invariant.consistent same step
      | some val =>
          obtain ⟨pos, index, slot⟩ := invariant.timed.holds.exists_slot due
          have bound := (invariant.timed.due ent val due).2
          have remaining : ((if val > env.now then (val - env.now : Nat) else 0 : Nat) : Int) =
              max 0 ((val : Int) - env.now) := by
            split <;> omega
          have dictated : specPttl env state.contents key = .int (max 0 (val - env.now)) := by
            simp [specPttl, answer, Server.view, due]
          rw [dictated] at step
          refine .unchanged _ ?_ ?_ invariant.consistent same step
          · have run' : execPttl env state [ascii "pttl", key] out =
                some (state', outInt out (if val > env.now then (val - env.now : Nat) else 0 : Nat)) := by
              simp [execPttl, run, Server.heapIdx, index, slot]
            rw [run', remaining, outInt_eq]
          · rw [WireValue.Fits]
            omega

end MiniRedis
